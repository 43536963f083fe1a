import VueSetup.Proofs.Script.Scan
import VueSetup.Span
import VueSetup.Text.Blank

/-!
# VueSetup.Proofs.Script.Gap

What stands between two tokens: blanks and comments, each of them a **filler**. `Fills cs fs rest`
says that a text starts with the given fillers and that no other one follows. There is one way only
to read a text so, whether by the scan for the next token (`exists_fills_skipBlanks`) or by
`fillers`, which lists what is passed over.

From the fillers behind an offset one knows where the comments stand there (`commentsBehind`), where
the next token starts (`tokenBehind`), and what a text holds up to another offset (`exists_behind`).
-/

namespace VueSetup.Script

open Text

/-! ### Fillers

The relation tells what stands at the head of a text, and a function finds it (`fillers`). The
relation is what the proofs use, because it says of every filler where it ends. -/

/-- A blank or a comment. -/
inductive Filler where
  | blank (c : Char)
  /-- A comment up to the end of its line, without its two slashes. -/
  | line (body : List Char)
  /-- A comment without its opening and its closing mark. -/
  | block (body : List Char)

/-- How a filler is written. -/
def Filler.chars : Filler → List Char
  | blank c => [c]
  | line body => '/' :: '/' :: body
  | block body => '/' :: '*' :: (body ++ ['*', '/'])

/-- The text of fillers. -/
def fillerText (fs : List Filler) : List Char :=
  fs.flatMap Filler.chars

@[simp] theorem fillerText_nil : fillerText [] = [] := rfl

@[simp] theorem fillerText_cons (f : Filler) (fs : List Filler) :
    fillerText (f :: fs) = f.chars ++ fillerText fs := rfl

@[simp] theorem fillerText_append (fs gs : List Filler) :
    fillerText (fs ++ gs) = fillerText fs ++ fillerText gs :=
  List.flatMap_append

/-- Blanks are written as they are. -/
theorem fillerText_blanks (blanks : List Char) : fillerText (blanks.map .blank) = blanks := by
  simp [fillerText, List.flatMap_map, Filler.chars]

/-- The character is passed over between tokens. -/
def isGapChar (c : Char) : Bool :=
  isLineEnd c || isSpace c

/-- The text starts with no filler. A comment that is not closed is none. -/
structure StartsNoFiller (cs : List Char) : Prop where
  no_blank : ∀ c ∈ cs.head?, isGapChar c = false
  no_line : ¬ ['/', '/'] <+: cs
  no_block : ∀ rest, cs = '/' :: '*' :: rest → splitComment? rest = none

/-- The text is that of the fillers and then the rest, which starts with no filler. -/
inductive Fills : List Char → List Filler → List Char → Prop where
  | nil {cs : List Char} : StartsNoFiller cs → Fills cs [] cs
  | blank {c : Char} {cs rest : List Char} {fs : List Filler} : isGapChar c = true →
    Fills cs fs rest → Fills (c :: cs) (.blank c :: fs) rest
  | line {body cs rest : List Char} {fs : List Filler} : (∀ c ∈ body, isLineEnd c = false) →
    (∀ c ∈ cs.head?, isLineEnd c = true) → Fills cs fs rest →
    Fills ('/' :: '/' :: (body ++ cs)) (.line body :: fs) rest
  | block {body cs rest : List Char} {fs : List Filler} :
    splitComment? (body ++ '*' :: '/' :: cs) = some (body, cs) → Fills cs fs rest →
    Fills ('/' :: '*' :: (body ++ '*' :: '/' :: cs)) (.block body :: fs) rest

namespace Fills

variable {cs rest : List Char} {fs : List Filler}

/-- The text is that of the fillers and then the rest. -/
theorem eq_append (h : Fills cs fs rest) : cs = fillerText fs ++ rest := by
  induction h with
  | nil => rfl
  | blank _ _ ih => simp [ih, Filler.chars]
  | line _ _ _ ih => simp [ih, Filler.chars]
  | block _ _ ih => simp [ih, Filler.chars]

/-- No filler is left at the head of the rest. -/
theorem startsNoFiller (h : Fills cs fs rest) : StartsNoFiller rest := by
  induction h with
  | nil h => exact h
  | blank _ _ ih => exact ih
  | line _ _ _ ih => exact ih
  | block _ _ ih => exact ih

/-- Behind some of the fillers stand the others. -/
theorem of_append {gs : List Filler} (h : Fills cs (fs ++ gs) rest) :
    Fills (fillerText gs ++ rest) gs rest := by
  induction fs generalizing cs with
  | nil =>
    rw [List.nil_append] at h
    exact h.eq_append ▸ h
  | cons f fs ih =>
    cases h with
    | blank _ h => exact ih h
    | line _ _ h => exact ih h
    | block _ h => exact ih h

/-- Further blanks may stand before. -/
theorem blanks (h : Fills cs fs rest) {blanks : List Char}
    (hblanks : ∀ c ∈ blanks, isGapChar c = true) :
    Fills (blanks ++ cs) (blanks.map .blank ++ fs) rest := by
  induction blanks with
  | nil => exact h
  | cons c blanks ih =>
    obtain ⟨hc, hblanks⟩ := List.forall_mem_cons.mp hblanks
    exact .blank hc (ih hblanks)

/-- A line comment does not go over the end of its line. -/
theorem not_isLineEnd {body : List Char} (h : Fills cs (.line body :: fs) rest) :
    ∀ c ∈ body, isLineEnd c = false := by
  cases h with
  | line hbody _ _ => exact hbody

end Fills

/-- A slash is no blank, so that it starts a comment or a token. -/
theorem isGapChar_slash : isGapChar '/' = false := by
  decide

/-- The scan for the next token passes over fillers. -/
theorem exists_fills_skipBlanks {n : Nat} (size : Nat) (line : Bool) {cs : List Char}
    (hn : cs.length < n) : ∃ fs, Fills cs fs (skipBlanks n size line cs).rest ∧
      (skipBlanks n size line cs).size = size + byteSize (fillerText fs) := by
  have hslash : '/'.utf8Size = 1 ∧ '*'.utf8Size = 1 := by decide
  fun_induction skipBlanks n size line cs with
  | case1 => cases hn
  | case2 => exact ⟨[], .nil ⟨by simp, by simp, by simp⟩, rfl⟩
  | case3 n size line rest body ih =>
    have hlength := (List.dropWhile_suffix (l := rest) fun c => !isLineEnd c).length_le
    simp only [List.length_cons] at hn
    obtain ⟨fs, hfs, hsize⟩ := ih (by omega)
    have hbody : ∀ c ∈ body, isLineEnd c = false := by
      intro c hc
      simpa using List.all_eq_true.mp List.all_takeWhile c hc
    have hhead : ∀ c ∈ (rest.dropWhile fun c => !isLineEnd c).head?, isLineEnd c = true := by
      intro c hc
      have hend := List.head?_dropWhile_not (fun c => !isLineEnd c) rest
      rw [Option.mem_def.mp hc] at hend
      simpa using hend
    -- The comment ends where the text of it does, at the end of its line.
    have hfills := Fills.line hbody hhead hfs
    rw [List.takeWhile_append_dropWhile] at hfills
    refine ⟨_, hfills, ?_⟩
    rw [hsize]
    simp [Filler.chars, hslash]
    omega
  | case4 n size line rest body behind hsplit ih =>
    have hrest := splitComment?_eq_some hsplit
    rw [List.append_assoc] at hrest
    simp only [hrest, List.length_cons, List.length_append] at hn
    obtain ⟨fs, hfs, hsize⟩ := ih (by omega)
    have hfills := Fills.block (hrest ▸ hsplit) hfs
    refine ⟨.block body :: fs, ?_, ?_⟩
    · rw [hrest]
      exact hfills
    · rw [hsize]
      simp [Filler.chars, hslash]
      omega
  | case5 n size line rest hsplit =>
    -- A comment that is not closed is no filler.
    refine ⟨[], .nil ⟨by simp [isGapChar_slash], by simp, ?_⟩, rfl⟩
    intro rest' heq
    cases heq
    exact hsplit
  | case6 n size line c rest _ _ hc ih =>
    obtain ⟨fs, hfs, hsize⟩ := ih (Nat.lt_of_succ_lt_succ hn)
    refine ⟨.blank c :: fs, .blank (by simp [isGapChar, hc]) hfs, ?_⟩
    rw [hsize]
    simp [Filler.chars, Nat.add_assoc]
  | case7 n size line c rest _ _ _ hc ih =>
    obtain ⟨fs, hfs, hsize⟩ := ih (Nat.lt_of_succ_lt_succ hn)
    refine ⟨.blank c :: fs, .blank (by simp [isGapChar, hc]) hfs, ?_⟩
    rw [hsize]
    simp [Filler.chars, Nat.add_assoc]
  | case8 n size line c rest hline hblock hend hspace =>
    refine ⟨[], .nil ⟨?_, ?_, ?_⟩, rfl⟩
    · simpa [isGapChar, hend] using hspace
    · intro hprefix
      obtain ⟨rest', heq⟩ := hprefix
      cases heq
      exact hline _ rfl rfl
    · intro rest' heq
      cases heq
      exact absurd rfl (hblock _ rfl)

/-- The fillers at the head of a text. The number bounds how many there are. -/
def fillers : Nat → List Char → List Filler
  | 0, _ => []
  | n + 1, cs =>
    match cs with
    | [] => []
    | '/' :: '/' :: rest =>
      .line (rest.takeWhile fun c => !isLineEnd c) ::
        fillers n (rest.dropWhile fun c => !isLineEnd c)
    | '/' :: '*' :: rest =>
      match splitComment? rest with
      | some (body, behind) => .block body :: fillers n behind
      | none => []
    | c :: rest => if isGapChar c then .blank c :: fillers n rest else []

/-- A text without a line end in front of one that starts with one. -/
theorem span_isLineEnd {body cs : List Char} (hbody : ∀ c ∈ body, isLineEnd c = false)
    (hhead : ∀ c ∈ cs.head?, isLineEnd c = true) :
    (body ++ cs).takeWhile (fun c => !isLineEnd c) = body ∧
      (body ++ cs).dropWhile (fun c => !isLineEnd c) = cs := by
  have hpass : ∀ c ∈ body, (!isLineEnd c) = true := fun c hc => by simp [hbody c hc]
  rw [List.takeWhile_append_of_pos hpass, List.dropWhile_append_of_pos hpass]
  cases cs with
  | nil => simp
  | cons c cs => simp [hhead c rfl]

/-- There is one way only to read fillers. -/
theorem Fills.fillers_eq {cs rest : List Char} {fs : List Filler} (h : Fills cs fs rest) {n : Nat}
    (hn : cs.length < n) : fillers n cs = fs := by
  induction h generalizing n with
  | @nil cs hno =>
    obtain ⟨n, rfl⟩ := Nat.exists_eq_add_one_of_ne_zero (Nat.ne_zero_of_lt hn)
    unfold fillers
    split
    · rfl
    · exact absurd (List.prefix_append ['/', '/'] _) hno.no_line
    · next rest => rw [hno.no_block rest rfl]
    · next c rest _ _ => rw [hno.no_blank c rfl, if_neg Bool.false_ne_true]
  | @blank c cs rest fs hc _ ih =>
    obtain ⟨n, rfl⟩ := Nat.exists_eq_add_one_of_ne_zero (Nat.ne_zero_of_lt hn)
    have hslash : c ≠ '/' := by
      rintro rfl
      rw [isGapChar_slash] at hc
      cases hc
    rw [fillers, if_pos hc, ih (Nat.lt_of_succ_lt_succ hn)]
    · exact fun _ h _ => hslash h
    · exact fun _ h _ => hslash h
  | @line body cs rest fs hbody hhead _ ih =>
    obtain ⟨n, rfl⟩ := Nat.exists_eq_add_one_of_ne_zero (Nat.ne_zero_of_lt hn)
    obtain ⟨htake, hdrop⟩ := span_isLineEnd hbody hhead
    simp only [List.length_cons, List.length_append] at hn
    simp only [fillers, htake, hdrop, ih (show cs.length < n by omega)]
  | @block body cs rest fs hsplit _ ih =>
    obtain ⟨n, rfl⟩ := Nat.exists_eq_add_one_of_ne_zero (Nat.ne_zero_of_lt hn)
    simp only [List.length_cons, List.length_append] at hn
    simp only [fillers, hsplit, ih (show cs.length < n by omega)]

/-! ### Behind an offset

The offsets are those where tokens and statements end. What stands there is a function of the text
and the offset, which is how the passes that move statements look for comments. -/

/-- The fillers behind an offset. -/
def fillersBehind (src : List Char) (pos : Nat) : List Filler :=
  fillers (src.length + 1) (suffixFrom src pos)

/-- Where the first token behind an offset starts. -/
def tokenBehind (src : List Char) (pos : Nat) : Nat :=
  pos + byteSize (fillerText (fillersBehind src pos))

/-- A comment and where it stands. Blanks at the end of its line do not count to it. -/
structure Comment where
  span : Span
  /-- The comment ends with its line. -/
  isLine : Bool
  deriving DecidableEq, Repr

/-- The comments among fillers that start at an offset. -/
def commentsOf : Nat → List Filler → List Comment
  | _, [] => []
  | pos, .blank c :: fs => commentsOf (pos + c.utf8Size) fs
  | pos, .line body :: fs =>
    ⟨⟨pos, pos + byteSize (trimEnd ('/' :: '/' :: body))⟩, true⟩ ::
      commentsOf (pos + (2 + byteSize body)) fs
  | pos, .block body :: fs =>
    ⟨⟨pos, pos + (4 + byteSize body)⟩, false⟩ :: commentsOf (pos + (4 + byteSize body)) fs

/-- The comments between an offset and the next token. -/
def commentsBehind (src : List Char) (pos : Nat) : List Comment :=
  commentsOf pos (fillersBehind src pos)

/-- The filler can stand between a statement and a comment on the same line. -/
def Filler.isInline : Filler → Bool
  | blank c => isSpaceOrTab c
  | line _ | block _ => true

/-- The comments behind an offset before which there is nothing but spaces, tabs and other ones. -/
def commentsOnLine (src : List Char) (pos : Nat) : List Comment :=
  commentsOf pos ((fillersBehind src pos).takeWhile Filler.isInline)

/-- There is one way only to read what stands behind an offset. -/
theorem Fills.fillersBehind_eq {before cs rest : List Char} {fs : List Filler}
    (h : Fills cs fs rest) :
    fillersBehind (before ++ cs) (byteSize before) = fs := by
  rw [fillersBehind, suffixFrom_append, h.fillers_eq]
  rw [List.length_append]
  omega

/-- Behind an offset of the text stand the fillers and then a token. -/
theorem exists_fills_behind {src : List Char} {pos : Nat} (hpos : IsBoundary src pos) :
    ∃ before cs rest, src = before ++ cs ∧ byteSize before = pos ∧
      Fills cs (fillersBehind src pos) rest := by
  obtain ⟨before, cs, rfl, rfl⟩ := hpos
  obtain ⟨fs, hfs, -⟩ := exists_fills_skipBlanks 0 false (Nat.lt_succ_self cs.length)
  exact ⟨before, cs, _, rfl, rfl, hfs.fillersBehind_eq.symm ▸ hfs⟩

/-- The scan for the next token ends where the fillers do. -/
theorem size_skipBlanks {before cs : List Char} {bound : Nat}
    (hbound : (before ++ cs).length < bound)
    (line : Bool) : byteSize before + (skipBlanks bound 0 line cs).size =
      tokenBehind (before ++ cs) (byteSize before) := by
  rw [List.length_append] at hbound
  obtain ⟨fs, hfs, hsize⟩ := exists_fills_skipBlanks 0 line (show cs.length < bound by omega)
  rw [tokenBehind, hfs.fillersBehind_eq, hsize, Nat.zero_add]

/-- The next token starts behind the offset. -/
theorem le_tokenBehind (src : List Char) (pos : Nat) : pos ≤ tokenBehind src pos :=
  Nat.le_add_right _ _

/-! ### Where the comments stand

The place of a comment is its offset among the fillers. A line comment ends before the blanks at the
end of its line, so those may go to another statement. -/

/-- Comments in two rows of fillers, one after the other. -/
theorem commentsOf_append (pos : Nat) (fs gs : List Filler) :
    commentsOf pos (fs ++ gs) =
      commentsOf pos fs ++ commentsOf (pos + byteSize (fillerText fs)) gs := by
  have hmark : '/'.utf8Size = 1 ∧ '*'.utf8Size = 1 := by decide
  induction fs generalizing pos with
  | nil => rfl
  | cons f fs ih =>
    cases f with
    | blank c => simp [commentsOf, ih, Filler.chars, Nat.add_assoc]
    | line body =>
      simp [commentsOf, ih, Filler.chars, hmark]
      congr 1
      omega
    | block body =>
      simp [commentsOf, ih, Filler.chars, hmark]
      congr 1
      omega

/-- A comment lies where the fillers do. -/
theorem within_of_mem_commentsOf {pos : Nat} {fs : List Filler} {k : Comment}
    (hk : k ∈ commentsOf pos fs) :
    pos ≤ k.span.start ∧ k.span.start ≤ k.span.stop ∧
      k.span.stop ≤ pos + byteSize (fillerText fs) := by
  have hmark : '/'.utf8Size = 1 ∧ '*'.utf8Size = 1 := by decide
  induction fs generalizing pos with
  | nil => cases hk
  | cons f fs ih =>
    cases f with
    | blank c =>
      have := ih hk
      simp only [fillerText_cons, byteSize_append, Filler.chars, byteSize_cons, byteSize_nil]
      omega
    | line body =>
      have htrim := byteSize_le_of_sublist (isPrefix_trimEnd ('/' :: '/' :: body)).sublist
      simp only [byteSize_cons, hmark] at htrim
      simp only [fillerText_cons, byteSize_append, Filler.chars, byteSize_cons, hmark]
      rcases List.mem_cons.mp hk with rfl | hk
      · dsimp only
        omega
      · have := ih hk
        omega
    | block body =>
      simp only [fillerText_cons, byteSize_append, Filler.chars, byteSize_cons, byteSize_nil, hmark]
      rcases List.mem_cons.mp hk with rfl | hk
      · dsimp only
        omega
      · have := ih hk
        omega

/-- What stands at the start of a line comment is never trimmed off. -/
theorem byteSize_trimEnd_pos (body : List Char) : 0 < byteSize (trimEnd ('/' :: '/' :: body)) := by
  obtain ⟨blanks, heq, hblanks⟩ := exists_eq_trimEnd_append ('/' :: '/' :: body)
  apply Nat.pos_of_ne_zero
  intro hzero
  rw [eq_nil_of_byteSize_eq_zero hzero, List.nil_append] at heq
  have hslash := hblanks '/' (heq ▸ List.mem_cons_self)
  revert hslash
  decide

/-- A comment does not end with a blank. -/
theorem le_trimEnd_of_mem_commentsOf {pos : Nat} {fs : List Filler} {k : Comment}
    (hk : k ∈ commentsOf pos fs) : k.span.start < k.span.stop ∧
      k.span.stop ≤ pos + byteSize (trimEnd (fillerText fs)) := by
  have hmark : '/'.utf8Size = 1 ∧ '*'.utf8Size = 1 := by decide
  -- a comment that comes first, and one behind the first filler
  have hfirst : ∀ (f : Filler) (fs : List Filler),
      byteSize (trimEnd f.chars) ≤ byteSize (trimEnd (fillerText (f :: fs))) := by
    intro f fs
    exact byteSize_le_of_sublist (trimEnd_isPrefix_trimEnd_append f.chars (fillerText fs)).sublist
  have hbehind : ∀ (f : Filler) (fs : List Filler), 0 < byteSize (trimEnd (fillerText fs)) →
      byteSize f.chars + byteSize (trimEnd (fillerText fs)) =
        byteSize (trimEnd (fillerText (f :: fs))) := by
    intro f fs hpos
    rw [fillerText_cons, trimEnd_append, if_neg, byteSize_append]
    intro hnil
    rw [hnil] at hpos
    exact absurd hpos (Nat.lt_irrefl 0)
  induction fs generalizing pos with
  | nil => cases hk
  | cons f fs ih =>
    have hfirst := hfirst f fs
    have hbehind := hbehind f fs
    cases f with
    | blank c =>
      have hk : k ∈ commentsOf (pos + c.utf8Size) fs := hk
      have htail := ih hk
      have hlo := (within_of_mem_commentsOf hk).1
      simp only [Filler.chars, byteSize_cons, byteSize_nil] at hbehind
      omega
    | line body =>
      have hbody := byteSize_trimEnd_pos body
      rcases List.mem_cons.mp hk with rfl | hk
      · simp only [Filler.chars] at hfirst
        dsimp only
        omega
      · have htail := ih hk
        have hlo := (within_of_mem_commentsOf hk).1
        simp only [Filler.chars, byteSize_cons, hmark] at hbehind
        omega
    | block body =>
      rcases List.mem_cons.mp hk with rfl | hk
      · have htrim : trimEnd (Filler.chars (.block body)) = Filler.chars (.block body) := by
          have hslash : isBlank '/' = false := by decide
          have hconcat := trimEnd_concat hslash ('/' :: '*' :: (body ++ ['*']))
          rw [Filler.chars]
          simpa using hconcat
        rw [htrim] at hfirst
        simp only [Filler.chars, byteSize_cons, byteSize_append, byteSize_nil, hmark] at hfirst
        dsimp only
        omega
      · have htail := ih hk
        have hlo := (within_of_mem_commentsOf hk).1
        simp only [Filler.chars, byteSize_cons, byteSize_append, byteSize_nil, hmark] at hbehind
        omega

/-- No comment among the fillers is cut at an offset. -/
def Uncut (pos : Nat) (fs : List Filler) (offset : Nat) : Prop :=
  ∀ k ∈ commentsOf pos fs, k.span.stop ≤ offset ∨ offset ≤ k.span.start

/-- Between fillers, and before the blanks that end a comment's line, nothing is cut. -/
theorem uncut_append {pos offset : Nat} {fs gs : List Filler}
    (hfs : ∀ k ∈ commentsOf pos fs, k.span.stop ≤ offset)
    (hgs : Uncut (pos + byteSize (fillerText fs)) gs offset) : Uncut pos (fs ++ gs) offset := by
  intro k hk
  rw [commentsOf_append, List.mem_append] at hk
  rcases hk with hk | hk
  · exact .inl (hfs k hk)
  · exact hgs k hk

/-- White space in the wider sense is passed over as well. -/
theorem isGapChar_of_isBlank {c : Char} (h : isBlank c = true) : isGapChar c = true := by
  have hchar : ∀ d : Char, (c == d) = decide (c.toNat = d.toNat) := by
    intro d
    rw [Bool.eq_iff_iff, beq_iff_eq, decide_eq_true_eq, Char.toNat_inj]
  simp only [isBlank, blankRanges, List.any_cons, List.any_nil, Bool.or_false, Bool.or_eq_true,
    Bool.and_eq_true, decide_eq_true_eq] at h
  simp [isGapChar, isLineEnd, isSpace, hchar]
  omega

/-! ### Up to another offset

A stretch that starts behind a statement holds the fillers there, and more if it goes over the next
token. Either is known from the fillers behind its start. -/

/-- What stands behind an offset up to another one: the fillers, and then the given text, which
starts with no filler. -/
structure Behind (src : List Char) (pos stop : Nat) (more : List Char) : Prop where
  fills : ∃ cs rest, Fills cs (fillersBehind src pos) rest ∧ more <+: rest
  text : ∃ before behind, byteSize before = pos ∧
    src = before ++ (fillerText (fillersBehind src pos) ++ more) ++ behind
  size : pos + byteSize (fillerText (fillersBehind src pos) ++ more) = stop

/-- Between an offset and another one at or behind the next token stand all fillers. -/
theorem exists_behind {src : List Char} {pos stop : Nat} (hpos : IsBoundary src pos)
    (hstop : IsBoundary src stop) (hle : tokenBehind src pos ≤ stop) :
    ∃ more, Behind src pos stop more := by
  obtain ⟨before, cs, rest, hsrc, hsize, hfills⟩ := exists_fills_behind hpos
  obtain ⟨front, behind, hfront, hfrontSize⟩ := hstop
  have heq : before ++ fillerText (fillersBehind src pos) ++ rest = front ++ behind := by
    rw [List.append_assoc, ← hfills.eq_append, ← hsrc, hfront]
  rw [tokenBehind] at hle
  obtain ⟨more, hmore, hrest⟩ := append_eq_append_of_byteSize_le heq (by
    rw [byteSize_append]
    omega)
  refine ⟨more, ⟨cs, rest, hfills, behind, hrest.symm⟩, ⟨before, behind, hsize, ?_⟩, ?_⟩
  · rw [← List.append_assoc, ← hmore]
    exact hfront
  · rw [← hfrontSize, hmore, ← hsize]
    simp only [byteSize_append]
    omega

/-- The text between the two offsets, in its two parts. -/
theorem Behind.between_eq {src more : List Char} {pos stop : Nat} (h : Behind src pos stop more) :
    between src pos stop = fillerText (fillersBehind src pos) ++ more := by
  obtain ⟨before, behind, hsize, hsrc⟩ := h.text
  have hmiddle := between_middle before (fillerText (fillersBehind src pos) ++ more) behind
  rwa [← hsrc, hsize, h.size] at hmiddle

end VueSetup.Script
