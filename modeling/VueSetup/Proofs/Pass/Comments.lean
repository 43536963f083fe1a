import VueSetup.Proofs.Pass.Setup

/-!
# VueSetup.Proofs.Pass.Comments

The comments that a statement takes along. Behind it they are looked for character by character;
here they are found among the fillers behind the statement (`trailingComments_eq`). A comment up to
the end of its line is carried to the next line feed, though other line breaks end it too: what is
taken along stays before the next statement if there is a line feed before that
(`trailingSize_le_of_feed`), and cuts no comment if that line feed stands between fillers
(`uncut_trailingSize`). Before a statement it is the first line feed behind the statement before
that decides, and the same holds of it (`uncut_lead`).
-/

namespace VueSetup.Pass

open Script (Behind Comment Filler Fills StartsNoFiller Uncut commentsOf commentsOnLine fillerText
  fillerText_append fillerText_cons fillerText_nil fillersBehind isGapChar isLineEnd splitComment?
  tokenBehind)
open Text (byteSize byteSize_append byteSize_cons byteSize_nil isBlank isSpaceOrTab trimEnd)

/-! ### Behind a statement

The scan behind a statement knows characters only. To say which comments it takes, it is compared
with the fillers that a reader of the script finds there: both pass blanks and comments in blocks
alike, and differ in where a comment up to the end of its line ends. -/

/-- How many bytes of the fillers behind a statement, and of what comes then, are taken along: up to
the last comment on its last line. -/
def trailingSize (more : List Char) : List Filler → Nat
  | [] => 0
  | .blank c :: fs =>
    if isSpaceOrTab c = true ∧ trailingSize more fs ≠ 0 then trailingSize more fs + 1 else 0
  | .line body :: fs =>
    byteSize (trimEnd ('/' :: '/' :: (body ++ (fillerText fs ++ more).takeWhile (· != '\n'))))
  | .block body :: fs => byteSize body + 4 + trailingSize more fs

/-- What follows a comment up to the end of its line has a property, if the comment is taken
along. -/
def BehindLine (P : List Filler → Prop) (fs : List Filler) : Prop :=
  ∀ front body behind, fs = front ++ .line body :: behind → (∀ f ∈ front, f.isInline = true) →
    P behind

/-- Behind a filler on the same line, the property is still asked of the same comment. -/
theorem BehindLine.tail {P : List Filler → Prop} {f : Filler} {fs : List Filler}
    (h : BehindLine P (f :: fs)) (hf : f.isInline = true) : BehindLine P fs := by
  intro front body behind heq hfront
  refine h (f :: front) body behind (by rw [heq, List.cons_append]) fun g hg => ?_
  rcases List.mem_cons.mp hg with rfl | hg
  · exact hf
  · exact hfront g hg

/-- The comment may come first. -/
theorem BehindLine.head {P : List Filler → Prop} {body : List Char} {fs : List Filler}
    (h : BehindLine P (.line body :: fs)) : P fs :=
  h [] body fs rfl (by simp)

/-- Where the line ends that an offset stands on, or the text up to `hi`. -/
def lineStop (source : List Char) (hi offset : Nat) : Nat :=
  offset + byteSize ((Text.between source offset hi).takeWhile (· != '\n'))

/-- The line of a comment ends between two of the fillers behind it. -/
def LineEnds (more : List Char) (fs : List Filler) : Prop :=
  ∃ gs gs', fs = gs ++ gs' ∧ (fillerText fs ++ more).takeWhile (· != '\n') = fillerText gs

/-- The first closing mark of a comment does not depend on what follows. -/
theorem commentEnd?_of_splitComment? {body cs : List Char}
    (h : splitComment? (body ++ '*' :: '/' :: cs) = some (body, cs)) (cs' : List Char) :
    commentEnd? (body ++ '*' :: '/' :: cs') = some (byteSize body) := by
  induction body with
  | nil => rfl
  | cons c body ih =>
    have hmark : ∀ tail, c = '*' → body ++ '*' :: '/' :: cs' = '/' :: tail → False := by
      rintro tail rfl hbody
      cases body with
      | nil => cases hbody
      | cons d body =>
        cases hbody
        cases h
    have hrest : splitComment? (body ++ '*' :: '/' :: cs) = some (body, cs) := by
      rw [List.cons_append, splitComment?] at h
      · obtain ⟨⟨b, r⟩, hsplit, heq⟩ := Option.map_eq_some_iff.mp h
        cases heq
        exact hsplit
      · rintro tail rfl hbody
        cases body with
        | nil => cases hbody
        | cons d body =>
          cases hbody
          cases h
    rw [List.cons_append, commentEnd?, ih hrest, Option.map_some, byteSize_cons, Nat.add_comm]
    exact hmark

/-- A comment that is closed can be split off. -/
theorem splitComment?_ne_none (as bs : List Char) : splitComment? (as ++ '*' :: '/' :: bs) ≠
    none := by
  induction as with
  | nil => simp [splitComment?]
  | cons c as ih =>
    rw [List.cons_append]
    unfold splitComment?
    split
    · next heq => cases heq
    · simp
    · next heq =>
      cases heq
      simpa using ih

/-- A space or a tab counts if a comment follows. -/
theorem trailingComments_cons {c : Char} (hc : isSpaceOrTab c = true) (n : Nat) (cs : List Char) :
    (trailingComments n cs = 0 ∧ trailingComments n (c :: cs) = 0) ∨
      (trailingComments n cs ≠ 0 ∧ trailingComments n (c :: cs) = trailingComments n cs + 1) := by
  cases n with
  | zero => exact .inl ⟨rfl, rfl⟩
  | succ n =>
    simp only [trailingComments, List.takeWhile_cons_of_pos hc, List.dropWhile_cons_of_pos hc,
      List.length_cons]
    generalize (cs.takeWhile isSpaceOrTab).length = blanks
    generalize cs.dropWhile isSpaceOrTab = rest
    split
    · next rest =>
      have := Script.byteSize_trimEnd_pos (rest.takeWhile (· != '\n'))
      exact .inr ⟨by omega, by omega⟩
    · split
      · exact .inr ⟨by omega, by omega⟩
      · exact .inl ⟨rfl, rfl⟩
    · exact .inl ⟨rfl, rfl⟩

/-- A comment up to the end of its line is taken along without the blanks at its end. -/
theorem trailingComments_line (n : Nat) (rest : List Char) :
    trailingComments (n + 1) ('/' :: '/' :: rest) =
      byteSize (trimEnd ('/' :: '/' :: rest.takeWhile (· != '\n'))) := by
  have hslash : isSpaceOrTab '/' = false := by decide
  simp [trailingComments, hslash]

/-- A comment in a block is taken along as a whole, and the scan goes on behind it. -/
theorem trailingComments_block {n size : Nat} {rest : List Char}
    (h : commentEnd? rest = some size) :
    trailingComments (n + 1) ('/' :: '*' :: rest) =
      size + 4 + trailingComments n (Text.suffixFrom rest (size + 2)) := by
  have hslash : isSpaceOrTab '/' = false := by decide
  simp [trailingComments, hslash, h]

/-- Nothing is taken along where neither a space, nor a tab, nor a comment comes first. -/
theorem trailingComments_eq_zero (n : Nat) {cs : List Char}
    (hblank : ∀ c ∈ cs.head?, isSpaceOrTab c = false) (hline : ¬ ['/', '/'] <+: cs)
    (hblock : ∀ rest, cs = '/' :: '*' :: rest → commentEnd? rest = none) :
    trailingComments n cs = 0 := by
  cases n with
  | zero => rfl
  | succ n =>
    have hdrop : cs.dropWhile isSpaceOrTab = cs := by
      cases cs with
      | nil => rfl
      | cons c cs => exact List.dropWhile_cons_of_neg (by simp [hblank c rfl])
    rw [trailingComments, hdrop]
    split
    · exact absurd (List.prefix_append ['/', '/'] _) hline
    · next rest => rw [hblock rest rfl]
    · rfl

theorem isSpaceOrTab_of_isGapChar_eq_false {c : Char} (h : isGapChar c = false) :
    isSpaceOrTab c = false := by
  rw [Bool.eq_false_iff] at h ⊢
  intro hc
  apply h
  simp only [isSpaceOrTab, Bool.or_eq_true, beq_iff_eq] at hc
  rcases hc with rfl | rfl <;> decide

/-- A line feed ends a line, so that a character that ends none is no line feed. -/
theorem bne_feed_of_isLineEnd {c : Char} (h : isLineEnd c = false) : (c != '\n') = true := by
  rw [bne_iff_ne]
  rintro rfl
  revert h
  decide

theorem bne_of_notMem {passed : List Char} (h : '\n' ∉ passed) : ∀ c ∈ passed, (c != '\n') =
    true := by
  intro c hc
  rw [bne_iff_ne]
  rintro rfl
  exact h hc

/-- The text up to the next line feed. -/
theorem takeWhile_of_feed {passed : List Char} (h : '\n' ∉ passed) (behind : List Char) :
    (passed ++ '\n' :: behind).takeWhile (· != '\n') = passed := by
  rw [List.takeWhile_append_of_pos (bne_of_notMem h)]
  exact List.append_nil passed

/-- The text from the next line feed on. -/
theorem dropWhile_of_feed {passed : List Char} (h : '\n' ∉ passed) (behind : List Char) :
    (passed ++ '\n' :: behind).dropWhile (· != '\n') = '\n' :: behind := by
  rw [List.dropWhile_append_of_pos (bne_of_notMem h)]
  rfl

/-- What is taken along behind a statement are the comments among the fillers on its last line. -/
theorem trailingComments_eq {cs rest more : List Char} {fs : List Filler} (h : Fills cs fs rest)
    (hmore : more <+: rest) {n : Nat} (hn : (fillerText fs ++ more).length < n) :
    trailingComments n (fillerText fs ++ more) = trailingSize more fs := by
  induction h generalizing n with
  | @nil cs hno =>
    -- A front of the rest starts no filler, as the rest does not.
    refine trailingComments_eq_zero n (fun c hc => ?_) (fun hmarks => ?_) (fun tail heq => ?_)
    · obtain ⟨last, rfl⟩ := hmore
      rw [fillerText_nil, List.nil_append] at hc
      have hfirst : c ∈ (more ++ last).head? := by simp [List.head?_append, Option.mem_def.mp hc]
      exact isSpaceOrTab_of_isGapChar_eq_false (hno.no_blank c hfirst)
    · exact hno.no_line (hmarks.trans hmore)
    · cases hend : commentEnd? tail with
      | none => rfl
      | some size =>
        obtain ⟨before, behind, rfl, -⟩ := byteSize_commentEnd? hend
        obtain ⟨last, hlast⟩ := hmore
        rw [fillerText_nil, List.nil_append] at heq
        rw [heq] at hlast
        have hnone := hno.no_block (before ++ '*' :: '/' :: (behind ++ last)) (by simp [← hlast])
        exact absurd hnone (splitComment?_ne_none _ _)
  | @blank c cs rest fs hc hfs ih =>
    rw [fillerText_cons, Filler.chars, List.append_assoc, List.singleton_append] at hn ⊢
    rw [trailingSize]
    -- Blanks other than spaces and tabs end the line or are not passed by the scan.
    by_cases htab : isSpaceOrTab c = true
    · have hih := ih hmore (Nat.lt_of_succ_lt hn)
      rcases trailingComments_cons htab n (fillerText fs ++ more) with ⟨hzero, heq⟩ | ⟨hne, heq⟩
      · rw [heq, if_neg]
        rw [← hih]
        exact fun h => h.2 hzero
      · rw [heq, hih, if_pos]
        rw [← hih]
        exact ⟨htab, hne⟩
    · have hslash : c ≠ '/' := by
        rintro rfl
        rw [Script.isGapChar_slash] at hc
        cases hc
      rw [if_neg fun h => htab h.1]
      refine trailingComments_eq_zero n (by simpa using htab) ?_ ?_
      · intro hmarks
        obtain ⟨tail, heq⟩ := hmarks
        exact hslash (List.cons.inj heq).1.symm
      · intro tail heq
        exact absurd (List.cons.inj heq).1 hslash
  | @line body cs rest fs hbody hhead hfs ih =>
    obtain ⟨n, rfl⟩ := Nat.exists_eq_add_one_of_ne_zero (Nat.ne_zero_of_lt hn)
    -- The scan goes on to the next line feed, which may stand behind the end of the comment.
    have hfeed : ∀ c ∈ body, (c != '\n') = true := fun c hc => bne_feed_of_isLineEnd (hbody c hc)
    rw [fillerText_cons, Filler.chars, List.cons_append, List.cons_append, List.cons_append,
      List.cons_append, trailingComments_line, List.append_assoc,
        List.takeWhile_append_of_pos hfeed]
    rfl
  | @block body cs rest fs hsplit hfs ih =>
    obtain ⟨n, rfl⟩ := Nat.exists_eq_add_one_of_ne_zero (Nat.ne_zero_of_lt hn)
    have htext : fillerText (.block body :: fs) ++ more =
        '/' :: '*' :: (body ++ '*' :: '/' :: (fillerText fs ++ more)) := by
      simp [Filler.chars]
    have hbehind : Text.suffixFrom (body ++ '*' :: '/' :: (fillerText fs ++ more))
        (byteSize body + 2) =
        fillerText fs ++ more := by
      have := Text.suffixFrom_append (body ++ ['*', '/']) (fillerText fs ++ more)
      rwa [byteSize_append, List.append_assoc] at this
    rw [htext] at hn ⊢
    simp only [List.length_cons, List.length_append] at hn
    rw [trailingComments_block (commentEnd?_of_splitComment? hsplit _), hbehind,
      ih hmore (by rw [List.length_append]; omega)]
    rfl

/-- The end of a line that cuts no comment stands between fillers. -/
theorem exists_of_lineEnd {cs rest : List Char} {fs : List Filler} (h : Fills cs fs rest)
    {pos : Nat}
    {more passed behind : List Char} (htext : fillerText fs ++ more = passed ++ behind)
    (hhead : ∀ c ∈ behind.head?, c = '\n') (hle : byteSize passed ≤ byteSize (fillerText fs))
    (huncut : Uncut pos fs (pos + byteSize passed)) :
    ∃ fs₁ fs₂, fs = fs₁ ++ fs₂ ∧ passed = fillerText fs₁ := by
  have hmark : '/'.utf8Size = 1 ∧ '*'.utf8Size = 1 := by decide
  induction h generalizing pos passed with
  | nil => exact ⟨[], [], rfl, Text.eq_nil_of_byteSize_eq_zero (Nat.le_zero.mp hle)⟩
  | @blank c cs rest fs hc _ ih =>
    cases passed with
    | nil => exact ⟨[], _, rfl, rfl⟩
    | cons d passed =>
      obtain ⟨rfl, hrest⟩ := List.cons.inj htext
      obtain ⟨fs₁, fs₂, rfl, rfl⟩ := ih hrest (by simpa [Filler.chars] using hle) (by
        rw [byteSize_cons, ← Nat.add_assoc] at huncut
        exact huncut)
      exact ⟨.blank c :: fs₁, fs₂, rfl, rfl⟩
  | @line body cs rest fs hbody _ _ ih =>
    rw [fillerText_cons, List.append_assoc] at htext
    -- no line ends in the comment
    obtain ⟨ms, rfl, hrest⟩ : ∃ ms, passed = Filler.chars (.line body) ++ ms ∧
        fillerText fs ++ more = ms ++ behind := by
      rcases List.append_eq_append_iff.mp htext with ⟨ms, hpassed, hrest⟩ | ⟨ms, hchars, hrest⟩
      · exact ⟨ms, hpassed, hrest⟩
      · cases ms with
        | nil => exact ⟨[], by simpa using hchars.symm, by simpa using hrest.symm⟩
        | cons c ms =>
          obtain rfl := hhead c (by rw [hrest]; rfl)
          have hmem : '\n' ∈ Filler.chars (.line body) := hchars ▸ by simp
          have hmem : '\n' ∈ body := by simpa [Filler.chars] using hmem
          exact absurd rfl (bne_iff_ne.mp (bne_feed_of_isLineEnd (hbody '\n' hmem)))
    have hbehind : Uncut (pos + (2 + byteSize body)) fs
        (pos + (2 + byteSize body) + byteSize ms) := by
      intro k hk
      have := huncut k (List.mem_cons_of_mem _ hk)
      simp only [byteSize_append, Filler.chars, byteSize_cons, hmark] at this
      omega
    obtain ⟨fs₁, fs₂, rfl, rfl⟩ := ih hrest (by simpa using hle) hbehind
    exact ⟨.line body :: fs₁, fs₂, rfl, rfl⟩
  | @block body cs rest fs _ _ ih =>
    rw [fillerText_cons, List.append_assoc] at htext
    have hchars : byteSize (Filler.chars (.block body)) = 4 + byteSize body := by
      simp [Filler.chars, hmark]
      omega
    cases passed with
    | nil => exact ⟨[], _, rfl, rfl⟩
    | cons c passed =>
      have hpos := Char.utf8Size_pos c
      have hwhole := huncut ⟨⟨pos, pos + (4 + byteSize body)⟩, false⟩ List.mem_cons_self
      simp only [byteSize_cons] at hwhole
      obtain ⟨ms, heq, hrest⟩ := Text.append_eq_append_of_byteSize_le htext (by
        rw [byteSize_cons]
        omega)
      rw [heq] at hle huncut ⊢
      have hbehind : Uncut (pos + (4 + byteSize body)) fs
          (pos + (4 + byteSize body) + byteSize ms) := by
        intro k hk
        have := huncut k (List.mem_cons_of_mem _ hk)
        rw [byteSize_append, hchars] at this
        omega
      obtain ⟨fs₁, fs₂, rfl, rfl⟩ := ih hrest (by simpa using hle) hbehind
      exact ⟨.block body :: fs₁, fs₂, rfl, rfl⟩

section

variable {source more : List Char} {pos stop : Nat}

/-- A comment up to the end of its line that is taken along, and what stands behind it in the
text. -/
theorem exists_of_line (h : Behind source pos stop more) {front fs : List Filler} {body : List Char}
    (hfs : fillersBehind source pos = front ++ .line body :: fs)
    (hfront : ∀ f ∈ front, f.isInline = true) :
    ∃ k ∈ commentsOnLine source pos, k.isLine = true ∧
      ∃ blanks, (∀ c ∈ blanks, (c != '\n') = true) ∧
        k.span.stop + byteSize blanks = pos + byteSize (fillerText (front ++ [.line body])) ∧
        Text.between source k.span.stop stop = blanks ++ (fillerText fs ++ more) := by
  obtain ⟨cs, rest, hfills, -⟩ := h.fills
  obtain ⟨before, behind, hpos, hsource⟩ := h.text
  have hsize := h.size
  rw [hfs] at hfills hsource hsize
  obtain ⟨blanks, htext, hblanks⟩ := Text.exists_eq_trimEnd_append ('/' :: '/' :: body)
  have hbody := congrArg byteSize htext
  rw [byteSize_append] at hbody
  -- The comment of a filler goes without the blanks at its end, which stand behind it then.
  refine ⟨⟨⟨pos + byteSize (fillerText front), pos + byteSize (fillerText front) +
    byteSize (trimEnd ('/' :: '/' :: body))⟩, true⟩, ?_, rfl, blanks, ?_, ?_, ?_⟩
  · rw [commentsOnLine, hfs, List.takeWhile_append_of_pos hfront,
      List.takeWhile_cons_of_pos (by rfl), Script.commentsOf_append]
    exact List.mem_append_right _ List.mem_cons_self
  · intro c hc
    have hmem : c ∈ '/' :: '/' :: body := htext ▸ List.mem_append_right _ hc
    simp only [List.mem_cons] at hmem
    rcases hmem with rfl | rfl | hmem
    · decide
    · decide
    · exact bne_feed_of_isLineEnd (hfills.of_append.not_isLineEnd c hmem)
  · simp only [fillerText_append, fillerText_cons, fillerText_nil, List.append_nil, byteSize_append,
      Filler.chars]
    omega
  · have hchars : before ++ (fillerText (front ++ .line body :: fs) ++ more) ++ behind =
        before ++ fillerText front ++ trimEnd ('/' :: '/' :: body) ++
          (blanks ++ (fillerText fs ++ more)) ++ behind := by
      rw [fillerText_append, fillerText_cons, Filler.chars]
      nth_rewrite 1 [htext]
      simp only [List.append_assoc]
    have hend : byteSize (before ++ fillerText front ++ trimEnd ('/' :: '/' :: body)) +
        byteSize (blanks ++ (fillerText fs ++ more)) = stop := by
      rw [← hsize, ← hpos]
      simp only [fillerText_append, fillerText_cons, byteSize_append, Filler.chars, hbody]
      omega
    have hmiddle := Text.between_middle (before ++ fillerText front ++ trimEnd ('/' :: '/' :: body))
      (blanks ++ (fillerText fs ++ more)) behind
    rw [hend, ← hchars, ← hsource, byteSize_append, byteSize_append, hpos] at hmiddle
    exact hmiddle

/-- A line feed behind a comment, as a fact about the fillers. -/
theorem behindLine_feed (h : Behind source pos stop more)
    (hlines : ∀ k ∈ commentsOnLine source pos, k.isLine = true →
      '\n' ∈ Text.between source k.span.stop stop) :
    BehindLine (fun fs => '\n' ∈ fillerText fs ++ more) (fillersBehind source pos) := by
  intro front body fs hfs hfront
  obtain ⟨k, hk, hline, blanks, hblanks, -, hbetween⟩ := exists_of_line h hfs hfront
  have hfeed := hlines k hk hline
  rw [hbetween, List.mem_append] at hfeed
  rcases hfeed with hfeed | hfeed
  · exact absurd rfl (bne_iff_ne.mp (hblanks '\n' hfeed))
  · exact hfeed

/-- The line that an offset stands on ends before the first token behind `pos`, and in no
comment. -/
def LineStopsApart (source : List Char) (hi pos offset : Nat) : Prop :=
  lineStop source hi offset ≤ tokenBehind source pos ∧
    Uncut pos (fillersBehind source pos) (lineStop source hi offset)

instance (source : List Char) (hi pos offset : Nat) :
    Decidable (LineStopsApart source hi pos offset) :=
  inferInstanceAs (Decidable (_ ∧ ∀ k ∈ commentsOf _ _, _))

/-- The end of a comment's line, as a fact about the fillers. -/
theorem behindLine_lineEnds (h : Behind source pos stop more)
    (hlines : ∀ k ∈ commentsOnLine source pos, k.isLine = true →
      LineStopsApart source stop pos k.span.stop) :
    BehindLine (LineEnds more) (fillersBehind source pos) := by
  intro front body fs hfs hfront
  obtain ⟨k, hk, hline, blanks, hblanks, hsize, hbetween⟩ := exists_of_line h hfs hfront
  obtain ⟨hle, huncut⟩ := hlines k hk hline
  obtain ⟨cs, rest, hfills, -⟩ := h.fills
  have hlineStop : lineStop source stop k.span.stop =
      pos + byteSize (fillerText (front ++ [.line body])) +
        byteSize ((fillerText fs ++ more).takeWhile (· != '\n')) := by
    rw [lineStop, hbetween, List.takeWhile_append_of_pos hblanks, byteSize_append, ← hsize]
    omega
  have hsplit : fillersBehind source pos = front ++ [.line body] ++ fs := by simp [hfs]
  rw [tokenBehind, hlineStop, hsplit] at hle
  rw [hlineStop, hsplit] at huncut
  rw [hsplit] at hfills
  have hbehind : Uncut (pos + byteSize (fillerText (front ++ [.line body]))) fs
      (pos + byteSize (fillerText (front ++ [.line body])) +
        byteSize ((fillerText fs ++ more).takeWhile (· != '\n'))) := by
    intro k hk
    refine huncut k ?_
    rw [Script.commentsOf_append]
    exact List.mem_append_right _ hk
  refine exists_of_lineEnd hfills.of_append List.takeWhile_append_dropWhile.symm ?_ ?_ hbehind
  · intro c hc
    have hend := List.head?_dropWhile_not (· != '\n') (fillerText fs ++ more)
    rw [Option.mem_def.mp hc] at hend
    simpa using hend
  · simp only [fillerText_append, byteSize_append] at hle
    omega

end

/-- What is taken along ends with a filler, but for blanks. -/
theorem exists_taken (pos : Nat) {more : List Char} {fs : List Filler}
    (hlines : BehindLine (LineEnds more) fs) : ∃ fs₁ fs₂ taken blanks, fs = fs₁ ++ fs₂ ∧
      fillerText fs₁ = taken ++ blanks ∧ byteSize taken = trailingSize more fs ∧
      (∀ c ∈ blanks, isBlank c = true) ∧
      ∀ k ∈ commentsOf pos fs₁, k.span.stop ≤ pos + trailingSize more fs := by
  have hmark : '/'.utf8Size = 1 ∧ '*'.utf8Size = 1 := by decide
  induction fs generalizing pos with
  | nil => exact ⟨[], [], [], [], rfl, rfl, rfl, by simp, by simp [commentsOf]⟩
  | cons f fs ih =>
    cases f with
    | blank c =>
      by_cases hc : isSpaceOrTab c = true ∧ trailingSize more fs ≠ 0
      · obtain ⟨fs₁, fs₂, taken, blanks, rfl, htext, hsize, hblanks, hstop⟩ :=
          ih (pos + c.utf8Size) (hlines.tail hc.1)
        have hone : c.utf8Size = 1 := by
          have htab := hc.1
          simp only [isSpaceOrTab, Bool.or_eq_true, beq_iff_eq] at htab
          rcases htab with rfl | rfl <;> rfl
        refine ⟨.blank c :: fs₁, fs₂, c :: taken, blanks, rfl, by simp [Filler.chars, htext], ?_,
          hblanks, fun k hk => ?_⟩
        · rw [trailingSize, if_pos hc, byteSize_cons, hsize, hone, Nat.add_comm]
        · have := hstop k hk
          rw [trailingSize, if_pos hc]
          omega
      · refine ⟨[], .blank c :: fs, [], [], rfl, rfl, ?_, by simp, by simp [commentsOf]⟩
        rw [trailingSize, if_neg hc, byteSize_nil]
    | line body =>
      -- all fillers up to the end of the line, and no comment ends with a blank
      obtain ⟨gs, gs', rfl, hgs⟩ := hlines.head
      have htext : '/' :: '/' :: (body ++ (fillerText (gs ++ gs') ++ more).takeWhile (· != '\n')) =
          fillerText (.line body :: gs) := by
        rw [hgs]
        rfl
      obtain ⟨blanks, hblanks⟩ := Text.exists_eq_trimEnd_append (fillerText (.line body :: gs))
      refine ⟨.line body :: gs, gs', _, blanks, rfl, hblanks.1, ?_, hblanks.2, fun k hk => ?_⟩
      · rw [trailingSize, htext]
      · rw [trailingSize, htext]
        exact (Script.le_trimEnd_of_mem_commentsOf hk).2
    | block body =>
      obtain ⟨fs₁, fs₂, taken, blanks, rfl, htext, hsize, hblanks, hstop⟩ :=
        ih (pos + (4 + byteSize body)) (hlines.tail rfl)
      refine ⟨.block body :: fs₁, fs₂, Filler.chars (.block body) ++ taken, blanks, rfl,
        by simp [htext], ?_, hblanks, fun k hk => ?_⟩
      · simp [trailingSize, Filler.chars, hmark, hsize]
        omega
      · rw [trailingSize]
        rcases List.mem_cons.mp hk with rfl | hk
        · dsimp only
          omega
        · have := hstop k hk
          omega

/-- Where what is taken along ends, no comment is cut. -/
theorem uncut_trailingSize (pos : Nat) {more : List Char} {fs : List Filler}
    (hlines : BehindLine (LineEnds more) fs) : Uncut pos fs (pos + trailingSize more fs) := by
  obtain ⟨fs₁, fs₂, taken, blanks, heq, htext, hsize, -, hstop⟩ := exists_taken pos hlines
  have hle : trailingSize more fs ≤ byteSize (fillerText fs₁) := by
    rw [htext, byteSize_append, hsize]
    exact Nat.le_add_right _ _
  have huncut : Uncut pos (fs₁ ++ fs₂) (pos + trailingSize more fs) := by
    refine Script.uncut_append hstop fun k hk => .inr ?_
    have := (Script.within_of_mem_commentsOf hk).1
    omega
  rwa [← heq] at huncut

/-- What is taken along is no longer than the fillers, if the lines of its comments end between
these. -/
theorem trailingSize_le {more : List Char} {fs : List Filler}
    (hlines : BehindLine (LineEnds more) fs) :
    trailingSize more fs ≤ byteSize (fillerText fs) := by
  obtain ⟨fs₁, fs₂, taken, blanks, heq, htext, hsize, -, -⟩ := exists_taken 0 hlines
  have hfs := congrArg fillerText heq
  rw [fillerText_append, htext] at hfs
  rw [hfs, byteSize_append, byteSize_append, hsize]
  omega

/-- What is taken along stays before an offset if each comment up to the end of its line is followed
by a line feed before that. -/
theorem trailingSize_le_of_feed {deco : List Char} (more : List Char) {fs : List Filler}
    (hfeed : BehindLine (fun gs => '\n' ∈ fillerText gs ++ deco) fs) :
    trailingSize (deco ++ more) fs ≤ byteSize (fillerText fs ++ deco) := by
  have hmark : '/'.utf8Size = 1 ∧ '*'.utf8Size = 1 := by decide
  induction fs with
  | nil => exact Nat.zero_le _
  | cons f fs ih =>
    rw [fillerText_cons, List.append_assoc, byteSize_append]
    cases f with
    | blank c =>
      rw [trailingSize]
      split
      · next hc =>
        have := ih (hfeed.tail hc.1)
        have := Char.utf8Size_pos c
        simp only [Filler.chars, byteSize_cons, byteSize_nil]
        omega
      · exact Nat.zero_le _
    | line body =>
      obtain ⟨passed, behind, heq, hpassed⟩ := List.eq_append_cons_of_mem hfeed.head
      have htake : (fillerText fs ++ (deco ++ more)).takeWhile (· != '\n') <+:
          fillerText fs ++ deco := by
        rw [← List.append_assoc, heq, List.append_assoc, List.cons_append,
          takeWhile_of_feed hpassed]
        exact List.prefix_append _ _
      have htrim := Text.byteSize_le_of_sublist (Text.isPrefix_trimEnd
        ('/' :: '/' :: (body ++ (fillerText fs ++ (deco ++ more)).takeWhile (· != '\n')))).sublist
      have hsize := Text.byteSize_le_of_sublist htake.sublist
      simp only [byteSize_cons, byteSize_append] at htrim hsize
      simp only [trailingSize, Filler.chars, byteSize_cons, byteSize_append]
      omega
    | block body =>
      have := ih (hfeed.tail rfl)
      rw [trailingSize]
      simp only [Filler.chars, byteSize_cons, byteSize_append, byteSize_nil, hmark] at this ⊢
      omega

/-! ### Before a statement

In front of a statement the gap is cut at its first line feed, whatever that line feed stands in. As
long as it stands in no comment, what is left starts with a filler, but for blanks. -/

/-- Blanks are passed up to a comment or up to the token behind the fillers. -/
theorem uncut_takeWhile_isBlank (pos : Nat) (fs : List Filler) {deco : List Char}
    (hdeco : ∀ c ∈ deco.head?, isBlank c = false) :
    byteSize ((fillerText fs ++ deco).takeWhile isBlank) ≤ byteSize (fillerText fs) ∧
      Uncut pos fs (pos + byteSize ((fillerText fs ++ deco).takeWhile isBlank)) := by
  -- before a filler that is not passed nothing is cut
  have hstay : ∀ {pos : Nat} {fs : List Filler} {text : List Char}, text.takeWhile isBlank = [] →
      byteSize (text.takeWhile isBlank) ≤ byteSize (fillerText fs) ∧
        Uncut pos fs (pos + byteSize (text.takeWhile isBlank)) := by
    intro pos fs text htext
    rw [htext]
    exact ⟨Nat.zero_le _, fun k hk => .inr (Script.within_of_mem_commentsOf hk).1⟩
  have hslash : isBlank '/' = false := by decide
  induction fs generalizing pos with
  | nil =>
    refine hstay ?_
    cases deco with
    | nil => rfl
    | cons c deco => exact List.takeWhile_cons_of_neg (by simp [hdeco c rfl])
  | cons f fs ih =>
    cases f with
    | blank c =>
      by_cases hc : isBlank c = true
      · obtain ⟨hle, huncut⟩ := ih (pos + c.utf8Size)
        have htext : (fillerText (.blank c :: fs) ++ deco).takeWhile isBlank =
            c :: (fillerText fs ++ deco).takeWhile isBlank :=
          List.takeWhile_cons_of_pos hc
        rw [htext, byteSize_cons, fillerText_cons, Filler.chars, byteSize_append, byteSize_cons,
          byteSize_nil, ← Nat.add_assoc]
        exact ⟨by omega, huncut⟩
      · exact hstay (List.takeWhile_cons_of_neg hc)
    | line body => exact hstay (List.takeWhile_cons_of_neg (by simp [hslash]))
    | block body => exact hstay (List.takeWhile_cons_of_neg (by simp [hslash]))

/-- A gap with a line feed is cut at the first one. -/
theorem leadingPart_of_feed {passed : List Char} (hpassed : '\n' ∉ passed) (behind : List Char) :
    leadingPart false (passed ++ '\n' :: behind) = behind := by
  simp [leadingPart, dropWhile_of_feed hpassed]

/-- A gap without a line feed is left as it is. -/
theorem leadingPart_of_notMem {gap : List Char} (h : '\n' ∉ gap) : leadingPart false gap = gap := by
  simp [leadingPart, h]

/-- There is a blank line before a statement if what stands before it and its comments holds a line
feed behind the first one. -/
theorem mem_takeWhile_leadingPart {gap front : List Char}
    (hgap : gap = front ++ (leadingPart false gap).dropWhile isBlank) :
    '\n' ∈ (leadingPart false gap).takeWhile isBlank ↔
      '\n' ∈ (front.dropWhile (· != '\n')).drop 1 := by
  by_cases hmem : '\n' ∈ gap
  · obtain ⟨passed, behind, rfl, hpassed⟩ := List.eq_append_cons_of_mem hmem
    rw [leadingPart_of_feed hpassed] at hgap ⊢
    have hfront : passed ++ '\n' :: behind.takeWhile isBlank = front := by
      have heq : passed ++ '\n' :: behind.takeWhile isBlank ++ behind.dropWhile isBlank =
          front ++ behind.dropWhile isBlank := by
        rw [← hgap, List.append_assoc, List.cons_append, List.takeWhile_append_dropWhile]
      exact List.append_cancel_right heq
    rw [← hfront, dropWhile_of_feed hpassed]
    rfl
  · rw [leadingPart_of_notMem hmem] at hgap ⊢
    refine iff_of_false (fun h => hmem (List.takeWhile_subset _ h)) fun h => hmem ?_
    rw [hgap]
    exact List.mem_append_left _
      ((List.drop_sublist 1 _).trans (List.dropWhile_sublist _) |>.subset h)

/-- A line feed where the fillers start is the first of them. -/
theorem eq_blank_cons_of_feed {cs rest deco behind : List Char} {fs : List Filler}
    (h : Fills cs fs rest) (hdeco : deco <+: rest) (htext : fillerText fs ++ deco =
      '\n' :: behind) :
    ∃ gs, fs = .blank '\n' :: gs ∧ behind = fillerText gs ++ deco := by
  cases h with
  | nil hno =>
    obtain ⟨last, rfl⟩ := hdeco
    rw [fillerText_nil, List.nil_append] at htext
    have hgap := hno.no_blank '\n' (by rw [htext]; rfl)
    exact absurd hgap (by decide)
  | blank _ h =>
    obtain ⟨rfl, hbehind⟩ := List.cons.inj htext
    exact ⟨_, rfl, hbehind.symm⟩
  | line => cases htext
  | block => cases htext

section

variable {cs rest deco more taken gap : List Char} {fs : List Filler} {pos : Nat} {isFirst : Bool}

/-- What can belong to a statement starts with a filler, but for blanks. -/
theorem exists_leadingPart (h : Fills cs fs rest) (hdeco : deco <+: rest)
    (htext : fillerText fs ++ deco = taken ++ gap)
    (htaken : taken = [] ∨ byteSize taken = trailingSize more fs ∧ BehindLine (LineEnds more) fs)
    (hfeed : isFirst = false → ∀ passed behind, gap = passed ++ '\n' :: behind → '\n' ∉ passed →
      byteSize (taken ++ passed) ≤ byteSize (fillerText fs) ∧
        Uncut pos fs (pos + byteSize (taken ++ passed))) :
    ∃ fs₁ fs₂ blanks, fs = fs₁ ++ fs₂ ∧
      leadingPart isFirst gap = blanks ++ (fillerText fs₂ ++ deco) ∧
      ∀ c ∈ blanks, isBlank c = true := by
  by_cases hcut : isFirst = false ∧ '\n' ∈ gap
  · -- behind the first line feed, which is a filler
    obtain ⟨rfl, hmem⟩ := hcut
    obtain ⟨passed, behind, rfl, hpassed⟩ := List.eq_append_cons_of_mem hmem
    obtain ⟨hle, huncut⟩ := hfeed rfl passed behind rfl hpassed
    rw [← List.append_assoc] at htext
    obtain ⟨fs₁, fs₂, rfl, heq⟩ := exists_of_lineEnd h htext (by simp) hle huncut
    rw [heq, fillerText_append, List.append_assoc] at htext
    obtain ⟨fs₂, rfl, hbehind⟩ :=
      eq_blank_cons_of_feed h.of_append hdeco (List.append_cancel_left htext)
    refine ⟨fs₁ ++ [.blank '\n'], fs₂, [], by simp, ?_, by simp⟩
    rw [leadingPart_of_feed hpassed, hbehind, List.nil_append]
  · have hwhole : leadingPart isFirst gap = gap := by
      unfold leadingPart
      split
      · rfl
      · next hnot =>
        rw [if_neg]
        rw [List.contains_iff_mem]
        exact fun hmem => hcut ⟨by simpa using hnot, hmem⟩
    rw [hwhole]
    rcases htaken with rfl | ⟨hsize, hlines⟩
    · exact ⟨[], fs, [], rfl, htext.symm, by simp⟩
    · obtain ⟨fs₁, fs₂, taken', blanks, rfl, heq, hsize', hblanks, -⟩ := exists_taken pos hlines
      rw [fillerText_append, heq, List.append_assoc, List.append_assoc] at htext
      obtain ⟨rfl, hgap⟩ := Text.append_inj_of_byteSize_eq htext (hsize'.trans hsize.symm)
      exact ⟨fs₁, fs₂, blanks, rfl, hgap.symm, hblanks⟩

/-- Where a statement with its comments starts, no comment is cut, and the first token behind the
statement before is not passed. -/
theorem uncut_lead (h : Fills cs fs rest) (hdeco : deco <+: rest)
    (htext : fillerText fs ++ deco = taken ++ gap)
    (htaken : taken = [] ∨ byteSize taken = trailingSize more fs ∧ BehindLine (LineEnds more) fs)
    (hfeed : isFirst = false → ∀ passed behind, gap = passed ++ '\n' :: behind → '\n' ∉ passed →
      byteSize (taken ++ passed) ≤ byteSize (fillerText fs) ∧
        Uncut pos fs (pos + byteSize (taken ++ passed))) :
    ∃ size, size + byteSize ((leadingPart isFirst gap).dropWhile isBlank) =
      byteSize (taken ++ gap) ∧
      size ≤ byteSize (fillerText fs) ∧ Uncut pos fs (pos + size) := by
  obtain ⟨fs₁, fs₂, blanks, rfl, hleading, hblanks⟩ :=
    exists_leadingPart h hdeco htext htaken hfeed
  have hhead : ∀ c ∈ deco.head?, isBlank c = false := by
    intro c hc
    obtain ⟨last, rfl⟩ := hdeco
    rw [Bool.eq_false_iff]
    intro hblank
    have hgap := h.startsNoFiller.no_blank c (by simp [List.head?_append, Option.mem_def.mp hc])
    rw [Script.isGapChar_of_isBlank hblank] at hgap
    cases hgap
  obtain ⟨hskip, huncut⟩ :=
    uncut_takeWhile_isBlank (pos + byteSize (fillerText fs₁)) fs₂ hhead
  have hsplit := congrArg byteSize
    (List.takeWhile_append_dropWhile (p := isBlank) (l := fillerText fs₂ ++ deco))
  rw [byteSize_append, byteSize_append] at hsplit
  refine ⟨byteSize (fillerText fs₁) + byteSize ((fillerText fs₂ ++ deco).takeWhile isBlank),
    ?_, ?_, ?_⟩
  · rw [hleading, List.dropWhile_append_of_pos hblanks, ← htext, fillerText_append, byteSize_append,
      byteSize_append]
    omega
  · rw [fillerText_append, byteSize_append]
    omega
  · rw [← Nat.add_assoc]
    refine Script.uncut_append (fun k hk => ?_) huncut
    have := (Script.within_of_mem_commentsOf hk).2.2
    omega

end

end VueSetup.Pass
