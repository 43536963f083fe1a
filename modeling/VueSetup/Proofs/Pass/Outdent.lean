import VueSetup.Pass.Setup
import VueSetup.Proofs.Text.Boundary

/-!
# VueSetup.Proofs.Pass.Outdent

What taking the indentation off a statement leaves of a literal in it.

`outdentFrom` does it character by character, and so can be cut where no indentation is being taken
off (`outdentFrom_append`). A literal starts and ends with a quote, where this is so; if all of its
lines but the first are to be kept, it comes out as it went in, between what becomes of the text
before and behind it (`outdent_append`). Which lines are kept is read off the offsets of their line
feeds (`mem_literalLines`).
-/

namespace VueSetup

open Text (byteSize byteSize_append byteSize_cons)

namespace Declaration

open Text (feeds feeds_append feeds_cons feeds_cons_feed)

/-! ### Character by character

The definition works on lines, with their numbers. A state in its place, of the blanks still to be
taken off and of the number of the line, lets the text be cut anywhere. -/

/-- Take the indentation off a text. At most `left` blanks are still to be taken off the line, which
has the number `line`; of the lines behind it `verbatim` tells which ones stay as they are. -/
def outdentFrom (indent : Nat) (verbatim : Nat → Bool) (left line : Nat) : List Char → List Char
  | [] => []
  | c :: cs =>
    if c = '\n' then
      '\n' :: outdentFrom indent verbatim (if verbatim (line + 1) then 0 else indent) (line + 1) cs
    else if left ≠ 0 ∧ Text.isSpaceOrTab c = true then
      outdentFrom indent verbatim (left - 1) line cs
    else c :: outdentFrom indent verbatim 0 line cs

section

variable {indent : Nat} {verbatim : Nat → Bool} {left line : Nat}

/-- With no indentation a line stays as it is. -/
@[simp] theorem outdentLine_zero (l : List Char) : outdentLine 0 l = l := by
  rw [outdentLine]
  intro n c cs h
  cases h

/-- The lines that `outdentFrom` makes of lines. -/
def outdentBehind (indent : Nat) (verbatim : Nat → Bool) (line : Nat) (ls : List (List Char)) :
    List (List Char) :=
  ls.mapIdx fun i l => if verbatim (line + (i + 1)) then l else outdentLine indent l

/-- The first of the lines, and those behind it. -/
theorem outdentBehind_cons (l : List Char) (ls : List (List Char)) :
    outdentBehind indent verbatim line (l :: ls) =
      outdentLine (if verbatim (line + 1) then 0 else indent) l ::
        outdentBehind indent verbatim (line + 1) ls := by
  rw [outdentBehind, List.mapIdx_cons]
  congr 1
  · split <;> simp_all
  · rw [outdentBehind]
    congr 1
    funext i l
    rw [show line + (i + 1 + 1) = line + 1 + (i + 1) by omega]

theorem joinLines_cons_cons (c : Char) (l : List Char) (ls : List (List Char)) :
    Text.joinLines ((c :: l) :: ls) = c :: Text.joinLines (l :: ls) := by
  cases ls <;> rfl

/-- What happens character by character is what happens line by line: of the first line `left`
blanks may go, of each further one the indentation. -/
theorem outdentFrom_eq_joinLines (cs : List Char) {l : List Char} {ls : List (List Char)}
    (h : Text.splitLines cs = l :: ls) : outdentFrom indent verbatim left line cs =
      Text.joinLines (outdentLine left l :: outdentBehind indent verbatim line ls) := by
  induction cs generalizing left line l ls with
  | nil =>
    cases h
    cases left <;> rfl
  | cons c cs ih =>
    obtain ⟨l', ls', hcs⟩ := List.exists_cons_of_ne_nil (Text.splitLines_ne_nil cs)
    rw [Text.splitLines, hcs] at h
    rw [outdentFrom]
    by_cases hc : c = '\n'
    · rw [if_pos hc] at h ⊢
      cases h
      rw [ih hcs, outdentBehind_cons]
      cases left <;> rfl
    · rw [if_neg hc] at h ⊢
      cases h
      by_cases hblank : left ≠ 0 ∧ Text.isSpaceOrTab c = true
      · obtain ⟨n, rfl⟩ := Nat.exists_eq_succ_of_ne_zero hblank.1
        rw [if_pos hblank, ih hcs, outdentLine, if_pos hblank.2]
        rfl
      · have hkept : outdentLine left (c :: l') = c :: l' := by
          cases left with
          | zero => rw [outdentLine_zero]
          | succ n => rw [outdentLine, if_neg fun hb => hblank ⟨Nat.succ_ne_zero n, hb⟩]
        rw [if_neg hblank, ih hcs, hkept, outdentLine_zero, joinLines_cons_cons]

/-- The definition, character by character. Nothing is taken off the first line. -/
theorem toList_outdent (text : String) (indent : Nat) (verbatim : List Nat) :
    (outdent text indent verbatim).toList =
      outdentFrom indent verbatim.contains 0 0 text.toList := by
  obtain ⟨l, ls, h⟩ := List.exists_cons_of_ne_nil (Text.splitLines_ne_nil text.toList)
  rw [outdentFrom_eq_joinLines _ h, outdent, String.toList_ofList, h, outdentLines,
    outdentLine_zero, outdentBehind]
  simp only [Nat.zero_add]

/-! ### Cutting a text

Where the text is cut before a character that is no blank, nothing is left to be taken off in the
second part, so that it may be treated as a text of its own whose lines are numbered on. -/

/-- A text that starts with no blank loses none in front. -/
theorem outdentFrom_left {cs : List Char}
    (h : ∀ c ∈ cs.head?, Text.isSpaceOrTab c = false) :
    outdentFrom indent verbatim left line cs = outdentFrom indent verbatim 0 line cs := by
  cases cs with
  | nil => rfl
  | cons c cs =>
    have hc : Text.isSpaceOrTab c = false := h c rfl
    simp [outdentFrom, hc]

/-- Before a character that is no blank a text can be cut in two. -/
theorem outdentFrom_append (as : List Char) {bs : List Char}
    (h : ∀ c ∈ bs.head?, Text.isSpaceOrTab c = false) :
    outdentFrom indent verbatim left line (as ++ bs) =
      outdentFrom indent verbatim left line as ++
        outdentFrom indent verbatim 0 (line + feeds as) bs := by
  induction as generalizing left line with
  | nil => exact outdentFrom_left h
  | cons c as ih =>
    rw [List.cons_append, outdentFrom, outdentFrom]
    by_cases hc : c = '\n'
    · subst hc
      rw [if_pos rfl, if_pos rfl, ih, feeds_cons_feed, List.cons_append,
        show line + 1 + feeds as = line + (feeds as + 1) by omega]
    · rw [if_neg hc, if_neg hc, feeds_cons hc]
      by_cases hblank : left ≠ 0 ∧ Text.isSpaceOrTab c = true
      · rw [if_pos hblank, if_pos hblank, ih]
      · rw [if_neg hblank, if_neg hblank, ih, List.cons_append]

/-- A text whose lines are all kept comes out as it went in. -/
theorem outdentFrom_of_verbatim {cs : List Char}
    (h : ∀ i, i < feeds cs → verbatim (line + i + 1) = true) :
    outdentFrom indent verbatim 0 line cs = cs := by
  induction cs generalizing line with
  | nil => rfl
  | cons c cs ih =>
    rw [outdentFrom]
    by_cases hc : c = '\n'
    · subst hc
      rw [feeds_cons_feed] at h
      have hfirst : verbatim (line + 1) = true := h 0 (Nat.succ_pos _)
      rw [if_pos rfl, if_pos hfirst, ih]
      intro i hi
      have := h (i + 1) (Nat.succ_lt_succ hi)
      rwa [show line + (i + 1) + 1 = line + 1 + i + 1 by omega] at this
    · rw [feeds_cons hc] at h
      rw [if_neg hc, if_neg (by simp), ih h]

/-- What becomes of a text depends on which of its own lines are kept. -/
theorem outdentFrom_congr {verbatim' : Nat → Bool} {line' : Nat} {cs : List Char}
    (h : ∀ i, i < feeds cs → verbatim (line + i + 1) = verbatim' (line' + i + 1)) :
    outdentFrom indent verbatim left line cs = outdentFrom indent verbatim' left line' cs := by
  induction cs generalizing left line line' with
  | nil => rfl
  | cons c cs ih =>
    rw [outdentFrom, outdentFrom]
    by_cases hc : c = '\n'
    · subst hc
      rw [feeds_cons_feed] at h
      have hfirst : verbatim (line + 1) = verbatim' (line' + 1) := h 0 (Nat.succ_pos _)
      rw [if_pos rfl, if_pos rfl, hfirst, ih]
      intro i hi
      have := h (i + 1) (Nat.succ_lt_succ hi)
      rwa [show line + (i + 1) + 1 = line + 1 + i + 1 by omega,
        show line' + (i + 1) + 1 = line' + 1 + i + 1 by omega] at this
    · rw [feeds_cons hc] at h
      rw [if_neg hc, if_neg hc, ih h, ih h]

end

/-- A part of a text between two characters that are no blanks, with all of its lines but the first
kept, comes out as it went in, and so does what stands before and behind it as if it stood alone. -/
theorem outdent_append {before literal behind : String} {indent : Nat}
    {verbatim front back : List Nat}
    {mark : Char} {body : List Char}
    (hopens : ∀ c ∈ literal.toList.head?, Text.isSpaceOrTab c = false)
    (hcloses : literal.toList = body ++ [mark]) (hmark : Text.isSpaceOrTab mark = false)
    (hfeed : mark ≠ '\n')
    (hfront : ∀ i, i < feeds before.toList → verbatim.contains (i + 1) = front.contains (i + 1))
    (hkept : ∀ i, i < feeds literal.toList →
      verbatim.contains (feeds before.toList + i + 1) = true)
    (hback : ∀ i, i < feeds behind.toList →
      verbatim.contains (feeds before.toList + feeds literal.toList + i + 1) =
        back.contains (i + 1)) :
    outdent (before ++ literal ++ behind) indent verbatim =
      outdent before indent front ++ literal ++ outdent behind indent back := by
  -- The last mark of the literal is cut off with what follows it, as no indentation is being taken
  -- off there.
  have hfeeds : feeds literal.toList = feeds body := by
    rw [hcloses, feeds_append, feeds_cons hfeed, Text.feeds_nil, Nat.add_zero]
  have hhead : ∀ c ∈ (literal.toList ++ behind.toList).head?, Text.isSpaceOrTab c = false := by
    intro c hc
    refine hopens c ?_
    rw [hcloses] at hc ⊢
    cases body <;> exact hc
  have hlast : ∀ c ∈ (mark :: behind.toList).head?, Text.isSpaceOrTab c = false := by
    intro c hc
    cases hc
    exact hmark
  have hbefore : outdentFrom indent verbatim.contains 0 0 before.toList =
      outdentFrom indent front.contains 0 0 before.toList :=
    outdentFrom_congr (by simpa using hfront)
  have hbehind : outdentFrom indent verbatim.contains 0 (feeds before.toList + feeds literal.toList)
      behind.toList = outdentFrom indent back.contains 0 0 behind.toList :=
    outdentFrom_congr (by simpa using hback)
  have hliteral : outdentFrom indent verbatim.contains 0 (feeds before.toList)
      (literal.toList ++ behind.toList) = literal.toList ++
        outdentFrom indent back.contains 0 0 behind.toList := by
    rw [hcloses, List.append_assoc, List.singleton_append, outdentFrom_append body hlast,
      outdentFrom_of_verbatim (by rw [← hfeeds]; exact hkept), outdentFrom, if_neg hfeed,
      if_neg (by simp), ← hfeeds, hbehind]
    simp
  apply String.toList_injective
  rw [toList_outdent, String.toList_append, String.toList_append, List.append_assoc,
    outdentFrom_append _ hhead, Nat.zero_add, hliteral, String.toList_append, String.toList_append,
    toList_outdent, toList_outdent, List.append_assoc, hbefore]

end Declaration

namespace Pass

open Text (feeds feeds_append feeds_cons feeds_cons_feed)

/-! ### Lines inside of literals

The numbers of the lines that are kept are found by a run over the source. They are compared with
offsets here, so that the lines of a stretch can be counted from the start of any part of it. -/

/-- A line feed of a text is its first character, or one of the others. -/
theorem exists_feed_cons {c : Char} {cs : List Char} {P : List Char → Prop} :
    (∃ xs ys, c :: cs = xs ++ '\n' :: ys ∧ P xs) ↔
      (c = '\n' ∧ P []) ∨ ∃ xs ys, cs = xs ++ '\n' :: ys ∧ P (c :: xs) := by
  constructor
  · rintro ⟨xs, ys, h, hp⟩
    cases xs with
    | nil =>
      cases h
      exact .inl ⟨rfl, hp⟩
    | cons x xs =>
      cases h
      exact .inr ⟨xs, ys, rfl, hp⟩
  · rintro (⟨rfl, hp⟩ | ⟨xs, ys, rfl, hp⟩)
    · exact ⟨[], cs, rfl, hp⟩
    · exact ⟨c :: xs, ys, rfl, hp⟩

/-- The run over the source finds a line if the offset behind its line feed lies inside of a
literal. -/
theorem mem_literalLines_go {literals : List Span} {offset line : Nat} {cs : List Char} {i : Nat} :
    i ∈ literalLines.go literals offset line cs ↔ ∃ xs ys, cs = xs ++ '\n' :: ys ∧
      i = line + feeds xs + 1 ∧ Script.isInside literals (offset + byteSize xs + 1) = true := by
  induction cs generalizing offset line with
  | nil => simp [literalLines.go]
  | cons c cs ih =>
    rw [exists_feed_cons, literalLines.go]
    by_cases hc : c = '\n'
    · subst hc
      have hsize : ∀ xs, offset + byteSize ('\n' :: xs) + 1 = offset + 1 + byteSize xs + 1 := by
        intro xs
        rw [byteSize_cons, show ('\n' : Char).utf8Size = 1 from rfl]
        omega
      have hline : ∀ xs, line + feeds ('\n' :: xs) + 1 = line + 1 + feeds xs + 1 := by
        intro xs
        rw [feeds_cons_feed]
        omega
      simp only [hsize, hline, ← ih, if_true]
      split
      · next hinside => simp [hinside]
      · next hinside => simp [hinside]
    · have hsize : ∀ xs, offset + byteSize (c :: xs) + 1 =
        offset + c.utf8Size + byteSize xs + 1 := by
        intro xs
        rw [byteSize_cons]
        omega
      simp only [hsize, feeds_cons hc, ← ih, if_neg hc]
      simp [hc]

/-- A line of a stretch starts inside of a literal if the offset behind the line feed before it lies
there. -/
theorem mem_literalLines {source : List Char} {literals : List Span} {span : Span} {i : Nat} :
    i ∈ literalLines source literals span ↔ ∃ xs ys,
      Text.between source span.start span.stop = xs ++ '\n' :: ys ∧ i = feeds xs + 1 ∧
        Script.isInside literals (span.start + byteSize xs + 1) = true := by
  rw [literalLines, mem_literalLines_go]
  simp only [Nat.zero_add]

section

variable {source : List Char} {literals : List Span} {a b c : Nat}
  (ha : Text.IsBoundary source a) (hb : Text.IsBoundary source b) (hc : Text.IsBoundary source c)
  (hab : a ≤ b) (hbc : b ≤ c)

include ha hb hc hab hbc

/-- The lines of the first part of a stretch. -/
theorem contains_literalLines_front {i : Nat} (hi : i < feeds (Text.between source a b)) :
    (literalLines source literals ⟨a, c⟩).contains (i + 1) =
      (literalLines source literals ⟨a, b⟩).contains (i + 1) := by
  rw [Bool.eq_iff_iff, List.contains_iff_mem, List.contains_iff_mem, mem_literalLines,
    mem_literalLines, Text.between_append ha hb hc hab hbc]
  constructor
  · rintro ⟨xs, ys, htext, hxs, hinside⟩
    obtain ⟨zs, hzs⟩ := Text.append_eq_of_lt_feeds htext (by omega)
    exact ⟨xs, zs, hzs, hxs, hinside⟩
  · rintro ⟨xs, ys, htext, hxs, hinside⟩
    exact ⟨xs, ys ++ Text.between source b c, by rw [htext]; simp, hxs, hinside⟩

/-- The lines of the second part of a stretch. -/
theorem contains_literalLines_back (i : Nat) :
    (literalLines source literals ⟨a, c⟩).contains (feeds (Text.between source a b) + i + 1) =
      (literalLines source literals ⟨b, c⟩).contains (i + 1) := by
  have hsize := Text.byteSize_slice? (Text.slice?_eq_between ha hb hab)
  rw [Bool.eq_iff_iff, List.contains_iff_mem, List.contains_iff_mem, mem_literalLines,
    mem_literalLines, Text.between_append ha hb hc hab hbc]
  have hoffset : ∀ zs, a + byteSize (Text.between source a b ++ zs) + 1 = b + byteSize zs + 1 := by
    intro zs
    rw [byteSize_append]
    omega
  constructor
  · rintro ⟨xs, ys, htext, hxs, hinside⟩
    obtain ⟨zs, rfl, hzs⟩ := Text.append_eq_of_feeds_le htext (by omega)
    rw [feeds_append] at hxs
    rw [hoffset] at hinside
    exact ⟨zs, ys, hzs, by omega, hinside⟩
  · rintro ⟨xs, ys, htext, hxs, hinside⟩
    refine ⟨Text.between source a b ++ xs, ys, by rw [htext]; simp, ?_, ?_⟩
    · rw [feeds_append]
      omega
    · rw [hoffset]
      exact hinside

end

/-- All lines of a literal but the first start inside of it, as it ends with a mark of its own. -/
theorem contains_literalLines_literal {source : List Char} {literals : List Span} {l : Span}
    (hl : l ∈ literals) (hstart : Text.IsBoundary source l.start)
    (hstop : Text.IsBoundary source l.stop) (hle : l.start ≤ l.stop) {body : List Char}
    {mark : Char}
    (htext : Text.between source l.start l.stop = body ++ [mark]) (hmark : mark ≠ '\n') {i : Nat}
    (hi : i < feeds (Text.between source l.start l.stop)) :
    (literalLines source literals l).contains (i + 1) = true := by
  rw [List.contains_iff_mem, mem_literalLines]
  obtain ⟨xs, ys, hxs, rfl⟩ := Text.exists_of_lt_feeds hi
  refine ⟨xs, ys, hxs, rfl, ?_⟩
  have hsize := Text.byteSize_slice? (Text.slice?_eq_between hstart hstop hle)
  have hys : ys ≠ [] := by
    rintro rfl
    rw [hxs] at htext
    have hlast := List.append_inj_right' htext rfl
    cases hlast
    exact hmark rfl
  obtain ⟨y, ys, rfl⟩ := List.exists_cons_of_ne_nil hys
  have hy : 0 < y.utf8Size := y.utf8Size_pos
  rw [hxs, byteSize_append, byteSize_cons, byteSize_cons, show ('\n' : Char).utf8Size = 1 from rfl]
    at hsize
  rw [Script.isInside, List.any_eq_true]
  refine ⟨l, hl, ?_⟩
  simp only [Span.encloses, Bool.and_eq_true, decide_eq_true_eq]
  omega

end Pass

end VueSetup
