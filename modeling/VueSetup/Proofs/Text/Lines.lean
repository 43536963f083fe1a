import VueSetup.Proofs.Text.Boundary
import VueSetup.Text.Lines

/-!
# VueSetup.Proofs.Text.Lines

Lines of a text, each with the offset at which it starts.

`AreLines` says of texts that they are lines one after the other: a line feed ends each of them, and
only the last may do without. Such texts are the lines of what they make up together
(`AreLines.linesWithEnds_flatten`), also when some of them are left out (`AreLines.of_sublist`) and
when each is rewritten (`AreLines.map`).
-/

namespace VueSetup.Text

/-! ### What a line is

A text is a row of lines, each with the line feed that ends it. What is behind the last line feed is
a line as well, unless it is empty. -/

/-- A line with the line feed that ends it. -/
def IsEnded (line : List Char) : Prop :=
  ∃ content, line = content ++ ['\n'] ∧ '\n' ∉ content

/-- A line that the text ends with, without a line feed. -/
def IsOpen (line : List Char) : Prop :=
  line ≠ [] ∧ '\n' ∉ line

/-- An ended line has its line feed. -/
theorem IsEnded.ne_nil {line : List Char} (h : IsEnded line) : line ≠ [] := by
  obtain ⟨content, rfl, -⟩ := h
  exact List.append_ne_nil_of_right_ne_nil _ (List.cons_ne_nil _ _)

/-- It has one only. -/
theorem IsEnded.feeds_eq {line : List Char} (h : IsEnded line) : feeds line = 1 := by
  obtain ⟨content, rfl, hcontent⟩ := h
  rw [feeds_append, feeds, List.count_eq_zero.mpr hcontent]
  rfl

/-- An open line has none. -/
theorem IsOpen.feeds_eq {line : List Char} (h : IsOpen line) : feeds line = 0 :=
  List.count_eq_zero.mpr h.2

/-- What stands on an ended line up to its end. -/
theorem IsEnded.of_append {front rest : List Char} (h : IsEnded (front ++ rest)) (hne : rest ≠ []) :
    IsEnded rest := by
  obtain ⟨content, heq, hcontent⟩ := h
  obtain ⟨own, c, rfl⟩ := (List.eq_nil_or_concat rest).resolve_left hne
  rw [List.concat_eq_append, ← List.append_assoc] at heq
  obtain ⟨rfl, hc⟩ := List.append_inj' heq rfl
  exact ⟨own, by rw [List.concat_eq_append, hc], fun h => hcontent (List.mem_append_right _ h)⟩

/-- A text with a line feed in it holds the line that it starts with. -/
theorem IsEnded.isPrefix {line rest xs ys : List Char} (h : IsEnded line)
    (heq : line ++ rest = xs ++ ys) (hfeed : '\n' ∈ xs) : line <+: xs := by
  rcases List.append_eq_append_iff.mp heq with ⟨more, rfl, -⟩ | ⟨more, rfl, -⟩
  · exact List.prefix_append _ _
  · obtain ⟨content, hline, hcontent⟩ := h
    rcases List.eq_nil_or_concat more with rfl | ⟨front, c, rfl⟩
    · simp
    · rw [List.concat_eq_append, ← List.append_assoc] at hline
      obtain ⟨rfl, -⟩ := List.append_inj' hline rfl
      exact absurd (List.mem_append_left _ hfeed) hcontent

/-- A character before a line feed ends the line no sooner. -/
theorem IsEnded.cons {c : Char} (hc : c ≠ '\n') {line : List Char} (h : IsEnded line) :
    IsEnded (c :: line) := by
  obtain ⟨content, rfl, hcontent⟩ := h
  exact ⟨c :: content, rfl, by simp [hc.symm, hcontent]⟩

theorem IsOpen.cons {c : Char} (hc : c ≠ '\n') {line : List Char} (h : '\n' ∉ line) :
    IsOpen (c :: line) :=
  ⟨List.cons_ne_nil _ _, by simp [hc.symm, h]⟩

/-- An ended line at the head of a text is its first line. -/
theorem linesWithEnds_append {line : List Char} (h : IsEnded line) (cs : List Char) :
    linesWithEnds (line ++ cs) = line :: linesWithEnds cs := by
  obtain ⟨content, rfl, hcontent⟩ := h
  induction content with
  | nil => simp [linesWithEnds]
  | cons c content ih =>
    rw [List.mem_cons, not_or] at hcontent
    rw [List.cons_append, List.cons_append, linesWithEnds, if_neg (Ne.symm hcontent.1),
      ih hcontent.2]

/-- An open line is the only one of its text. -/
theorem linesWithEnds_of_isOpen {line : List Char} (h : IsOpen line) :
    linesWithEnds line = [line] := by
  induction line with
  | nil => exact absurd rfl h.1
  | cons c cs ih =>
    have hfeed := h.2
    rw [List.mem_cons, not_or] at hfeed
    rw [linesWithEnds, if_neg (Ne.symm hfeed.1)]
    by_cases hcs : cs = []
    · rw [hcs]
      rfl
    · rw [ih ⟨hcs, hfeed.2⟩]

/-! ### Lines one after the other

Lines are worked on as a list, some are left out and others are rewritten. That the result has just
these lines again is what keeps a second run from seeing others. -/

/-- The texts are lines, of which only the last may be open. -/
inductive AreLines : List (List Char) → Prop where
  | nil : AreLines []
  | last {line : List Char} : IsOpen line → AreLines [line]
  | cons {line : List Char} {rest : List (List Char)} :
    IsEnded line → AreLines rest → AreLines (line :: rest)

/-- The lines of a text are of this kind. -/
theorem areLines_linesWithEnds (cs : List Char) : AreLines (linesWithEnds cs) := by
  induction cs with
  | nil => exact .nil
  | cons c cs ih =>
    rw [linesWithEnds]
    split
    · next hc =>
      subst hc
      exact .cons ⟨[], rfl, List.not_mem_nil⟩ ih
    · next hc =>
      split
      · exact .last (.cons hc List.not_mem_nil)
      · next line rest hlines =>
        rw [hlines] at ih
        cases ih with
        | last hopen => exact .last (.cons hc hopen.2)
        | cons hended hrest => exact .cons (hended.cons hc) hrest

namespace AreLines

variable {ls : List (List Char)}

/-- Lines are found again in the text that they make up. -/
theorem linesWithEnds_flatten (h : AreLines ls) : linesWithEnds ls.flatten = ls := by
  induction h with
  | nil => rfl
  | last hopen => simpa using linesWithEnds_of_isOpen hopen
  | cons hended _ ih => rw [List.flatten_cons, linesWithEnds_append hended, ih]

/-- Whatever lines are left out, the others are lines still: the last one may be open, the others
are not. -/
theorem of_sublist {ks : List (List Char)} (h : AreLines ls) (hsub : ks.Sublist ls) :
    AreLines ks := by
  induction h generalizing ks with
  | nil =>
    rw [List.sublist_nil.mp hsub]
    exact .nil
  | last hopen =>
    cases hsub with
    | cons _ hsub =>
      rw [List.sublist_nil.mp hsub]
      exact .nil
    | cons_cons _ hsub =>
      rw [List.sublist_nil.mp hsub]
      exact .last hopen
  | cons hended _ ih =>
    cases hsub with
    | cons _ hsub => exact ih hsub
    | cons_cons _ hsub => exact .cons hended (ih hsub)

/-- Each line may be rewritten, as long as a line that ends does so afterwards. -/
theorem map {α : Type} {text text' : α → List Char} {ys : List α} (h : AreLines (ys.map text))
    (hended : ∀ y ∈ ys, IsEnded (text y) → IsEnded (text' y))
    (hopen : ∀ y ∈ ys, IsOpen (text y) → IsEnded (text' y) ∨ IsOpen (text' y)) :
    AreLines (ys.map text') := by
  induction ys with
  | nil => exact .nil
  | cons y ys ih =>
    rw [List.map_cons] at h ⊢
    generalize hrest : ys.map text = rest at h
    cases h with
    | last hline =>
      rw [List.map_eq_nil_iff.mp hrest]
      rcases hopen y List.mem_cons_self hline with hline | hline
      · exact .cons hline .nil
      · exact .last hline
    | cons hline hlines =>
      refine .cons (hended y List.mem_cons_self hline) (ih (hrest ▸ hlines) ?_ ?_)
      · exact fun y hy => hended y (List.mem_cons_of_mem _ hy)
      · exact fun y hy => hopen y (List.mem_cons_of_mem _ hy)

/-- A line among others: it ends, or it is the last one. -/
theorem ended_or_last {as bs : List (List Char)} {line : List Char}
    (h : AreLines (as ++ line :: bs)) : IsEnded line ∨ bs = [] ∧ IsOpen line := by
  have hrest := h.of_sublist (List.sublist_append_right as (line :: bs))
  cases hrest with
  | last hopen => exact .inr ⟨rfl, hopen⟩
  | cons hended _ => exact .inl hended

end AreLines

/-! ### Lines at their places

Lines are told apart by where they start. The places are made from the front on, so that the lines
of a text in two parts are those of the first part, and then those of the second from its start on.
-/

/-- A line of a text, by the offset at which it starts. -/
structure Line where
  start : Nat
  text : List Char
  deriving DecidableEq, Repr

namespace Line

/-- Where the line ends, behind its line feed. -/
def stop (line : Line) : Nat :=
  line.start + byteSize line.text

/-- The line with more text before it. -/
def shift (n : Nat) (line : Line) : Line :=
  { line with start := n + line.start }

@[simp] theorem stop_shift (n : Nat) (line : Line) : (line.shift n).stop = n + line.stop :=
  Nat.add_assoc n line.start (byteSize line.text)

/-- Lines one after the other from an offset on. -/
def placed (start : Nat) : List (List Char) → List Line
  | [] => []
  | text :: rest => ⟨start, text⟩ :: placed (start + byteSize text) rest

/-- The lines of a text. -/
def ofText (cs : List Char) : List Line :=
  placed 0 (linesWithEnds cs)

/-- Placing lines leaves their texts. -/
@[simp] theorem map_text_placed (n : Nat) (ls : List (List Char)) :
    (placed n ls).map text = ls := by
  induction ls generalizing n with
  | nil => rfl
  | cons line ls ih => rw [placed, List.map_cons, ih]

@[simp] theorem length_placed (n : Nat) (ls : List (List Char)) : (placed n ls).length =
    ls.length := by
  rw [← List.length_map (f := text), map_text_placed]

@[simp] theorem flatMap_text_placed (n : Nat) (ls : List (List Char)) :
    (placed n ls).flatMap text = ls.flatten := by
  rw [List.flatMap_def, map_text_placed]

/-- The lines make up the text. -/
theorem flatMap_text_ofText (cs : List Char) : (ofText cs).flatMap text = cs := by
  rw [ofText, flatMap_text_placed, flatten_linesWithEnds]

/-- The second group starts behind the first. -/
theorem placed_append (n : Nat) (as bs : List (List Char)) :
    placed n (as ++ bs) = placed n as ++ placed (n + byteSize as.flatten) bs := by
  induction as generalizing n with
  | nil => simp [placed]
  | cons a as ih => simp [placed, ih, Nat.add_assoc]

/-- A text before them moves all lines by its size. -/
theorem placed_add (n m : Nat) (ls : List (List Char)) :
    placed (n + m) ls = (placed m ls).map (shift n) := by
  induction ls generalizing m with
  | nil => rfl
  | cons line ls ih =>
    rw [placed, placed, List.map_cons, Nat.add_assoc, ih]
    rfl

/-- A placed line lies between the start and the end of all. -/
theorem mem_placed_bounds {n : Nat} {ls : List (List Char)} {line : Line}
    (h : line ∈ placed n ls) : n ≤ line.start ∧ line.stop ≤ n + byteSize ls.flatten := by
  induction ls generalizing n with
  | nil => cases h
  | cons first ls ih =>
    rw [List.flatten_cons, byteSize_append]
    rcases List.mem_cons.mp h with rfl | h
    · exact ⟨Nat.le_refl _, by simp only [stop]; omega⟩
    · have hrest := ih h
      omega

/-- Lines of a text in two groups: the second starts where the first ends. -/
theorem eq_placed_of_append {n : Nat} {ls : List (List Char)} {as bs : List Line}
    (h : placed n ls = as ++ bs) : as = placed n (as.map text) ∧
      bs = placed (n + byteSize (as.flatMap text)) (bs.map text) := by
  have hls : ls = as.map text ++ bs.map text := by rw [← List.map_append, ← h, map_text_placed]
  rw [hls, placed_append, ← List.flatMap_def] at h
  have hlength : (placed n (as.map text)).length = as.length := by
    rw [length_placed, List.length_map]
  obtain ⟨has, hbs⟩ := List.append_inj h hlength
  exact ⟨has.symm, hbs.symm⟩

/-- A line among those of a text: what stands before and behind it, and where it starts. -/
theorem ofText_eq_append {cs : List Char} {as bs : List Line} {line : Line}
    (h : ofText cs = as ++ line :: bs) :
    cs = as.flatMap text ++ line.text ++ bs.flatMap text ∧
      line.start = byteSize (as.flatMap text) ∧
      (IsEnded line.text ∨ bs = [] ∧ IsOpen line.text) := by
  have hcs := flatMap_text_ofText cs
  have hstart := (eq_placed_of_append h).2
  have hlines := areLines_linesWithEnds cs
  rw [← map_text_placed 0 (linesWithEnds cs), ← ofText, h, List.map_append, List.map_cons] at hlines
  rw [h] at hcs
  refine ⟨by simpa using hcs.symm, ?_, ?_⟩
  · rw [List.map_cons, placed, List.cons.injEq, Nat.zero_add] at hstart
    exact congrArg start hstart.1
  · simpa using hlines.ended_or_last

/-- No line is empty. -/
theorem text_ne_nil {cs : List Char} {line : Line} (h : line ∈ ofText cs) : line.text ≠ [] := by
  obtain ⟨as, bs, hlines⟩ := List.append_of_mem h
  rcases (ofText_eq_append hlines).2.2 with hended | ⟨-, hopen⟩
  · exact hended.ne_nil
  · exact hopen.1

/-- A line has one line feed at most. -/
theorem feeds_text_le {cs : List Char} {line : Line} (h : line ∈ ofText cs) :
    feeds line.text ≤ 1 := by
  obtain ⟨as, bs, hlines⟩ := List.append_of_mem h
  rcases (ofText_eq_append hlines).2.2 with hended | ⟨-, hopen⟩
  · exact Nat.le_of_eq hended.feeds_eq
  · exact Nat.le_trans (Nat.le_of_eq hopen.feeds_eq) (Nat.zero_le 1)

/-- A line takes at least one byte. -/
theorem start_lt_stop {cs : List Char} {line : Line} (h : line ∈ ofText cs) :
    line.start < line.stop :=
  Nat.lt_add_of_pos_right
    (Nat.pos_of_ne_zero fun hsize => text_ne_nil h (eq_nil_of_byteSize_eq_zero hsize))

/-- The lines behind another one start where that one ends or later. -/
theorem stop_le_start {cs : List Char} {as bs : List Line} {line next : Line}
    (h : ofText cs = as ++ line :: bs) (hnext : next ∈ bs) : line.stop ≤ next.start := by
  have hstart := (ofText_eq_append h).2.1
  rw [List.append_cons] at h
  have hbs := (eq_placed_of_append h).2
  rw [hbs] at hnext
  have hbound := (mem_placed_bounds hnext).1
  rwa [Nat.zero_add, List.flatMap_append, List.flatMap_singleton, byteSize_append, ← hstart]
    at hbound

/-- A line does not end before it starts. -/
theorem start_le_stop (line : Line) : line.start ≤ line.stop :=
  Nat.le_add_right _ _

/-- Where a test of lines fails that no later line passes before, it fails from there on. -/
theorem eq_false_of_mem_dropWhile {cs : List Char} {as bs : List Line} {p : Line → Bool}
    (h : ofText cs = as ++ bs)
    (hp : ∀ line next : Line, line.stop ≤ next.start → p next = true → p line = true)
    {line : Line} (hline : line ∈ bs.dropWhile p) : p line = false := by
  have hfirst := List.head?_dropWhile_not p bs
  cases hrest : bs.dropWhile p with
  | nil =>
    rw [hrest] at hline
    cases hline
  | cons first rest =>
    rw [hrest] at hline hfirst
    have hfirst : p first = false := hfirst
    rcases List.mem_cons.mp hline with rfl | hline
    · exact hfirst
    · rw [← List.takeWhile_append_dropWhile (p := p) (l := bs), hrest, ← List.append_assoc] at h
      rw [Bool.eq_false_iff]
      intro hpasses
      rw [hp first line (stop_le_start h hline) hpasses] at hfirst
      cases hfirst

/-- Without the lines that end before an offset, the others end behind it. -/
theorem lt_stop_of_mem_dropWhile {cs : List Char} {as bs : List Line} {n : Nat}
    (h : ofText cs = as ++ bs) {line : Line} (hline : line ∈ bs.dropWhile (·.stop ≤ n)) :
    n < line.stop := by
  have hfails := eq_false_of_mem_dropWhile h (fun line next hle hpasses => ?_) hline
  · simpa using hfails
  · have hnext := next.start_le_stop
    simp only [decide_eq_true_eq] at hpasses ⊢
    omega

/-- Without the lines that start before an offset, the others start behind it. -/
theorem le_start_of_mem_dropWhile {cs : List Char} {as bs : List Line} {n : Nat}
    (h : ofText cs = as ++ bs) {line : Line} (hline : line ∈ bs.dropWhile (·.start < n)) :
    n ≤ line.start := by
  have hfails := eq_false_of_mem_dropWhile h (fun line next hle hpasses => ?_) hline
  · simpa using hfails
  · have hline := line.start_le_stop
    simp only [decide_eq_true_eq] at hpasses ⊢
    omega

/-- The line behind another one starts where that one ends. -/
theorem start_eq_stop {cs : List Char} {as bs : List Line} {line next : Line}
    (h : ofText cs = as ++ line :: next :: bs) : next.start = line.stop := by
  have hline := (ofText_eq_append h).2.1
  rw [List.append_cons] at h
  have hnext := (ofText_eq_append h).2.1
  rw [hnext, List.flatMap_append, List.flatMap_singleton, byteSize_append, ← hline, stop]

end Line

end VueSetup.Text
