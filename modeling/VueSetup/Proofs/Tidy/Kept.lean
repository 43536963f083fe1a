import Mathlib.Data.List.Basic
import Mathlib.Data.List.Destutter
import Mathlib.Data.List.TakeWhile
import VueSetup.Proofs.Script.Scan
import VueSetup.Proofs.Text.Lines
import VueSetup.Tidy

/-!
# VueSetup.Proofs.Tidy.Kept

The lines that tidying keeps, and what it writes for each (`Tidy.exists_tidied`).

Lines are told apart by the literals that they have a part in, not by where they start and end. The
two agree as long as each literal starts with a quote and holds a line feed (`isLiteralLine_eq`). Of
the lines those stay that are left when each blank one behind another is dropped, and at the end of
the text one more blank line may go. No more than that goes, because the last line that is not blank
holds a character that no line break has (`Firm`).
-/

namespace VueSetup

open Text (Line byteSize feeds)

/-- The line and the stretch have some text in common. -/
def Text.Line.meets (line : Line) (span : Span) : Bool :=
  span.start < line.stop && line.start < span.stop

/-- The stretch is a text in quotes that goes over several lines. -/
def Script.IsMultiline (cs : List Char) (span : Span) : Prop :=
  ∃ literal, Text.slice? cs span.start span.stop = some literal ∧ '\n' ∈ literal ∧
    (∃ quote ∈ literal.head?, isQuote quote = true) ∧
    ∃ quote ∈ literal.getLast?, isQuote quote = true

/-- A text with a literal in it is not empty. -/
theorem Script.IsMultiline.ne_nil {cs : List Char} {span : Span} (h : Script.IsMultiline cs span) :
    cs ≠ [] := by
  obtain ⟨literal, hslice, hfeed, -⟩ := h
  obtain ⟨before, behind, rfl, -, -⟩ := Text.slice?_eq_some_iff.mp hslice
  have hmem : '\n' ∈ before ++ literal ++ behind := by simp [hfeed]
  exact List.ne_nil_of_mem hmem

namespace Tidy

/-! ### Lines

The kinds of lines decide what is written. A line of a literal is never blank, even if there is
nothing to be seen on it. -/

/-- What a line is to the one who tidies it. -/
inductive LineKind where
  /-- It has a part in a literal over several lines. -/
  | literal
  /-- There is nothing but white space on it. -/
  | blank
  | plain
  deriving DecidableEq, Repr

/-- What a line is in a text with the given literals. -/
def kind (literals : List Span) (line : Line) : LineKind :=
  if literals.any line.meets then .literal
  else if Text.isBlankText line.text then .blank
  else .plain

/-- What is written for a line that is kept. -/
def written (literals : List Span) (ending : List Char) (line : Line) : List Char :=
  match kind literals line with
  | .literal => line.text
  | .blank => ending
  | .plain => lineContent line.text ++ ending

/-- The lines are not both blank. -/
def Parted (literals : List Span) (a b : Line) : Prop :=
  ¬ (kind literals a = .blank ∧ kind literals b = .blank)

instance (literals : List Span) : DecidableRel (Parted literals) :=
  fun _ _ => instDecidableNot

/-- Whether lines are parted depends on what kinds of lines they are. -/
theorem isChain_parted_iff {literals : List Span} {ls : List Line} :
    ls.IsChain (Parted literals) ↔
      (ls.map (kind literals)).IsChain fun a b => ¬ (a = .blank ∧ b = .blank) :=
  (List.isChain_map (R := fun a b : LineKind => ¬ (a = .blank ∧ b = .blank))
    (kind literals)).symm

/-- The lines without the blank ones that stand behind a blank one. -/
def collapsed (literals : List Span) (ls : List Line) : List Line :=
  ls.destutter (Parted literals)

/-- The lines that are neither blank nor dropped. -/
def solid (literals : List Span) (ls : List Line) : List Line :=
  ls.filter (kind literals · ≠ .blank)

/-- Of the lines of a text all are kept but blank ones: those behind another one, and at most one
more at the end. -/
structure Tidied (literals : List Span) (ls kept : List Line) : Prop where
  sublist : kept.Sublist ls
  solid_eq : solid literals kept = solid literals ls
  parted : kept.IsChain (Parted literals)
  isPrefix : kept <+: collapsed literals ls

variable {literals : List Span} {ending : List Char}

/-- A line of a literal is written as it is. -/
theorem written_of_literal {line : Line} (h : kind literals line = .literal) :
    written literals ending line = line.text := by
  rw [written, h]

/-- A blank line is written as a line break. -/
theorem written_of_blank {line : Line} (h : kind literals line = .blank) :
    written literals ending line = ending := by
  rw [written, h]

/-- A plain line is written with its content and a line break. -/
theorem written_of_plain {line : Line} (h : kind literals line = .plain) :
    written literals ending line = lineContent line.text ++ ending := by
  rw [written, h]

/-- A line is one of a literal if it meets one. -/
theorem kind_eq_literal_iff {line : Line} :
    kind literals line = .literal ↔ ∃ l ∈ literals, line.meets l = true := by
  rw [← List.any_eq_true, kind]
  split
  · next h => simp [h]
  · next h => split <;> simp [h]

/-- There is white space on a blank line only. -/
theorem isBlankText_of_blank {line : Line} (h : kind literals line = .blank) :
    Text.isBlankText line.text = true := by
  rw [kind] at h
  split at h
  · cases h
  · split at h
    · next hblank => exact hblank
    · cases h

/-- There is something else on a plain line. -/
theorem isBlankText_of_plain {line : Line} (h : kind literals line = .plain) :
    Text.isBlankText line.text = false := by
  rw [kind] at h
  split at h
  · cases h
  · split at h
    · cases h
    · next hblank => exact Bool.eq_false_iff.mpr hblank

/-! ### Contents

The content of a line ends before its white space. It is what is kept of a plain line, and the line
break behind it is written anew. -/

/-- What is trimmed off the end of a text leaves nothing, or a character that stays. -/
theorem dropEndWhile_cases (p : Char → Bool) (cs : List Char) :
    (Text.dropEndWhile p cs = [] ∧ cs.all p = true) ∨
      ∃ front c, Text.dropEndWhile p cs = front ++ [c] ∧ p c = false := by
  rw [Text.dropEndWhile]
  cases h : cs.reverse.dropWhile p with
  | nil =>
    refine .inl ⟨rfl, ?_⟩
    rw [List.all_eq_true]
    exact fun c hc => List.dropWhile_eq_nil_iff.mp h c (List.mem_reverse.mpr hc)
  | cons c rest =>
    have hc := List.head?_dropWhile_not p cs.reverse
    rw [h] at hc
    exact .inr ⟨rest.reverse, c, by simp, by simpa using hc⟩

/-- What ends a line is blank. -/
theorem isBlank_of_endsLine {c : Char} (h : (c == '\r' || c == '\n') = true) :
    Text.isBlank c = true := by
  simp only [Bool.or_eq_true, beq_iff_eq] at h
  rcases h with rfl | rfl <;> decide

/-- A line that is not blank has a content, and the content ends with a character of its own. -/
theorem exists_lineContent {line : List Char} (h : Text.isBlankText line = false) :
    ∃ front c, lineContent line = front ++ [c] ∧ c ≠ '\r' ∧ c ≠ '\n' := by
  rcases dropEndWhile_cases (fun c => c == '\r' || c == '\n') line with ⟨-, hall⟩ |
    ⟨front, c, heq, hc⟩
  · rw [List.all_eq_true] at hall
    have hblank : Text.isBlankText line = true :=
      List.all_eq_true.mpr fun c hc => isBlank_of_endsLine (hall c hc)
    rw [hblank] at h
    cases h
  · rw [Bool.or_eq_false_iff, beq_eq_false_iff_ne, beq_eq_false_iff_ne] at hc
    exact ⟨front, c, heq, hc⟩

/-- Behind the content stands what ends the line. -/
theorem exists_eq_lineContent_append (line : List Char) : ∃ rest, line = lineContent line ++ rest ∧
    ∀ c ∈ rest, (c == '\r' || c == '\n') = true := by
  refine ⟨(line.reverse.takeWhile fun c => c == '\r' || c == '\n').reverse, ?_, fun c hc => ?_⟩
  · rw [lineContent, Text.dropEndWhile, ← List.reverse_append, List.takeWhile_append_dropWhile,
      List.reverse_reverse]
  · exact List.all_eq_true.mp List.all_takeWhile c (List.mem_reverse.mp hc)

/-- A line break has no part in the content. -/
theorem lineContent_append (line : List Char) {rest : List Char}
    (h : ∀ c ∈ rest, (c == '\r' || c == '\n') = true) :
    lineContent (line ++ rest) = lineContent line := by
  rw [lineContent, Text.dropEndWhile, List.reverse_append, List.dropWhile_append_of_pos]
  · rfl
  · exact fun c hc => h c (List.mem_reverse.mp hc)

/-- What ends a line has no part in whether it is blank. -/
theorem isBlankText_lineContent (line : List Char) :
    Text.isBlankText (lineContent line) = Text.isBlankText line := by
  obtain ⟨rest, hsplit, hrest⟩ := exists_eq_lineContent_append line
  have hblank : rest.all Text.isBlank = true :=
    List.all_eq_true.mpr fun c hc => isBlank_of_endsLine (hrest c hc)
  conv_rhs => rw [hsplit]
  rw [Text.isBlankText, Text.isBlankText, List.all_append, hblank, Bool.and_true]

/-! ### Lines of literals

The loop asks of the two ends of a line whether they lie inside of a literal. That this finds every
line on which a literal has a part rests on what literals look like. -/

/-- A quote ends no line. -/
theorem ne_feed_of_isQuote {c : Char} (h : Script.isQuote c = true) : c ≠ '\n' ∧ c ≠ '\r' := by
  simp only [Script.isQuote, Bool.or_eq_true, beq_iff_eq] at h
  rcases h with (rfl | rfl) | rfl <;> decide

/-- What the loop asks of a line. -/
theorem isLiteralLine_iff {start : Nat} {line : List Char} :
    isLiteralLine literals start line = true ↔ ∃ l ∈ literals, l.encloses start = true ∨
      line.getLast? = some '\n' ∧ l.encloses (start + byteSize line - 1) = true := by
  simp only [isLiteralLine, Script.isInside, Bool.or_eq_true, Bool.and_eq_true, List.any_eq_true,
    beq_iff_eq]
  constructor
  · rintro (⟨l, hl, h⟩ | ⟨hlast, l, hl, h⟩)
    · exact ⟨l, hl, .inl h⟩
    · exact ⟨l, hl, .inr ⟨hlast, h⟩⟩
  · rintro ⟨l, hl, h | ⟨hlast, h⟩⟩
    · exact .inl ⟨l, hl, h⟩
    · exact .inr ⟨hlast, l, hl, h⟩

/-- A literal that starts on a line goes on behind the line feed that ends it: it starts with a
quote, and there is no line feed in it before that one. -/
theorem encloses_of_starts {cs : List Char} {line : Line} {l : Span} (hl : Script.IsMultiline cs l)
    (hline : line ∈ Line.ofText cs) (hle : line.start ≤ l.start) (hlt : l.start < line.stop) :
    line.text.getLast? = some '\n' ∧ l.encloses (line.stop - 1) = true := by
  obtain ⟨literal, hslice, hfeed, ⟨quote, hquote, hisQuote⟩, -⟩ := hl
  obtain ⟨before, behind, hcs, hbefore, hsize⟩ := Text.slice?_eq_some_iff.mp hslice
  obtain ⟨as, bs, hlines⟩ := List.append_of_mem hline
  obtain ⟨hparts, hstart, hends⟩ := Line.ofText_eq_append hlines
  -- the line up to the literal, and from there on
  rw [hparts, List.append_assoc, List.append_assoc] at hcs
  obtain ⟨front, rfl, hrest⟩ := Text.append_eq_append_of_byteSize_le hcs (by omega)
  rw [Text.byteSize_append] at hbefore
  rw [Line.stop] at hlt ⊢
  obtain ⟨own, hown, hrest⟩ := Text.append_eq_append_of_byteSize_le hrest.symm (by omega)
  have hne : own ≠ [] := by
    rintro rfl
    rw [hown, List.append_nil] at hlt
    omega
  rw [hown] at hends ⊢
  rcases hends with hended | ⟨rfl, hopen⟩
  · obtain ⟨more, rfl⟩ := (hended.of_append hne).isPrefix hrest.symm hfeed
    obtain ⟨content, rfl, -⟩ := hended.of_append hne
    obtain ⟨content, rfl⟩ : ∃ rest, content = quote :: rest := by
      cases content with
      | nil =>
        cases hquote
        exact absurd rfl (ne_feed_of_isQuote hisQuote).1
      | cons c rest =>
        cases hquote
        exact ⟨rest, rfl⟩
    have hquoteSize := Script.utf8Size_of_isQuote hisQuote
    have hfeedSize : '\n'.utf8Size = 1 := rfl
    refine ⟨by rw [← List.append_assoc, List.getLast?_concat], ?_⟩
    simp only [Span.encloses, Bool.and_eq_true, decide_eq_true_eq, Text.byteSize_append,
      Text.byteSize_cons, Text.byteSize_nil] at hsize ⊢
    omega
  · rw [List.flatMap_nil, List.append_nil] at hrest
    refine absurd (List.mem_append_right front ?_) hopen.2
    rw [← hrest]
    exact List.mem_append_left _ hfeed

/-- A line starts or ends inside of a literal exactly if it has a part in it. -/
theorem isLiteralLine_eq {cs : List Char} (h : ∀ l ∈ literals, Script.IsMultiline cs l)
    {line : Line}
    (hline : line ∈ Line.ofText cs) :
    isLiteralLine literals line.start line.text = literals.any line.meets := by
  have hpos := Line.start_lt_stop hline
  rw [Bool.eq_iff_iff, isLiteralLine_iff, List.any_eq_true]
  simp only [Text.Line.meets, Bool.and_eq_true, decide_eq_true_eq]
  constructor
  · rintro ⟨l, hl, henclosed | ⟨-, henclosed⟩⟩
    · simp only [Span.encloses, Bool.and_eq_true, decide_eq_true_eq] at henclosed
      exact ⟨l, hl, by omega⟩
    · rw [← Line.stop] at henclosed
      simp only [Span.encloses, Bool.and_eq_true, decide_eq_true_eq] at henclosed
      exact ⟨l, hl, by omega⟩
  · rintro ⟨l, hl, hstart, hstop⟩
    refine ⟨l, hl, ?_⟩
    by_cases hbefore : l.start < line.start
    · simp [Span.encloses, hbefore, hstop]
    · exact .inr (encloses_of_starts (h l hl) hline (Nat.le_of_not_lt hbefore) hstart)

/-! ### The loop over the lines

The loop keeps in mind whether a blank line was the last one. In terms of lines, it drops a blank
one behind a blank one, which is what `List.destutter` does. -/

/-- A line that is kept is written, and the loop goes on behind it. -/
theorem lines_cons {n : Nat} {blank : Bool} {line : List Char} {rest : List (List Char)}
    (hline : isLiteralLine literals n line = literals.any (Line.mk n line).meets)
    (hparted : blank = true → kind literals ⟨n, line⟩ ≠ .blank) :
    lines literals ending n blank (line :: rest) = written literals ending ⟨n, line⟩ ++
      lines literals ending (n + byteSize line) (kind literals ⟨n, line⟩ == .blank) rest := by
  rw [lines]
  dsimp only
  rw [hline, isBlankText_lineContent]
  rw [kind] at hparted
  rw [written, kind]
  split
  · rfl
  · next hnone =>
    rw [if_neg hnone] at hparted
    split
    · next hblank =>
      rw [if_pos hblank] at hparted
      rw [if_neg fun h => hparted h rfl]
      rfl
    · rfl

/-- A blank line behind a blank one is passed over. -/
theorem lines_skip (n : Nat) (line : List Char) {rest : List (List Char)}
    (hline : isLiteralLine literals n line = literals.any (Line.mk n line).meets)
    (hblank : kind literals ⟨n, line⟩ = .blank) :
    lines literals ending n true (line :: rest) =
      lines literals ending (n + byteSize line) true rest := by
  rw [lines]
  dsimp only
  rw [hline, isBlankText_lineContent]
  rw [kind] at hblank
  split
  · next hsome =>
    rw [if_pos hsome] at hblank
    cases hblank
  · next hnone =>
    rw [if_neg hnone] at hblank
    split
    · rfl
    · next hplain =>
      rw [if_neg hplain] at hblank
      cases hblank

/-- The lines behind one that was kept. -/
theorem written_append_lines {n : Nat} {ls : List (List Char)}
    (h : ∀ line ∈ Line.placed n ls,
      isLiteralLine literals line.start line.text = literals.any line.meets) (last : Line) :
    written literals ending last ++ lines literals ending n (kind literals last == .blank) ls =
      ((Line.placed n ls).destutter' (Parted literals) last).flatMap (written literals ending) := by
  induction ls generalizing n last with
  | nil => simp [lines, Line.placed]
  | cons line ls ih =>
    have hline := h ⟨n, line⟩ List.mem_cons_self
    have hrest : ∀ line' ∈ Line.placed (n + byteSize line) ls,
        isLiteralLine literals line'.start line'.text = literals.any line'.meets :=
      fun line' hline' => h line' (List.mem_cons_of_mem _ hline')
    rw [Line.placed, List.destutter'_cons]
    split
    · next hparted =>
      rw [lines_cons hline, ih hrest, List.flatMap_cons]
      intro hblank hkind
      exact hparted ⟨by simpa using hblank, hkind⟩
    · next hblank =>
      obtain ⟨hlast, hkind⟩ := Decidable.not_not.mp hblank
      have hsame := ih hrest last
      rw [hlast, beq_self_eq_true LineKind.blank] at hsame ⊢
      rwa [lines_skip n line hline hkind]

/-- What the loop writes is what is written for the lines that it keeps. -/
theorem lines_eq {n : Nat} {ls : List (List Char)}
    (h : ∀ line ∈ Line.placed n ls,
      isLiteralLine literals line.start line.text = literals.any line.meets) :
    lines literals ending n false ls =
      (collapsed literals (Line.placed n ls)).flatMap (written literals ending) := by
  cases ls with
  | nil => rfl
  | cons line ls =>
    rw [lines_cons (h ⟨n, line⟩ List.mem_cons_self) (fun hfalse => by cases hfalse),
      written_append_lines fun line' hline' => h line' (List.mem_cons_of_mem _ hline')]
    rfl

/-! ### Dropping blank lines

Nothing is dropped but blank lines, and no two blank lines are left together. -/

/-- The lines that are not blank, in two parts. -/
theorem solid_append (as bs : List Line) :
    solid literals (as ++ bs) = solid literals as ++ solid literals bs :=
  List.filter_append as bs

/-- Whatever the line before is, only blank lines are dropped. -/
theorem solid_destutter' (last : Line) (ls : List Line) :
    solid literals (ls.destutter' (Parted literals) last) = solid literals (last :: ls) := by
  induction ls generalizing last with
  | nil => rfl
  | cons line ls ih =>
    rw [List.destutter'_cons]
    split
    · have hsame := ih line
      simp only [solid, List.filter_cons] at hsame ⊢
      rw [hsame]
    · next hblank =>
      obtain ⟨hlast, hline⟩ := Decidable.not_not.mp hblank
      rw [ih, solid, solid, List.filter_cons, List.filter_cons, List.filter_cons]
      simp [hline]

/-- Nothing but blank lines is dropped. -/
theorem solid_collapsed (ls : List Line) :
    solid literals (collapsed literals ls) = solid literals ls := by
  cases ls with
  | nil => rfl
  | cons line ls => exact solid_destutter' line ls

/-- Before the end of the text is looked at, the lines are tidied. -/
theorem tidied_collapsed (ls : List Line) : Tidied literals ls (collapsed literals ls) where
  sublist := List.destutter_sublist _ _
  solid_eq := solid_collapsed ls
  parted := List.isChain_destutter _ _
  isPrefix := List.prefix_rfl

/-- A blank line at the end may go. -/
theorem Tidied.of_append_blank {ls kept : List Line} {last : Line}
    (h : Tidied literals ls (kept ++ [last])) (hlast : kind literals last = .blank) :
    Tidied literals ls kept where
  sublist := (List.sublist_append_left _ _).trans h.sublist
  solid_eq := by
    rw [← h.solid_eq, solid, solid, List.filter_append]
    simp [hlast]
  parted := (List.isChain_append.mp h.parted).1
  isPrefix := (List.prefix_append _ _).trans h.isPrefix

/-- The lines that are kept are the lines of a text. -/
theorem Tidied.areLines {cs : List Char} {kept : List Line}
    (h : Tidied literals (Line.ofText cs) kept) : Text.AreLines (kept.map Line.text) := by
  have hsub := h.sublist.map Line.text
  rw [Line.ofText, Line.map_text_placed] at hsub
  exact (Text.areLines_linesWithEnds cs).of_sublist hsub

/-- The last of the lines that are not blank: only blank ones stand behind it. -/
theorem exists_of_getLast?_solid {ls : List Line} {line : Line}
    (h : (solid literals ls).getLast? = some line) : ∃ as bs, ls = as ++ line :: bs ∧
      kind literals line ≠ .blank ∧ ∀ b ∈ bs, kind literals b = .blank := by
  obtain ⟨front, hfront⟩ := List.getLast?_eq_some_iff.mp h
  obtain ⟨as, bs, rfl, -, hbs⟩ := List.filter_eq_append_iff.mp hfront
  obtain ⟨cs, ds, rfl, -, hline, hds⟩ := List.filter_eq_cons_iff.mp hbs
  refine ⟨as ++ cs, ds, by simp, by simpa using hline, fun b hb => ?_⟩
  simpa using List.filter_eq_nil_iff.mp hds b hb

/-! ### The last line that is not blank

The end of the text is looked at for two line breaks in a row. They cannot reach back over a
character that is no part of a line break, and behind the last such one there is one line break at
most on its line. -/

/-- The text holds a character that no line break has, and one line at most ends behind it. -/
def Firm (cs : List Char) : Prop :=
  ∃ front c rest, cs = front ++ c :: rest ∧ c ≠ '\n' ∧ c ≠ '\r' ∧ feeds rest ≤ 1

/-- A text ends with what stands behind any character that the end does not hold. -/
theorem suffix_of_suffix_append {s front rest : List Char} {c : Char} (hc : c ∉ s)
    (h : s <:+ front ++ c :: rest) : s <:+ rest := by
  have hrest : rest <:+ front ++ c :: rest :=
    (List.suffix_cons c rest).trans (List.suffix_append _ _)
  refine List.suffix_of_suffix_length_le h hrest (Nat.le_of_not_lt fun hlt => hc ?_)
  have hcons : c :: rest <:+ s := List.suffix_of_suffix_length_le (List.suffix_append _ _) h hlt
  exact hcons.subset List.mem_cons_self

/-- Each kind of line break has one line feed. -/
theorem feeds_chars (ending : LineBreak) : feeds ending.chars = 1 := by
  cases ending <;> rfl

/-- There is nothing in a line break but a line feed and a carriage return. -/
theorem not_mem_chars {c : Char} (hfeed : c ≠ '\n') (hreturn : c ≠ '\r') (ending : LineBreak) :
    c ∉ ending.chars := by
  cases ending <;> simp [LineBreak.chars, hfeed, hreturn]

/-- A firm text does not end with two line breaks. -/
theorem Firm.not_doubled {cs : List Char} (h : Firm cs) (before : List Char) (ending : LineBreak) :
    ¬ ending.chars ++ ending.chars <:+ before ++ cs := by
  obtain ⟨front, c, rest, rfl, hfeed, hreturn, hrest⟩ := h
  intro hdoubled
  have hc := not_mem_chars hfeed hreturn ending
  rw [← List.append_assoc] at hdoubled
  have hsuffix := suffix_of_suffix_append (by simp [hc]) hdoubled
  have hcount := hsuffix.sublist.count_le '\n'
  rw [← feeds, ← feeds, Text.feeds_append, feeds_chars] at hcount
  omega

/-- A literal ends on the last line that it has a part in. -/
theorem stop_le_of_last {cs : List Char} {l : Span} (hl : Script.IsMultiline cs l)
    {as bs : List Line} {line : Line} (hlines : Line.ofText cs = as ++ line :: bs)
    (hmeets : line.meets l = true) (hlast : ∀ b ∈ bs, b.meets l = false) : l.stop ≤ line.stop := by
  simp only [Text.Line.meets, Bool.and_eq_true, decide_eq_true_eq] at hmeets
  by_contra hlate
  cases bs with
  | nil =>
    obtain ⟨literal, hslice, -⟩ := hl
    obtain ⟨before, behind, hcs, hbefore, hsize⟩ := Text.slice?_eq_some_iff.mp hslice
    obtain ⟨hparts, hstart, -⟩ := Line.ofText_eq_append hlines
    have htotal := congrArg byteSize (hparts.symm.trans hcs)
    simp only [Text.byteSize_append, List.flatMap_nil, Text.byteSize_nil] at htotal
    rw [Line.stop] at hlate
    omega
  | cons b bs =>
    have hb : b ∈ Line.ofText cs := by simp [hlines]
    have hpos := Line.start_lt_stop hb
    have hstart := Line.start_eq_stop hlines
    have hnot := hlast b List.mem_cons_self
    simp only [Text.Line.meets, Bool.and_eq_false_iff, decide_eq_false_iff_not] at hnot
    omega

/-- A line on which a literal ends is firm: it holds the quote. -/
theorem firm_of_ends {cs : List Char} {l : Span} (hl : Script.IsMultiline cs l) {line : Line}
    (hline : line ∈ Line.ofText cs) (hlt : line.start < l.stop) (hle : l.stop ≤ line.stop) :
    Firm line.text := by
  obtain ⟨literal, hslice, -, -, quote, hquote, hisQuote⟩ := hl
  obtain ⟨before, behind, hcs, hbefore, hsize⟩ := Text.slice?_eq_some_iff.mp hslice
  obtain ⟨front, rfl⟩ := List.getLast?_eq_some_iff.mp hquote
  obtain ⟨as, bs, hlines⟩ := List.append_of_mem hline
  obtain ⟨hparts, hstart, -⟩ := Line.ofText_eq_append hlines
  have hquoteSize := Script.utf8Size_of_isQuote hisQuote
  simp only [Text.byteSize_append, Text.byteSize_cons, Text.byteSize_nil, hquoteSize] at hsize
  rw [Line.stop] at hle
  -- the line up to the quote, and from there on
  have hsplit : as.flatMap Line.text ++ (line.text ++ bs.flatMap Line.text) =
      (before ++ front) ++ (quote :: behind) := by
    rw [← List.append_assoc, ← hparts, hcs]
    simp
  obtain ⟨own, hown, hrest⟩ := Text.append_eq_append_of_byteSize_le hsplit (by
    rw [Text.byteSize_append]
    omega)
  have hownSize := congrArg byteSize hown
  rw [Text.byteSize_append, Text.byteSize_append] at hownSize
  have hrest : (own ++ [quote]) ++ behind = line.text ++ bs.flatMap Line.text := by
    rw [hrest]
    exact (List.append_cons ..).symm
  obtain ⟨rest, htext, -⟩ := Text.append_eq_append_of_byteSize_le hrest (by
    simp only [Text.byteSize_append, Text.byteSize_cons, Text.byteSize_nil, hquoteSize]
    omega)
  obtain ⟨hfeed, hreturn⟩ := ne_feed_of_isQuote hisQuote
  refine ⟨own, quote, rest, by simp [htext], hfeed, hreturn, ?_⟩
  have hfeeds := Line.feeds_text_le hline
  rw [htext, Text.feeds_append] at hfeeds
  omega

/-- What is written for the last line that is not blank is firm. -/
theorem firm_written {cs : List Char} (h : ∀ l ∈ literals, Script.IsMultiline cs l)
    (ending : LineBreak) {line : Line}
    (hline : (solid literals (Line.ofText cs)).getLast? = some line) :
    Firm (written literals ending.chars line) := by
  obtain ⟨as, bs, hlines, hkind, hblank⟩ := exists_of_getLast?_solid hline
  have hmem : line ∈ Line.ofText cs := by simp [hlines]
  cases hcase : kind literals line with
  | blank => exact absurd hcase hkind
  | plain =>
    obtain ⟨front, c, hcontent, hreturn, hfeed⟩ := exists_lineContent (isBlankText_of_plain hcase)
    rw [written_of_plain hcase, hcontent]
    exact ⟨front, c, ending.chars, by simp, hfeed, hreturn, (feeds_chars ending).le⟩
  | literal =>
    rw [written_of_literal hcase]
    obtain ⟨l, hl, hmeets⟩ := kind_eq_literal_iff.mp hcase
    -- a blank line behind is outside of the literal
    have hlast : ∀ b ∈ bs, b.meets l = false := by
      intro b hb
      rw [Bool.eq_false_iff]
      intro hmeets
      have hb := hblank b hb
      rw [kind_eq_literal_iff.mpr ⟨l, hl, hmeets⟩] at hb
      cases hb
    have hstop := stop_le_of_last (h l hl) hlines hmeets hlast
    simp only [Text.Line.meets, Bool.and_eq_true, decide_eq_true_eq] at hmeets
    exact firm_of_ends (h l hl) hmem hmeets.2 hstop

/-! ### The end of the text

The result is looked through for a doubled line break at its end, and loses one line break at a
time. After one there is none left to lose. -/

/-- The number of steps does not matter if it is large enough. -/
theorem dropDoubled_of_length_le {n m : Nat} {cs : List Char} (hne : ending ≠ [])
    (hn : cs.length ≤ n) (hm : cs.length ≤ m) :
    dropDoubled ending n cs = dropDoubled ending m cs := by
  have hstep : ∀ {k : Nat} {cs : List Char}, cs.length ≤ k + 1 →
      (ending ++ ending).isPrefixOf cs = true → (cs.drop ending.length).length ≤ k := by
    intro k cs hk hprefix
    have hlength := (List.isPrefixOf_iff_prefix.mp hprefix).length_le
    have hpos := List.length_pos_of_ne_nil hne
    rw [List.length_append] at hlength
    rw [List.length_drop]
    omega
  induction n generalizing m cs with
  | zero =>
    rw [List.length_eq_zero_iff.mp (Nat.le_zero.mp hn)]
    cases m with
    | zero => rfl
    | succ m => simp [dropDoubled, hne]
  | succ n ih =>
    cases m with
    | zero =>
      rw [List.length_eq_zero_iff.mp (Nat.le_zero.mp hm)]
      simp [dropDoubled, hne]
    | succ m =>
      rw [dropDoubled, dropDoubled]
      split
      · next hprefix => exact ih (hstep hn hprefix) (hstep hm hprefix)
      · rfl

/-- A text without two line breaks at its end stays. -/
theorem finish_of_not_doubled {cs : List Char} (hcs : cs ≠ [])
    (h : ¬ ending ++ ending <:+ cs) : finish ending cs = cs := by
  have hprefix : (ending.reverse ++ ending.reverse).isPrefixOf cs.reverse = false := by
    rw [Bool.eq_false_iff, ne_eq, List.isPrefixOf_iff_prefix, ← List.reverse_append,
      List.reverse_prefix]
    exact h
  have hsame : ∀ n, dropDoubled ending.reverse n cs.reverse = cs.reverse := by
    intro n
    cases n with
    | zero => rfl
    | succ n => rw [dropDoubled, hprefix, if_neg Bool.false_ne_true]
  rw [finish, hsame, List.reverse_reverse]
  split
  · next hnil => exact absurd rfl hcs
  · rfl

/-- Of two line breaks at its end one goes. -/
theorem finish_of_doubled (hne : ending ≠ []) (cs : List Char) :
    finish ending (cs ++ ending ++ ending) = finish ending (cs ++ ending) := by
  have hreverse : (cs ++ ending ++ ending).reverse =
      ending.reverse ++ ((cs ++ ending).reverse) := by
    rw [List.reverse_append, List.reverse_append]
  have hprefix : (ending.reverse ++ ending.reverse).isPrefixOf (cs ++ ending ++ ending).reverse =
      true := by
    rw [List.isPrefixOf_iff_prefix, hreverse, List.reverse_append]
    exact ⟨cs.reverse, by simp⟩
  have hpos := List.length_pos_of_ne_nil hne
  obtain ⟨n, hn⟩ : ∃ n, (cs ++ ending ++ ending).length = n + 1 :=
    ⟨cs.length + ending.length + ending.length - 1, by simp only [List.length_append]; omega⟩
  have hdrop : (cs ++ ending ++ ending).reverse.drop ending.reverse.length =
      (cs ++ ending).reverse := by
    rw [hreverse, List.drop_left]
  have hone : dropDoubled ending.reverse (n + 1) (cs ++ ending ++ ending).reverse =
      dropDoubled ending.reverse (cs ++ ending).length (cs ++ ending).reverse := by
    rw [dropDoubled, if_pos hprefix, hdrop]
    refine dropDoubled_of_length_le (by simpa using hne) ?_ ?_
    · simp only [List.length_append, List.length_reverse] at hn ⊢
      omega
    · rw [List.length_reverse]
  rw [finish, hn, hone, ← finish]

/-- A line break is not empty. -/
theorem chars_ne_nil (ending : LineBreak) : ending.chars ≠ [] := by
  cases ending <;> decide

/-- Something is written for each line. -/
theorem written_ne_nil {line : Line} (h : line.text ≠ []) (ending : LineBreak) :
    written literals ending.chars line ≠ [] := by
  unfold written
  split
  · exact h
  · exact chars_ne_nil ending
  · exact List.append_ne_nil_of_right_ne_nil _ (chars_ne_nil ending)

/-- Something is written if a line is kept. -/
theorem Tidied.flatMap_ne_nil {cs : List Char} {kept : List Line}
    (h : Tidied literals (Line.ofText cs) kept) (ending : LineBreak) (hne : kept ≠ []) :
    kept.flatMap (written literals ending.chars) ≠ [] := by
  obtain ⟨line, rest, rfl⟩ := List.exists_cons_of_ne_nil hne
  have hline := Line.text_ne_nil (h.sublist.subset List.mem_cons_self)
  exact List.append_ne_nil_of_left_ne_nil (written_ne_nil hline ending) _

/-- A blank line at the end goes if a line break stands before it, and nothing else goes. -/
theorem exists_finish {cs : List Char} (h : ∀ l ∈ literals, Script.IsMultiline cs l)
    (ending : LineBreak) {kept : List Line} (hkept : Tidied literals (Line.ofText cs) kept)
    (hne : kept ≠ []) : ∃ kept', Tidied literals (Line.ofText cs) kept' ∧ kept' ≠ [] ∧
      finish ending.chars (kept.flatMap (written literals ending.chars)) =
        kept'.flatMap (written literals ending.chars) ∧
      ¬ ending.chars ++ ending.chars <:+ kept'.flatMap (written literals ending.chars) := by
  -- lines of which the last is not blank do not end with two line breaks
  have hfirm : ∀ {ks : List Line} {last : Line}, Tidied literals (Line.ofText cs) (ks ++ [last]) →
      kind literals last ≠ .blank →
      ¬ ending.chars ++ ending.chars <:+ (ks ++ [last]).flatMap
        (written literals ending.chars) := by
    intro ks last hks hlast
    rw [List.flatMap_append, List.flatMap_singleton]
    refine (firm_written h ending ?_).not_doubled _ ending
    rw [← hks.solid_eq, solid, List.filter_append, List.getLast?_append]
    simp [hlast]
  obtain ⟨front, last, rfl⟩ := (List.eq_nil_or_concat' kept).resolve_left hne
  have hnonempty := hkept.flatMap_ne_nil ending hne
  by_cases hlast : kind literals last = .blank
  · by_cases hdoubled : ending.chars ++ ending.chars <:+
        (front ++ [last]).flatMap (written literals ending.chars)
    · rw [List.flatMap_append, List.flatMap_singleton, written_of_blank hlast] at hdoubled ⊢
      obtain ⟨before, hbefore⟩ := hdoubled
      rw [← List.append_assoc] at hbefore
      obtain ⟨hbefore, -⟩ := List.append_inj' hbefore rfl
      have hfront : front ≠ [] := by
        rintro rfl
        exact chars_ne_nil ending (List.append_eq_nil_iff.mp hbefore).2
      have htidied := hkept.of_append_blank hlast
      obtain ⟨front, last', rfl⟩ := (List.eq_nil_or_concat' front).resolve_left hfront
      have hparted : kind literals last' ≠ .blank := fun hblank =>
        (List.isChain_append.mp hkept.parted).2.2 last' (by simp) last (by simp) ⟨hblank, hlast⟩
      refine ⟨_, htidied, hfront, ?_, hfirm htidied hparted⟩
      rw [← hbefore, finish_of_doubled (chars_ne_nil ending), hbefore]
      exact finish_of_not_doubled (htidied.flatMap_ne_nil ending hfront) (hfirm htidied hparted)
    · exact ⟨_, hkept, hne, finish_of_not_doubled hnonempty hdoubled, hdoubled⟩
  · exact ⟨_, hkept, hne, finish_of_not_doubled hnonempty (hfirm hkept hlast), hfirm hkept hlast⟩

/-- **What tidying leaves of a text.** For each line that is kept it writes what is to be written,
one after the other; a text of nothing becomes a line break. The result does not end with two line
breaks.
-/
theorem exists_tidied {cs : List Char} (h : ∀ l ∈ literals, Script.IsMultiline cs l)
    (ending : LineBreak) (hcs : cs ≠ []) : ∃ kept, Tidied literals (Line.ofText cs) kept ∧
      kept ≠ [] ∧
      text literals ending.chars cs = kept.flatMap (written literals ending.chars) ∧
      ¬ ending.chars ++ ending.chars <:+ text literals ending.chars cs := by
  have hlines : lines literals ending.chars 0 false (Text.linesWithEnds cs) =
      (collapsed literals (Line.ofText cs)).flatMap (written literals ending.chars) :=
    lines_eq fun line hline => isLiteralLine_eq h hline
  have hne : collapsed literals (Line.ofText cs) ≠ [] := by
    rw [collapsed, ne_eq, List.destutter_eq_nil]
    intro hnil
    have hflat := Line.flatMap_text_ofText cs
    rw [hnil] at hflat
    exact hcs hflat.symm
  obtain ⟨kept, hkept, hne, hfinish, hdoubled⟩ := exists_finish h ending (tidied_collapsed _) hne
  rw [text, hlines, hfinish]
  exact ⟨kept, hkept, hne, rfl, hdoubled⟩

/-- The text of nothing becomes a line break. -/
theorem text_nil (ending : LineBreak) : text literals ending.chars [] = ending.chars := by
  cases ending <;> rfl

end Tidy

end VueSetup
