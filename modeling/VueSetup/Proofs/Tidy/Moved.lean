import Mathlib.Data.List.DropRight
import VueSetup.Proofs.Tidy.Kept

/-!
# VueSetup.Proofs.Tidy.Moved

Where the literals of a text stand once it is tidied, and that tidying once more changes nothing
(`Tidy.text_idempotent`).

The lines of a text fall into those before a literal, those that it has a part in and those behind
it (`Around`). The second are all kept as they are, so that the literal moves by what the lines
before it lose or gain (`moved`). The lines of the tidied text are then what was written for the
lines that were kept, and each of them meets the moved literals that its line met before
(`map_meets_moved`). It is of the same kind as that line and the same is written for it: nothing is
left to tidy.
-/

namespace VueSetup.Tidy

open Text (Line byteSize)

variable {literals : List Span} {cs : List Char} {l : Span}

/-! ### The lines around a literal

A literal ends on the last of its lines and starts on the first. As literals are not empty, they
have a line of their own, and the lines before and behind it do not meet them. -/

/-- The lines that end before a literal starts. -/
def linesBefore (cs : List Char) (l : Span) : List Line :=
  (Line.ofText cs).takeWhile (·.stop ≤ l.start)

/-- The lines of a text by where a literal stands: some before it, some that it has a part in, and
the rest behind it. -/
structure Around (cs : List Char) (l : Span) (own behind : List Line) : Prop where
  lines_eq : Line.ofText cs = linesBefore cs l ++ (own ++ behind)
  own_ne_nil : own ≠ []
  meets_own : ∀ line ∈ own, line.meets l = true
  stop_le_behind : ∀ line ∈ behind, l.stop ≤ line.start
  before_le_start : byteSize ((linesBefore cs l).flatMap Line.text) ≤ l.start
  start_lt_stop : l.start < l.stop
  stop_le : l.stop ≤
    byteSize ((linesBefore cs l).flatMap Line.text) + byteSize (own.flatMap Line.text)

/-- Each of the lines before a literal ends before it. -/
theorem stop_le_of_mem_linesBefore {line : Line} (h : line ∈ linesBefore cs l) :
    line.stop ≤ l.start := by
  simpa using List.mem_takeWhile_imp h

/-- All of them take no more room than there is before the literal. -/
theorem byteSize_linesBefore_le (cs : List Char) (l : Span) :
    byteSize ((linesBefore cs l).flatMap Line.text) ≤ l.start := by
  obtain hnil | ⟨front, last, heq⟩ := List.eq_nil_or_concat' (linesBefore cs l)
  · rw [hnil]
    exact Nat.zero_le _
  · have hlast : last ∈ linesBefore cs l := by simp [heq]
    obtain ⟨rest, hrest⟩ : linesBefore cs l <+: Line.ofText cs := List.takeWhile_prefix _
    rw [heq, List.append_assoc, List.singleton_append] at hrest
    have hstart := (Line.ofText_eq_append hrest.symm).2.1
    rw [heq, List.flatMap_append, List.flatMap_singleton, Text.byteSize_append, ← hstart,
      ← Line.stop]
    exact stop_le_of_mem_linesBefore hlast

/-- Every literal has lines around it. -/
theorem exists_around (h : Script.IsMultiline cs l) : ∃ own behind, Around cs l own behind := by
  obtain ⟨literal, hslice, hfeed, -⟩ := h
  obtain ⟨before, after, hcs, hbefore, hsize⟩ := Text.slice?_eq_some_iff.mp hslice
  have hpos : byteSize literal ≠ 0 := fun hzero => by
    rw [Text.eq_nil_of_byteSize_eq_zero hzero] at hfeed
    cases hfeed
  have htotal : l.stop ≤ byteSize cs := by
    rw [hcs, Text.byteSize_append, Text.byteSize_append]
    omega
  have hle := byteSize_linesBefore_le cs l
  -- the lines from the one that the literal starts on
  obtain ⟨rest, hrest⟩ : ∃ rest, (Line.ofText cs).dropWhile (·.stop ≤ l.start) = rest := ⟨_, rfl⟩
  have hlines : Line.ofText cs = linesBefore cs l ++ rest := by
    rw [← hrest, linesBefore, List.takeWhile_append_dropWhile]
  -- those up to the one that it ends on, and those behind that one
  obtain ⟨own, hown⟩ : ∃ own, rest.takeWhile (·.start < l.stop) = own := ⟨_, rfl⟩
  obtain ⟨behind, hbehind⟩ : ∃ behind, rest.dropWhile (·.start < l.stop) = behind := ⟨_, rfl⟩
  have hdivided : own ++ behind = rest := by
    rw [← hown, ← hbehind, List.takeWhile_append_dropWhile]
  have hlate : ∀ line ∈ behind, l.stop ≤ line.start := fun line hline =>
    Line.le_start_of_mem_dropWhile hlines (by rwa [hbehind])
  refine ⟨own, behind, ?_, ?_, ?_, hlate, hle, by omega, ?_⟩
  · rw [hdivided, hlines]
  · cases rest with
    | nil =>
      rw [List.append_nil] at hlines
      rw [← hlines, Line.flatMap_text_ofText] at hle
      omega
    | cons first rest =>
      have hstart := (Line.ofText_eq_append hlines).2.1
      rw [← hown, List.takeWhile_cons_of_pos (by rw [decide_eq_true_eq]; omega)]
      exact List.cons_ne_nil _ _
  · intro line hline
    rw [← hown] at hline
    have hearly := List.mem_takeWhile_imp hline
    have hmem : line ∈ (Line.ofText cs).dropWhile (·.stop ≤ l.start) := by
      rw [hrest]
      exact (List.takeWhile_sublist _).subset hline
    have hlateStop : l.start < line.stop :=
      Line.lt_stop_of_mem_dropWhile (List.nil_append (Line.ofText cs)).symm hmem
    rw [Text.Line.meets, hearly, decide_eq_true hlateStop, Bool.and_true]
  · rw [← Text.byteSize_append, ← List.flatMap_append]
    rw [← hdivided, ← List.append_assoc] at hlines
    cases behind with
    | nil =>
      rw [List.append_nil] at hlines
      rwa [← hlines, Line.flatMap_text_ofText]
    | cons first more =>
      rw [← (Line.ofText_eq_append hlines).2.1]
      exact hlate first List.mem_cons_self

/-! ### What is kept around a literal

Blank lines are dropped by the one before them. The lines of a literal are not blank, so that what
is dropped before them, and what behind, does not depend on each other. -/

/-- A line that is not blank is kept, and what comes behind it does not depend on what is dropped
before. -/
theorem destutter'_append {line : Line} (hline : kind literals line ≠ .blank) (last : Line)
    (as bs : List Line) : (as ++ line :: bs).destutter' (Parted literals) last =
      as.destutter' (Parted literals) last ++ bs.destutter' (Parted literals) line := by
  induction as generalizing last with
  | nil =>
    rw [List.nil_append, List.destutter'_cons_pos _ fun h => hline h.2]
    rfl
  | cons a as ih =>
    rw [List.cons_append, List.destutter'_cons, List.destutter'_cons]
    split
    · rw [ih, List.cons_append]
    · exact ih last

/-- What is kept before a line that is not blank does not depend on what stands from there on. -/
theorem collapsed_append {line : Line} (hline : kind literals line ≠ .blank) (as bs : List Line) :
    collapsed literals (as ++ line :: bs) =
      collapsed literals as ++ collapsed literals (line :: bs) := by
  cases as with
  | nil => rfl
  | cons a as => exact destutter'_append hline a as bs

/-- A line that is not blank stays, and so does what stands behind it but for blank lines. -/
theorem exists_collapsed_cons (line : Line) (ls : List Line) :
    ∃ rest, collapsed literals (line :: ls) = line :: rest ∧ rest.Sublist ls := by
  rw [collapsed, List.destutter_cons']
  induction ls with
  | nil => exact ⟨[], rfl, List.Sublist.refl _⟩
  | cons next ls ih =>
    rw [List.destutter'_cons]
    split
    · exact ⟨_, rfl, List.destutter'_sublist _ _ _⟩
    · obtain ⟨rest, heq, hrest⟩ := ih
      exact ⟨rest, heq, hrest.cons next⟩

/-- Lines that are not blank are all kept. -/
theorem exists_collapsed_append {own : List Line} (hne : own ≠ [])
    (hown : ∀ line ∈ own, kind literals line ≠ .blank) (behind : List Line) :
    ∃ rest, collapsed literals (own ++ behind) = own ++ rest ∧ rest.Sublist behind := by
  induction own with
  | nil => exact absurd rfl hne
  | cons line own ih =>
    cases own with
    | nil => exact exists_collapsed_cons line behind
    | cons next own =>
      obtain ⟨rest, heq, hrest⟩ := ih (List.cons_ne_nil _ _)
        fun line hline => hown line (List.mem_cons_of_mem _ hline)
      have hnext := hown next (by simp)
      have happend := collapsed_append hnext [line] (own ++ behind)
      refine ⟨rest, ?_, hrest⟩
      rw [← List.cons_append, heq] at happend
      exact happend

/-- Lines that are not blank are kept along with what is kept before them. -/
theorem Tidied.eq_append {kept before own behind : List Line}
    (h : Tidied literals (before ++ (own ++ behind)) kept) (hne : own ≠ [])
    (hown : ∀ line ∈ own, kind literals line ≠ .blank) :
    ∃ rest, kept = collapsed literals before ++ (own ++ rest) ∧ rest.Sublist behind := by
  obtain ⟨rest, hrest, hsub⟩ := exists_collapsed_append hne hown behind
  have hprefix : kept <+: collapsed literals before ++ own ++ rest := by
    obtain ⟨line, own, rfl⟩ := List.exists_cons_of_ne_nil hne
    have hkept := h.isPrefix
    rwa [List.cons_append, collapsed_append (hown line List.mem_cons_self), ← List.cons_append,
      hrest, ← List.append_assoc] at hkept
  rcases List.prefix_or_prefix_of_prefix (List.prefix_append _ _) hprefix with
    ⟨more, rfl⟩ | ⟨more, hmore⟩
  · exact ⟨more, List.append_assoc _ _ _,
      ((List.prefix_append_right_inj _).mp hprefix).sublist.trans hsub⟩
  · -- nothing is missing at the end, where the last of the lines stands that are not blank
    have hsolid := congrArg (solid literals) hmore
    rw [solid_append, solid_append, solid_collapsed, h.solid_eq, solid_append, solid_append]
      at hsolid
    have hnone : solid literals more = [] := by
      have hlength := congrArg List.length hsolid
      simp only [List.length_append] at hlength
      exact List.length_eq_zero_iff.mp (by omega)
    obtain rfl | ⟨more, last, rfl⟩ := List.eq_nil_or_concat' more
    · rw [List.append_nil] at hmore
      exact ⟨[], by rw [hmore, List.append_nil], List.nil_sublist _⟩
    · obtain ⟨own, last', rfl⟩ := (List.eq_nil_or_concat' own).resolve_left hne
      rw [← List.append_assoc, ← List.append_assoc] at hmore
      obtain ⟨-, hlast⟩ := List.append_inj' hmore rfl
      rw [List.singleton_inj] at hlast
      have hkind := hown last' (by simp)
      rw [solid, List.filter_eq_nil_iff] at hnone
      have hblank := hnone last (by simp)
      rw [hlast] at hblank
      simp [hkind] at hblank

/-! ### What was written, as lines

To tidy the result, its lines have to be known. What is written for a line is a line again: it ends
with a line break, and no line break stands within it. -/

variable {ending : LineBreak}

/-- A content with a line break behind it is one line. -/
theorem isEnded_append_chars {content : List Char} (h : '\n' ∉ content) (ending : LineBreak) :
    Text.IsEnded (content ++ ending.chars) := by
  cases ending with
  | feed => exact ⟨content, rfl, h⟩
  | returnFeed => exact ⟨content ++ ['\r'], by simp [LineBreak.chars], by simp [h]⟩

/-- There is no line feed in the content of a line. -/
theorem not_mem_lineContent {line : List Char} (h : Text.IsEnded line ∨ Text.IsOpen line) :
    '\n' ∉ lineContent line := by
  have hcontent : ∃ content, '\n' ∉ content ∧ lineContent line = lineContent content := by
    rcases h with ⟨content, rfl, hcontent⟩ | hopen
    · exact ⟨content, hcontent, lineContent_append content (by simp)⟩
    · exact ⟨line, hopen.2, rfl⟩
  obtain ⟨content, hcontent, heq⟩ := hcontent
  obtain ⟨rest, hsplit, -⟩ := exists_eq_lineContent_append content
  rw [heq]
  exact fun hfeed => hcontent (hsplit ▸ List.mem_append_left _ hfeed)

/-- A content has no white space at its end to be left out. -/
theorem lineContent_lineContent (line : List Char) :
    lineContent (lineContent line) = lineContent line := by
  rw [lineContent, Text.dropEndWhile, lineContent, Text.dropEndWhile, List.reverse_reverse,
    List.dropWhile_idempotent]

/-- The characters of a line break end a line. -/
theorem endsLine_of_mem_chars {c : Char} (h : c ∈ ending.chars) : (c == '\r' || c == '\n') =
    true := by
  cases ending <;> simp [LineBreak.chars] at h <;> rcases h with rfl | rfl <;> rfl

/-- What is written for a line that ends ends as well. -/
theorem isEnded_written (ending : LineBreak) {line : Line} (h : Text.IsEnded line.text) :
    Text.IsEnded (written literals ending.chars line) := by
  cases hkind : kind literals line with
  | literal => rwa [written_of_literal hkind]
  | blank =>
    rw [written_of_blank hkind]
    exact isEnded_append_chars List.not_mem_nil ending
  | plain =>
    rw [written_of_plain hkind]
    exact isEnded_append_chars (not_mem_lineContent (.inl h)) ending

/-- What is written for the last line of a text is a line, with or without an end. -/
theorem isEnded_or_isOpen_written (ending : LineBreak) {line : Line} (h : Text.IsOpen line.text) :
    Text.IsEnded (written literals ending.chars line) ∨
      Text.IsOpen (written literals ending.chars line) := by
  cases hkind : kind literals line with
  | literal =>
    rw [written_of_literal hkind]
    exact .inr h
  | blank =>
    rw [written_of_blank hkind]
    exact .inl (isEnded_append_chars List.not_mem_nil ending)
  | plain =>
    rw [written_of_plain hkind]
    exact .inl (isEnded_append_chars (not_mem_lineContent (.inr h)) ending)

/-- What is written for the lines that are kept are the lines of the result. -/
theorem Tidied.linesWithEnds_eq {kept : List Line} (h : Tidied literals (Line.ofText cs) kept)
    (ending : LineBreak) : Text.linesWithEnds (kept.flatMap (written literals ending.chars)) =
      kept.map (written literals ending.chars) := by
  have hwritten : Text.AreLines (kept.map (written literals ending.chars)) :=
    h.areLines.map (fun _ _ => isEnded_written ending) (fun _ _ => isEnded_or_isOpen_written ending)
  rw [List.flatMap_def, hwritten.linesWithEnds_flatten]

/-- What is written for a line is blank if the line is. -/
theorem isBlankText_written {line : Line} (h : kind literals line ≠ .literal) :
    Text.isBlankText (written literals ending.chars line) = Text.isBlankText line.text := by
  have hending : Text.isBlankText ending.chars = true := by cases ending <;> rfl
  cases hkind : kind literals line with
  | literal => exact absurd hkind h
  | blank => rw [written_of_blank hkind, isBlankText_of_blank hkind, hending]
  | plain =>
    rw [written_of_plain hkind, ← isBlankText_lineContent line.text, Text.isBlankText,
      List.all_append, ← Text.isBlankText, ← Text.isBlankText, hending, Bool.and_true]

section Again

variable {literals' : List Span} {line line' : Line}

/-- A line with the text written for another one is of the same kind, as long as it has a part in
literals exactly if that one has. -/
theorem kind_eq (hmeets : literals'.any line'.meets = literals.any line.meets)
    (htext : line'.text = written literals ending.chars line) :
    kind literals' line' = kind literals line := by
  by_cases hliteral : kind literals line = .literal
  · have hany := hliteral
    rw [kind_eq_literal_iff, ← List.any_eq_true, ← hmeets, List.any_eq_true,
      ← kind_eq_literal_iff] at hany
    rw [hany, hliteral]
  · rw [kind, kind, hmeets, htext, isBlankText_written hliteral]

/-- Nothing else is written for it the second time. -/
theorem written_eq (hmeets : literals'.any line'.meets = literals.any line.meets)
    (htext : line'.text = written literals ending.chars line) :
    written literals' ending.chars line' = written literals ending.chars line := by
  have hsame := kind_eq hmeets htext
  cases hkind : kind literals line with
  | literal => rw [written_of_literal (hsame.trans hkind), htext]
  | blank => rw [written_of_blank (hsame.trans hkind), written_of_blank hkind]
  | plain =>
    rw [written_of_plain (hsame.trans hkind), htext, written_of_plain hkind,
      lineContent_append _ fun c hc => endsLine_of_mem_chars hc, lineContent_lineContent]

end Again

/-! ### Moved literals

A literal moves with its first line. Within its lines nothing changes, so its end moves by as much
as its start. -/

/-- Where a literal stands once the text is tidied: as far into its lines as before, and they stand
behind what is written for the lines before them. -/
def moved (literals : List Span) (ending : List Char) (cs : List Char) (l : Span) : Span :=
  let start := byteSize (lines literals ending 0 false ((linesBefore cs l).map Line.text)) +
    (l.start - byteSize ((linesBefore cs l).flatMap Line.text))
  ⟨start, start + (l.stop - l.start)⟩

/-- A line before a stretch has no part in it. -/
theorem meets_eq_false_of_stop_le {line : Line} (h : line.stop ≤ l.start) : line.meets l =
    false := by
  simp [Text.Line.meets, Nat.not_lt.mpr h]

/-- A line behind a stretch has no part in it. -/
theorem meets_eq_false_of_le_start {line : Line} (h : l.stop ≤ line.start) :
    line.meets l = false := by
  simp [Text.Line.meets, Nat.not_lt.mpr h]

/-- A line that moves along with a stretch meets it as before. -/
theorem meets_shift (n a b : Nat) (line : Line) :
    (line.shift n).meets ⟨n + a, n + b⟩ = line.meets ⟨a, b⟩ := by
  have hstart : (line.shift n).start = n + line.start := rfl
  rw [Bool.eq_iff_iff]
  simp only [Text.Line.meets, Line.stop_shift, hstart, Bool.and_eq_true, decide_eq_true_eq,
    Nat.add_lt_add_iff_left]

/-- The same lines at other places, and the literal with them. -/
theorem map_meets_placed (n m a b : Nat) (ls : List (List Char)) :
    (Line.placed n ls).map (·.meets ⟨n + a, n + b⟩) =
      (Line.placed m ls).map (·.meets ⟨m + a, m + b⟩) := by
  have hzero : ∀ n, (Line.placed n ls).map (·.meets ⟨n + a, n + b⟩) =
      (Line.placed 0 ls).map (·.meets ⟨a, b⟩) := by
    intro n
    rw [← Nat.add_zero n, Line.placed_add n 0 ls, List.map_map]
    exact List.map_congr_left fun line _ => meets_shift n a b line
  rw [hzero n, hzero m]

/-- The lines that a literal has a part in, written as they are. -/
theorem map_written_own {own behind : List Line} (hl : l ∈ literals) (h : Around cs l own behind) :
    own.map (written literals ending.chars) = own.map Line.text :=
  List.map_congr_left fun line hline =>
    written_of_literal (kind_eq_literal_iff.mpr ⟨l, hl, h.meets_own line hline⟩)

/-- What the loop writes for the lines before a literal. -/
theorem lines_linesBefore (h : ∀ l ∈ literals, Script.IsMultiline cs l) (ending : LineBreak)
    (l : Span) : lines literals ending.chars 0 false ((linesBefore cs l).map Line.text) =
      (collapsed literals (linesBefore cs l)).flatMap (written literals ending.chars) := by
  have hsplit : Line.ofText cs =
      linesBefore cs l ++ (Line.ofText cs).dropWhile (·.stop ≤ l.start) :=
    List.takeWhile_append_dropWhile.symm
  have hplaced := (Line.eq_placed_of_append hsplit).1
  rw [lines_eq, ← hplaced]
  rw [← hplaced]
  exact fun line hline => isLiteralLine_eq h (by
    rw [hsplit]
    exact List.mem_append_left _ hline)

/-- A literal in the tidied text: what stands before its lines, its lines, and what is left
behind. -/
theorem Tidied.exists_own {kept : List Line} (hkept : Tidied literals (Line.ofText cs) kept)
    (h : ∀ l ∈ literals, Script.IsMultiline cs l) (hl : l ∈ literals) :
    ∃ own behind rest, Around cs l own behind ∧ rest.Sublist behind ∧
      kept = collapsed literals (linesBefore cs l) ++ (own ++ rest) := by
  obtain ⟨own, behind, haround⟩ := exists_around (h l hl)
  rw [haround.lines_eq] at hkept
  obtain ⟨rest, heq, hrest⟩ := hkept.eq_append haround.own_ne_nil fun line hline hblank => by
    rw [kind_eq_literal_iff.mpr ⟨l, hl, haround.meets_own line hline⟩] at hblank
    cases hblank
  exact ⟨own, behind, rest, haround, hrest, heq⟩

/-- Where a literal starts and ends counted from its first line, and counted from there again once
the text is tidied. -/
theorem Around.exists_offsets {own behind : List Line} (h : Around cs l own behind) :
    ∃ a b, b ≤ byteSize (own.flatMap Line.text) ∧
      l = ⟨byteSize ((linesBefore cs l).flatMap Line.text) + a,
        byteSize ((linesBefore cs l).flatMap Line.text) + b⟩ ∧
      ∀ literals ending, moved literals ending cs l =
        ⟨byteSize (lines literals ending 0 false ((linesBefore cs l).map Line.text)) + a,
          byteSize (lines literals ending 0 false ((linesBefore cs l).map Line.text)) + b⟩ := by
  have hle := h.before_le_start
  have hlt := h.start_lt_stop
  have hstop := h.stop_le
  refine ⟨l.start - byteSize ((linesBefore cs l).flatMap Line.text),
    l.stop - byteSize ((linesBefore cs l).flatMap Line.text), by
      omega, ?_, fun literals ending => ?_⟩
  · rw [Nat.add_sub_cancel' hle, Nat.add_sub_cancel' (by omega)]
  · rw [moved, Span.mk.injEq]
    exact ⟨rfl, by omega⟩

/-- The bytes of a literal lie where it has moved to. -/
theorem slice?_moved {kept : List Line} (hkept : Tidied literals (Line.ofText cs) kept)
    (h : ∀ l ∈ literals, Script.IsMultiline cs l) (hl : l ∈ literals) :
    Text.slice? (kept.flatMap (written literals ending.chars))
        (moved literals ending.chars cs l).start (moved literals ending.chars cs l).stop =
      Text.slice? cs l.start l.stop := by
  obtain ⟨own, behind, rest, haround, -, rfl⟩ := hkept.exists_own h hl
  obtain ⟨a, b, hb, heq, hmoved⟩ := haround.exists_offsets
  have hcs : (linesBefore cs l).flatMap Line.text ++ own.flatMap Line.text ++
      behind.flatMap Line.text = cs := by
    rw [← List.flatMap_append, ← List.flatMap_append, List.append_assoc, ← haround.lines_eq,
      Line.flatMap_text_ofText]
  have hown : own.flatMap (written literals ending.chars) = own.flatMap Line.text := by
    rw [List.flatMap_def, map_written_own hl haround, ← List.flatMap_def]
  have hslice : Text.slice? cs l.start l.stop = Text.slice? (own.flatMap Line.text) a b := by
    calc Text.slice? cs l.start l.stop
        = Text.slice? cs (byteSize ((linesBefore cs l).flatMap Line.text) + a)
            (byteSize ((linesBefore cs l).flatMap Line.text) + b) :=
          congrArg (fun span : Span => Text.slice? cs span.start span.stop) heq
      _ = Text.slice? ((linesBefore cs l).flatMap Line.text ++ own.flatMap Line.text ++
            behind.flatMap Line.text) (byteSize ((linesBefore cs l).flatMap Line.text) + a)
            (byteSize ((linesBefore cs l).flatMap Line.text) + b) := by rw [hcs]
      _ = Text.slice? (own.flatMap Line.text) a b := Text.slice?_middle hb
  rw [hmoved, lines_linesBefore h, List.flatMap_append, List.flatMap_append, hown,
    ← List.append_assoc, Text.slice?_middle hb, hslice]

/-- Lines of which none has a part in a literal. -/
theorem map_meets_of_forall {ls : List Line} (h : ∀ line ∈ ls, line.meets l = false) :
    ls.map (·.meets l) = List.replicate ls.length false :=
  List.map_eq_replicate_iff.mpr h

/-- The lines of the tidied text have a part in a moved literal exactly if the lines that they are
written for have one in the literal. -/
theorem map_meets_moved {kept : List Line} (hkept : Tidied literals (Line.ofText cs) kept)
    (h : ∀ l ∈ literals, Script.IsMultiline cs l) (ending : LineBreak) (hl : l ∈ literals) :
    (Line.placed 0 (kept.map (written literals ending.chars))).map
        (·.meets (moved literals ending.chars cs l)) =
      kept.map (·.meets l) := by
  obtain ⟨own, behind, rest, haround, hrest, rfl⟩ := hkept.exists_own h hl
  obtain ⟨a, b, hb, heq, hmoved⟩ := haround.exists_offsets
  have hmoved := hmoved literals ending.chars
  rw [lines_linesBefore h] at hmoved
  -- how much is written before the lines of the literal
  generalize hn : byteSize ((collapsed literals (linesBefore cs l)).flatMap
    (written literals ending.chars)) = n at hmoved
  rw [hmoved, List.map_append, List.map_append, map_written_own hl haround, Line.placed_append,
    Line.placed_append, ← List.flatMap_def, ← List.flatMap_def, Nat.zero_add, hn]
  have hbefore : (Line.placed 0 ((collapsed literals (linesBefore cs l)).map
      (written literals ending.chars))).map (·.meets ⟨n + a, n + b⟩) =
      (collapsed literals (linesBefore cs l)).map (·.meets l) := by
    rw [map_meets_of_forall fun line hline => ?_, map_meets_of_forall fun line hline => ?_]
    · rw [Line.length_placed, List.length_map]
    · have hline := (List.destutter_sublist _ _).subset hline
      exact meets_eq_false_of_stop_le (stop_le_of_mem_linesBefore hline)
    · have hbound := (Line.mem_placed_bounds hline).2
      rw [← List.flatMap_def, hn, Nat.zero_add] at hbound
      exact meets_eq_false_of_stop_le (Nat.le_add_right_of_le hbound)
  have hown : (Line.placed n (own.map Line.text)).map (·.meets ⟨n + a, n + b⟩) =
      own.map (·.meets l) := by
    have hplaced := (Line.eq_placed_of_append (Line.eq_placed_of_append haround.lines_eq).2.symm).1
    rw [Nat.zero_add] at hplaced
    rw [map_meets_placed n _ a b, ← heq, ← hplaced]
  have hbehind : (Line.placed (n + byteSize (own.flatMap Line.text))
      (rest.map (written literals ending.chars))).map (·.meets ⟨n + a, n + b⟩) =
      rest.map (·.meets l) := by
    rw [map_meets_of_forall fun line hline => ?_, map_meets_of_forall fun line hline => ?_]
    · rw [Line.length_placed, List.length_map]
    · exact meets_eq_false_of_le_start (haround.stop_le_behind line (hrest.subset hline))
    · have hbound := (Line.mem_placed_bounds hline).1
      exact meets_eq_false_of_le_start (Nat.le_trans (Nat.add_le_add_left hb n) hbound)
  simp only [List.map_append, hbefore, hown, hbehind]

/-! ### Tidying again

All lines of the tidied text are of the kind of the lines that they are written for. So the second
run sees no two blank lines in a row, and writes each line as it is. -/

section Twice

variable {kept : List Line}

/-- Each line of the tidied text has a part in the moved literals exactly if the line that it is
written for has one in the literals. -/
theorem any_meets_moved (hkept : Tidied literals (Line.ofText cs) kept)
    (h : ∀ l ∈ literals, Script.IsMultiline cs l) {i : Nat} (hi : i < kept.length)
    (hi' : i < (Line.placed 0 (kept.map (written literals ending.chars))).length) :
    (literals.map (moved literals ending.chars cs)).any
        (Line.placed 0 (kept.map (written literals ending.chars)))[i].meets =
      literals.any kept[i].meets := by
  have hmeets : literals.map (fun l =>
      (Line.placed 0 (kept.map (written literals ending.chars)))[i].meets
      (moved literals ending.chars cs l)) = literals.map kept[i].meets :=
    List.map_congr_left fun l hl => by
      have hline := List.getElem_of_eq (map_meets_moved hkept h ending hl)
        (by rwa [List.length_map])
      simpa only [List.getElem_map] using hline
  have hany := congrArg (List.any · id) hmeets
  simpa only [List.any_map, Function.comp_def, id] using hany

/-- The texts of the lines of the result. -/
theorem text_placed_written (i : Nat) (hi : i < kept.length)
    (hi' : i < (Line.placed 0 (kept.map (written literals ending.chars))).length) :
    (Line.placed 0 (kept.map (written literals ending.chars)))[i].text =
      written literals ending.chars kept[i] := by
  have hline := List.getElem_of_eq (Line.map_text_placed 0
    (kept.map (written literals ending.chars)))
    (by rwa [List.length_map])
  simpa only [List.getElem_map] using hline

/-- They are of the kinds that the lines were that they are written for. -/
theorem map_kind_placed (hkept : Tidied literals (Line.ofText cs) kept)
    (h : ∀ l ∈ literals, Script.IsMultiline cs l) (ending : LineBreak) :
    (Line.placed 0 (kept.map (written literals ending.chars))).map
        (kind (literals.map (moved literals ending.chars cs))) = kept.map (kind literals) :=
  List.ext_getElem (by simp) fun i hi hi' => by
    rw [List.length_map] at hi hi'
    rw [List.getElem_map, List.getElem_map]
    exact kind_eq (any_meets_moved hkept h hi' hi) (text_placed_written i hi' hi)

/-- So the same is written for them. -/
theorem map_written_placed (hkept : Tidied literals (Line.ofText cs) kept)
    (h : ∀ l ∈ literals, Script.IsMultiline cs l) (ending : LineBreak) :
    (Line.placed 0 (kept.map (written literals ending.chars))).map
        (written (literals.map (moved literals ending.chars cs)) ending.chars) =
      kept.map (written literals ending.chars) :=
  List.ext_getElem (by simp) fun i hi hi' => by
    rw [List.length_map] at hi hi'
    rw [List.getElem_map, List.getElem_map]
    exact written_eq (any_meets_moved hkept h hi' hi) (text_placed_written i hi' hi)

/-- The tidied text has no blank line behind another one, so that none is dropped from it. -/
theorem collapsed_placed (hkept : Tidied literals (Line.ofText cs) kept)
    (h : ∀ l ∈ literals, Script.IsMultiline cs l) (ending : LineBreak) :
    collapsed (literals.map (moved literals ending.chars cs))
        (Line.placed 0 (kept.map (written literals ending.chars))) =
      Line.placed 0 (kept.map (written literals ending.chars)) := by
  refine List.destutter_of_isChain _ _ ?_
  rw [isChain_parted_iff, map_kind_placed hkept h, ← isChain_parted_iff]
  exact hkept.parted

end Twice

/-- **Tidying once is enough.** With the literals where their bytes have moved to, the tidied text
is left as it is. -/
theorem text_idempotent (h : ∀ l ∈ literals, Script.IsMultiline cs l) (ending : LineBreak) :
    (∀ l ∈ literals, Text.slice? (text literals ending.chars cs)
        (moved literals ending.chars cs l).start (moved literals ending.chars cs l).stop =
      Text.slice? cs l.start l.stop) ∧
    text (literals.map (moved literals ending.chars cs)) ending.chars
      (text literals ending.chars cs) =
      text literals ending.chars cs := by
  by_cases hcs : cs = []
  · obtain rfl : literals = [] :=
      List.eq_nil_iff_forall_not_mem.mpr fun l hl => (h l hl).ne_nil hcs
    subst hcs
    exact ⟨fun l hl => absurd hl List.not_mem_nil, by cases ending <;> rfl⟩
  · obtain ⟨kept, hkept, hne, htext, hdoubled⟩ := exists_tidied h ending hcs
    have hslices : ∀ l ∈ literals, Text.slice? (text literals ending.chars cs)
        (moved literals ending.chars cs l).start (moved literals ending.chars cs l).stop =
          Text.slice? cs l.start l.stop := fun l hl => htext ▸ slice?_moved hkept h hl
    have hmoved : ∀ l ∈ literals.map (moved literals ending.chars cs),
        Script.IsMultiline (text literals ending.chars cs) l := by
      rw [List.forall_mem_map]
      intro l hl
      rw [Script.IsMultiline, hslices l hl]
      exact h l hl
    have hlines : lines (literals.map (moved literals ending.chars cs)) ending.chars 0 false
        (Text.linesWithEnds (text literals ending.chars cs)) = text literals ending.chars cs := by
      rw [lines_eq fun line hline => isLiteralLine_eq hmoved hline, ← Line.ofText, htext,
        Line.ofText, hkept.linesWithEnds_eq, collapsed_placed hkept h, List.flatMap_def,
        map_written_placed hkept h, ← List.flatMap_def]
    refine ⟨hslices, ?_⟩
    have hnonempty := hkept.flatMap_ne_nil ending hne
    rw [← htext] at hnonempty
    conv_lhs => rw [text, hlines]
    exact finish_of_not_doubled hnonempty hdoubled

/-- A literal behind blank lines, with one of its own and with blanks behind it. -/
def blankLinesAround : List Char :=
  "a\n\n\n\x60x  \n\n y\x60  \r\n\n\n".toList

/-- The literal moves by what the lines before it lose or gain, and then it stays where it is. -/
theorem text_idempotent_blankLinesAround :
    (∀ l ∈ [(⟨4, 13⟩ : Span)], Script.IsMultiline blankLinesAround l) ∧
    moved [⟨4, 13⟩] LineBreak.returnFeed.chars blankLinesAround ⟨4, 13⟩ = ⟨5, 14⟩ ∧
    text [⟨4, 13⟩] LineBreak.returnFeed.chars blankLinesAround =
      "a\r\n\r\n\x60x  \n\n y\x60  \r\n".toList ∧
    text [⟨5, 14⟩] LineBreak.returnFeed.chars "a\r\n\r\n\x60x  \n\n y\x60  \r\n".toList =
      "a\r\n\r\n\x60x  \n\n y\x60  \r\n".toList := by
  have hliteral : ∀ l ∈ [(⟨4, 13⟩ : Span)], Script.IsMultiline blankLinesAround l := by
    intro l hl
    obtain rfl := List.mem_singleton.mp hl
    exact ⟨"\x60x  \n\n y\x60".toList, by decide +kernel, by decide +kernel,
      ⟨'\x60', by decide +kernel, rfl⟩, ⟨'\x60', by decide +kernel, rfl⟩⟩
  have hmoved : moved [⟨4, 13⟩] LineBreak.returnFeed.chars blankLinesAround ⟨4, 13⟩ = ⟨5, 14⟩ := by
    decide +kernel
  have htext : text [⟨4, 13⟩] LineBreak.returnFeed.chars blankLinesAround =
      "a\r\n\r\n\x60x  \n\n y\x60  \r\n".toList := by
    decide +kernel
  have hagain := (text_idempotent hliteral .returnFeed).2
  rw [List.map_singleton, hmoved, htext] at hagain
  exact ⟨hliteral, hmoved, htext, hagain⟩

end VueSetup.Tidy
