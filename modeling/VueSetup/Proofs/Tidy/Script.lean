import VueSetup.Proofs.Tidy.Moved
import VueSetup.Proofs.Transform.Literals

/-!
# VueSetup.Proofs.Tidy.Script

Tidying a script that can be read.

The literals of such a script are texts in quotes (`Script.isMultiline_of_mem`), so that all that
holds of a text with such literals holds of the script: what is lost of its lines is white space
outside of them (`tidy_keeps`). The script ends with a single line break but for one case, the
literal on the last line that is not blank. That line is kept along with the end that it has, or has
not (`tidy_endsOnce_iff`, `tidy_openTemplate`).
-/

namespace VueSetup

open Script (Dialect Program)
open Text (Line byteSize feeds)

variable {dialect : Dialect} {source : String} {program : Program}

/-! ### The literals of a script

A script that is read has its strings and templates as nodes, and each starts and ends with its
quote. -/

/-- The literals of a script over several lines are texts in quotes. -/
theorem Script.isMultiline_of_mem (hprogram : Program.parse? dialect source = some program)
    {l : Span}
    (hl : l ∈ Script.multilineLiterals program source.toList) :
    Script.IsMultiline source.toList l := by
  have hliteral := isLiteral_of_mem hprogram hl
  have hslice := Text.slice?_eq_between hliteral.start_isBoundary hliteral.stop_isBoundary
    (Nat.le_of_lt hliteral.start_lt_stop)
  have hfeed : '\n' ∈ Text.between source.toList l.start l.stop := by
    simpa [Script.holdsLineFeed] using (List.mem_filter.mp hl).2
  generalize Text.between source.toList l.start l.stop = literal at hslice hfeed
  obtain ⟨before, behind, hsource, hbefore, hsize⟩ := Text.slice?_eq_some_iff.mp hslice
  refine ⟨literal, hslice, hfeed, ?_, ?_⟩
  · obtain ⟨front, quote, rest, hopens, hfront, hquote⟩ := hliteral.quoted.opens
    rw [hsource, List.append_assoc] at hopens
    obtain ⟨-, hrest⟩ := Text.append_inj_of_byteSize_eq hopens (hbefore.trans hfront.symm)
    cases literal with
    | nil => cases hfeed
    | cons c literal => exact ⟨quote, by rw [(List.cons.inj hrest).1]; rfl, hquote⟩
  · obtain ⟨front, quote, rest, hcloses, hfront, hquote⟩ := hliteral.quoted.closes
    have hquoteSize := Script.utf8Size_of_isQuote hquote
    rw [hsource, List.append_cons] at hcloses
    obtain ⟨hlast, -⟩ := Text.append_inj_of_byteSize_eq hcloses (by
      simp only [Text.byteSize_append, Text.byteSize_cons, Text.byteSize_nil, hquoteSize]
      omega)
    obtain ⟨own, c, rfl⟩ := (List.eq_nil_or_concat' literal).resolve_left (List.ne_nil_of_mem hfeed)
    rw [← List.append_assoc] at hlast
    obtain ⟨-, hc⟩ := List.append_inj' hlast rfl
    exact ⟨quote, by simp [(List.cons.inj hc).1], hquote⟩

/-- Tidying a script is tidying its text with the literals that were read. -/
theorem toList_tidy (hprogram : Program.parse? dialect source = some program) (ending : LineBreak) :
    (tidy dialect ending source).toList =
      Tidy.text (Script.multilineLiterals program source.toList) ending.chars source.toList := by
  delta tidy
  rw [hprogram, String.toList_ofList]

/-! ### What is kept

So the lines of a script are kept as those of any text with such literals. -/

namespace Tidy

variable {literals : List Span} {cs : List Char} {kept : List Line}

/-- The text ends with the line break, and with no other one before it. -/
def EndsOnce (ending : LineBreak) (cs : List Char) : Prop :=
  ∃ front, cs = front ++ ending.chars ∧ front.getLast? ≠ some '\n'

/-- Where the last line is that is not blank, among those that are kept. -/
theorem Tidied.exists_last (h : Tidied literals (Line.ofText cs) kept) {line : Line}
    (hline : (solid literals (Line.ofText cs)).getLast? = some line) :
    ∃ front, kept = front ++ [line] ∨ ∃ blank, kind literals blank = .blank ∧
      Text.IsEnded line.text ∧ kept = front ++ [line, blank] := by
  rw [← h.solid_eq] at hline
  obtain ⟨front, rest, rfl, -, hrest⟩ := exists_of_getLast?_solid hline
  refine ⟨front, ?_⟩
  match rest, hrest with
  | [], _ => exact .inl rfl
  | [blank], hrest =>
    refine .inr ⟨blank, hrest blank List.mem_cons_self, ?_, rfl⟩
    have hlines := h.areLines
    rw [List.map_append, List.map_cons] at hlines
    rcases hlines.ended_or_last with hended | ⟨hnil, -⟩
    · exact hended
    · cases hnil
  | first :: second :: rest, hrest =>
    have hparted := (List.isChain_append.mp h.parted).2.1
    rw [List.isChain_cons_cons, List.isChain_cons_cons] at hparted
    exact absurd ⟨hrest first (by simp), hrest second (by simp)⟩ hparted.2.1

/-- A text ends once if and only if its last line ends with the line break, as long as that line is
firm. -/
theorem endsOnce_append_iff {line : Line} (hline : line ∈ Line.ofText cs) (hfirm : Firm line.text)
    (ending : LineBreak) (before : List Char) :
    EndsOnce ending (before ++ line.text) ↔ ending.chars <:+ line.text := by
  have hfeeds := Line.feeds_text_le hline
  obtain ⟨front, c, rest, htext, hfeed, hreturn, -⟩ := hfirm
  have hc := not_mem_chars hfeed hreturn ending
  constructor
  · rintro ⟨own, heq, -⟩
    have hsuffix : ending.chars <:+ (before ++ front) ++ c :: rest :=
      ⟨own, by rw [← heq, htext, List.append_assoc]⟩
    rw [htext]
    exact (suffix_of_suffix_append hc hsuffix).trans
      ((List.suffix_cons c rest).trans (List.suffix_append _ _))
  · rintro ⟨own, hown⟩
    have hne : own ≠ [] := by
      rintro rfl
      rw [List.nil_append] at hown
      exact hc (by simp [hown, htext])
    rw [← hown, Text.feeds_append, feeds_chars] at hfeeds
    have hnone : '\n' ∉ own := List.count_eq_zero.mp (by rw [← feeds]; omega)
    refine ⟨before ++ own, by rw [← hown, List.append_assoc], fun hlast => ?_⟩
    rw [List.getLast?_append_of_ne_nil _ hne] at hlast
    exact hnone (List.mem_of_getLast? hlast)

/-- Lines that are all blank are one line. -/
theorem Tidied.eq_singleton (h : Tidied literals (Line.ofText cs) kept) (hne : kept ≠ [])
    (hsolid : solid literals (Line.ofText cs) = []) :
    ∃ blank, kind literals blank = .blank ∧ kept = [blank] := by
  rw [← h.solid_eq, solid, List.filter_eq_nil_iff] at hsolid
  have hparted := h.parted
  rcases kept with _ | ⟨first, _ | ⟨second, rest⟩⟩
  · exact absurd rfl hne
  · exact ⟨first, by simpa using hsolid first, rfl⟩
  · rw [List.isChain_cons_cons] at hparted
    exact absurd ⟨by simpa using hsolid first, by simpa using hsolid second⟩ hparted.1

/-- A plain line ends with its line break, and there is no other one before that. -/
theorem endsOnce_of_plain {line : Line} (hline : kind literals line = .plain) (ending : LineBreak)
    (before : List Char) : EndsOnce ending (before ++ written literals ending.chars line) := by
  obtain ⟨front, c, hcontent, -, hfeed⟩ := exists_lineContent (isBlankText_of_plain hline)
  rw [written_of_plain hline, hcontent]
  exact ⟨before ++ (front ++ [c]), by simp, by simpa using hfeed⟩

/-- With a line break behind a line that ends, the text ends twice. -/
theorem not_endsOnce_of_isEnded {line : List Char} (h : Text.IsEnded line) (ending : LineBreak)
    (before : List Char) : ¬ EndsOnce ending (before ++ line ++ ending.chars) := by
  rintro ⟨front, heq, hfront⟩
  obtain ⟨rfl, -⟩ := List.append_inj' heq rfl
  obtain ⟨content, rfl, -⟩ := h
  exact hfront (by rw [← List.append_assoc, List.getLast?_concat])

/-- The last line that is not blank decides how a text ends. -/
theorem Tidied.endsOnce_iff (hkept : Tidied literals (Line.ofText cs) kept) (hne : kept ≠ [])
    (h : ∀ l ∈ literals, Script.IsMultiline cs l) {ending : LineBreak}
    (hdoubled : ¬ ending.chars ++ ending.chars <:+ kept.flatMap (written literals ending.chars)) :
    EndsOnce ending (kept.flatMap (written literals ending.chars)) ↔
      ∀ line ∈ (solid literals (Line.ofText cs)).getLast?, kind literals line = .literal →
        ending.chars <:+ line.text := by
  cases hlast : (solid literals (Line.ofText cs)).getLast? with
  | none =>
    obtain ⟨blank, hblank, rfl⟩ := hkept.eq_singleton hne (List.getLast?_eq_none_iff.mp hlast)
    rw [List.flatMap_singleton, written_of_blank hblank]
    exact iff_of_true ⟨[], rfl, by simp⟩ fun _ hline => by cases hline
  | some line =>
    have hfirm := firm_written h ending hlast
    obtain ⟨hmem, hsolid⟩ := List.mem_filter.mp (List.mem_of_getLast? hlast)
    have hone : (∀ line' ∈ some line, kind literals line' = .literal →
        ending.chars <:+ line'.text) ↔
        (kind literals line = .literal → ending.chars <:+ line.text) := by simp
    rw [hone]
    obtain ⟨front, rfl | ⟨blank, hblank, hended, rfl⟩⟩ := hkept.exists_last hlast
    · rw [List.flatMap_append, List.flatMap_singleton]
      cases hkind : kind literals line with
      | blank => exact absurd hkind (of_decide_eq_true hsolid)
      | plain => exact iff_of_true (endsOnce_of_plain hkind ending _) nofun
      | literal =>
        rw [written_of_literal hkind] at hfirm ⊢
        rw [endsOnce_append_iff hmem hfirm]
        exact ⟨fun hends _ => hends, fun hends => hends rfl⟩
    · -- the blank line stays only if there is no line break before it, although the line ends
      have hflat : (front ++ [line, blank]).flatMap (written literals ending.chars) =
          front.flatMap (written literals ending.chars) ++ written literals ending.chars line ++
            ending.chars := by
        simp [written_of_blank hblank]
      rw [hflat] at hdoubled ⊢
      have hnot : ¬ ending.chars <:+ written literals ending.chars line := by
        rintro ⟨own, hown⟩
        exact hdoubled ⟨front.flatMap (written literals ending.chars) ++ own, by simp [← hown]⟩
      cases hkind : kind literals line with
      | blank => exact absurd hkind (of_decide_eq_true hsolid)
      | plain =>
        rw [written_of_plain hkind] at hnot
        exact absurd (List.suffix_append _ _) hnot
      | literal =>
        rw [written_of_literal hkind] at hnot ⊢
        exact iff_of_false (not_endsOnce_of_isEnded hended ending _) fun hends => hnot (hends rfl)

end Tidy

/-- **When a tidied script ends once.** It ends with exactly one line break, unless the last of its
lines that are not blank has a part in a literal and ends in another way, or not at all. -/
theorem tidy_endsOnce_iff (hprogram : Program.parse? dialect source = some program)
    (ending : LineBreak) : Tidy.EndsOnce ending (tidy dialect ending source).toList ↔
      ∀ line ∈ (Tidy.solid (Script.multilineLiterals program source.toList)
          (Line.ofText source.toList)).getLast?,
        Tidy.kind (Script.multilineLiterals program source.toList) line = .literal →
          ending.chars <:+ line.text := by
  have hliterals := fun l hl => Script.isMultiline_of_mem hprogram (l := l) hl
  rw [toList_tidy hprogram]
  by_cases hsource : source = ""
  · subst hsource
    refine iff_of_true ⟨[], Tidy.text_nil ending, by simp⟩ fun line hline => ?_
    cases hline
  · obtain ⟨kept, hkept, hne, htext, hdoubled⟩ := Tidy.exists_tidied hliterals ending
      (mt String.toList_eq_nil_iff.mp hsource)
    rw [htext] at hdoubled ⊢
    exact hkept.endsOnce_iff hne hliterals hdoubled

/-- A template on the last line, and blank lines behind it. -/
def closedTemplate : String :=
  "const a = \x60x\n y\x60\n\n  \n"

theorem tidy_endsOnce_iff_closedTemplate : ∃ program,
    Program.parse? ⟨false, false⟩ closedTemplate = some program ∧
    Tidy.EndsOnce .feed (tidy ⟨false, false⟩ .feed closedTemplate).toList ∧
    (∃ line ∈ (Tidy.solid (Script.multilineLiterals program closedTemplate.toList)
        (Line.ofText closedTemplate.toList)).getLast?,
      Tidy.kind (Script.multilineLiterals program closedTemplate.toList) line = .literal) ∧
    ∀ line ∈ (Tidy.solid (Script.multilineLiterals program closedTemplate.toList)
        (Line.ofText closedTemplate.toList)).getLast?,
      Tidy.kind (Script.multilineLiterals program closedTemplate.toList) line = .literal →
        LineBreak.feed.chars <:+ line.text := by
  have hrun : ((Program.parse? ⟨false, false⟩ closedTemplate).map fun program =>
      Script.multilineLiterals program closedTemplate.toList) = some [⟨10, 16⟩] := by
    decide +kernel
  obtain ⟨program, hprogram, hliterals⟩ := Option.map_eq_some_iff.mp hrun
  have htidy : tidy ⟨false, false⟩ .feed closedTemplate = "const a = \x60x\n y\x60\n" := by
    decide +kernel
  have hends : Tidy.EndsOnce .feed (tidy ⟨false, false⟩ .feed closedTemplate).toList := by
    rw [htidy]
    exact ⟨"const a = \x60x\n y\x60".toList, by decide +kernel, by decide +kernel⟩
  have hlast : (Tidy.solid [⟨10, 16⟩] (Line.ofText closedTemplate.toList)).getLast? =
      some ⟨13, " y\x60\n".toList⟩ := by
    decide +kernel
  refine ⟨program, hprogram, hends, ?_, (tidy_endsOnce_iff hprogram .feed).mp hends⟩
  rw [hliterals, hlast]
  exact ⟨_, rfl, by decide +kernel⟩

/-- A template that the script ends with. -/
def openTemplate : String :=
  "const a = \x60x\ny\x60"

/-- The line on which the template ends is kept without an end, and so is the code of a component
with the template behind it. -/
theorem tidy_openTemplate :
    (Program.parse? ⟨false, false⟩ openTemplate).isSome = true ∧
    tidy ⟨false, false⟩ .feed openTemplate = openTemplate ∧
    ¬ Tidy.EndsOnce .feed openTemplate.toList ∧
    (Transformation.scriptSetup.runScript ⟨false, false⟩ {}
      ("export default defineComponent(\x7b\x7d)\n" ++ openTemplate)).toOption =
        some ⟨openTemplate, true, false, []⟩ := by
  refine ⟨by decide +kernel, by decide +kernel, ?_, by decide +kernel⟩
  rintro ⟨front, heq, -⟩
  have hlast := congrArg List.getLast? heq
  rw [LineBreak.chars, List.getLast?_concat] at hlast
  revert hlast
  decide +kernel

end VueSetup
