import VueSetup.Proofs.Pass.Sealed
import VueSetup.Proofs.Script.Settled
import VueSetup.Proofs.Transform.Outcome

/-!
# VueSetup.Proofs.Transform.Closing

A transformation does not close the script that it rewrites (`runScript_tagFree`).

Wherever texts are joined, the first of them is sealed. The cuts at the export and at the imports
that are dropped fall at clear offsets, declarations are sealed, and tidied lines end with a line
feed. Two joins are not of this kind, and there the tag can come about (`runScript_closes`):
`KeepsOpen` asks that it does not.

Text that is cut keeps free of the tag if the cut falls at a clear offset: one before which the text
does not end inside of the tag. Exports start at such offsets, and so do imports and the names in
them (`Script.Program.standsClear_of_parse?`).
-/

namespace VueSetup

open Script (Dialect ImportSpecifier Node Program)
open Text

/-! ### Dropping imports

A name is taken out of an import, or the import itself. What stood before the stretch and behind it
meet then, and the stretch has to start at a clear offset. -/

/-- A stretch that starts at a clear offset can be taken out. -/
theorem Draft.tagFree_remove {source code : String} {span : Span} (hfree : TagFree source.toList)
    (hclear : IsClear source.toList span.start)
    (h : (Draft.remove { source } span).render? = some code) : TagFree code.toList := by
  simp only [render?, renderRange?, Draft.remove, overwrite, record, insertionsIn, replacementsIn,
    Nat.zero_le, if_true, List.nil_append, List.filterMap_cons, List.filterMap_nil, decide_true,
    Bool.true_and, List.mergeSort_nil] at h
  obtain ⟨out, hout, rfl⟩ := Option.map_eq_some_iff.mp h
  rw [String.toList_ofList]
  split at hout
  · simp [layout, layInsertions, endOfInsertions, assemble?] at hout
    exact hfree.slice? hout
  · next hin =>
    split at hin
    · cases hin
      rw [List.mergeSort_singleton, layout, if_neg (Nat.not_lt_zero _)] at hout
      obtain ⟨front, hfront, hout⟩ := Option.bind_eq_some_iff.mp hout
      obtain ⟨behind, hbehind, hout⟩ := Option.bind_eq_some_iff.mp hout
      cases hout
      simp [layout, layInsertions, endOfInsertions, assemble?] at hbehind
      have hsealed := hclear.sealed_slice? hfree hfront
      exact hsealed.append_tagFree (hfree.slice? hbehind)
    · cases hin

namespace Import

/-- What is taken out starts where a declaration or a name does, or where a name ends. -/
theorem isClear_removalRange {src : List Char} {span : Span} {specifiers : List ImportSpecifier}
    {parts : List Node} (h : (Node.importDeclaration span specifiers parts).StandsClear src)
    (index : Nat) : IsClear src (removalRange src span specifiers index).start := by
  have hline : IsClear src (declarationLine src span).start := by
    unfold declarationLine
    dsimp only
    split
    · split <;> exact h.1
    · exact h.1
  unfold removalRange
  split
  · next spec hspec =>
    have hmem := List.mem_of_getElem? hspec
    have hgetD : ∀ found : Option ImportSpecifier, (∀ s, found = some s → s ∈ specifiers) →
        found.getD spec ∈ specifiers := by
      intro found hfound
      cases found with
      | none => exact hmem
      | some s => exact hfound s rfl
    split
    · unfold specifierRange
      dsimp only
      split
      · exact (h.2 spec hmem).1
      · split
        · exact (h.2 _ (hgetD _ fun s hs => List.mem_of_head? hs)).2
        · split
          · exact (h.2 spec hmem).1
          · exact (h.2 _ (hgetD _ fun s hs => List.mem_of_getElem? hs)).2
    · exact hline
  · exact hline

/-- The import that is found is a statement of the script. -/
theorem exists_of_find? {program : Program} {name : String} {span : Span}
    {specifiers : List ImportSpecifier} {index : Nat}
    (h : find? program name = some (span, specifiers, index)) :
    ∃ parts, Node.importDeclaration span specifiers parts ∈ program.statements := by
  obtain ⟨n, hn, h⟩ := List.exists_of_findSome?_eq_some h
  cases n
  case importDeclaration =>
    obtain ⟨index, -, h⟩ := Option.map_eq_some_iff.mp h
    cases h
    exact ⟨_, hn⟩
  all_goals cases h

/-- Taking an import out makes no tag. -/
theorem tagFree_removeUnused? {dialect : Dialect} {name source code : String}
    (hfree : TagFree source.toList) (h : removeUnused? dialect name source = some code) :
    TagFree code.toList := by
  obtain ⟨program, hprogram, h⟩ := Option.bind_eq_some_iff.mp h
  obtain ⟨⟨span, specifiers, index⟩, hfound, h⟩ := Option.bind_eq_some_iff.mp h
  dsimp only at h
  split at h
  · cases h
  obtain ⟨parts, hmem⟩ := exists_of_find? hfound
  have hclear := isClear_removalRange (Program.standsClear_of_parse? hprogram hmem) index
  exact Draft.tagFree_remove hfree hclear h

end Import

/-! ### Tidying lines

Trimmed lines are parts of the lines of the script, and each ends with a line break. Lines of
literals stay with what they end with. -/

/-- A line ends with a line feed, or it is the last one; behind it stand the lines of the rest. -/
theorem Text.linesWithEnds_eq_cons {cs line : List Char} {rest : List (List Char)}
    (h : linesWithEnds cs = line :: rest) :
    (rest = [] ∨ ∃ front, line = front ++ ['\n']) ∧ linesWithEnds rest.flatten = rest := by
  induction cs generalizing line with
  | nil => cases h
  | cons c cs ih =>
    rw [linesWithEnds] at h
    split at h
    · next hc =>
      cases h
      exact ⟨.inr ⟨[], by rw [hc]; rfl⟩, by rw [flatten_linesWithEnds]⟩
    · split at h
      · cases h
        exact ⟨.inl rfl, rfl⟩
      · next front lines hlines =>
        cases h
        obtain ⟨hend, hrest⟩ := ih hlines
        refine ⟨hend.imp_right ?_, hrest⟩
        rintro ⟨front, rfl⟩
        exact ⟨c :: front, rfl⟩

namespace Tidy

/-- A line break seals what stands before it. -/
theorem sealed_append_chars {cs : List Char} (h : TagFree cs) (ending : LineBreak) :
    Sealed (cs ++ ending.chars) := by
  cases ending with
  | feed => exact h.append_sealed (by decide) (by decide)
  | returnFeed => exact h.append_sealed (by decide) (by decide)

/-- The content of a line is its front. -/
theorem isPrefix_lineContent (line : List Char) : lineContent line <+: line := by
  rw [lineContent, dropEndWhile, ← List.reverse_suffix, List.reverse_reverse]
  exact List.dropWhile_suffix _

/-- The loop over the lines makes no tag. -/
theorem tagFree_lines (literals : List Span) (ending : LineBreak) {cs : List Char}
    {ls : List (List Char)} (hlines : linesWithEnds cs = ls) (hfree : TagFree cs) (start : Nat)
    (blank : Bool) : TagFree (lines literals ending.chars start blank ls) := by
  induction ls generalizing cs start blank with
  | nil => exact sealed_nil.free
  | cons line rest ih =>
    obtain ⟨hend, hrest⟩ := linesWithEnds_eq_cons hlines
    have hcs : cs = line ++ rest.flatten := by
      rw [← flatten_linesWithEnds cs, hlines, List.flatten_cons]
    have hline : TagFree line := hfree.of_infix (hcs ▸ (List.prefix_append _ _).isInfix)
    have hbehind := ih hrest (hfree.of_infix (hcs ▸ (List.suffix_append _ _).isInfix))
    rw [lines]
    dsimp only
    split
    · -- a line that is kept as it is has its line feed, unless nothing follows it
      rcases hend with rfl | ⟨front, rfl⟩
      · simpa [lines] using hline
      · have hfront := hline.of_infix (List.prefix_append front ['\n']).isInfix
        have hsealed := hfront.append_sealed (by decide) (by decide : Sealed ['\n'])
        exact hsealed.append_tagFree (hbehind _ _)
    · split
      · split
        · exact hbehind _ _
        · have hsealed := sealed_append_chars sealed_nil.free ending
          exact hsealed.append_tagFree (hbehind _ _)
      · have hcontent := hline.of_infix (isPrefix_lineContent line).isInfix
        have hsealed := sealed_append_chars hcontent ending
        exact hsealed.append_tagFree (hbehind _ _)

/-- What is left is the end of the text, which is given in reverse. -/
theorem dropDoubled_suffix (ending : List Char) (n : Nat) (cs : List Char) :
    dropDoubled ending n cs <:+ cs := by
  induction n generalizing cs with
  | zero => exact List.suffix_refl _
  | succ n ih =>
    rw [dropDoubled]
    split
    · exact (ih _).trans (List.drop_suffix _ _)
    · exact List.suffix_refl _

/-- Tidied text holds no tag if the text did not. -/
theorem tagFree_text (literals : List Span) (ending : LineBreak) {cs : List Char}
    (h : TagFree cs) : TagFree (text literals ending.chars cs) := by
  have hlines := tagFree_lines literals ending rfl h 0 false
  rw [text, finish]
  split
  · exact (sealed_append_chars sealed_nil.free ending).free
  · refine hlines.of_infix (List.IsPrefix.isInfix ?_)
    rw [← List.reverse_suffix, List.reverse_reverse]
    exact dropDoubled_suffix _ _ _

end Tidy

/-- The same of a script. -/
theorem tagFree_tidy (dialect : Dialect) (ending : LineBreak) {source : String}
    (h : TagFree source.toList) : TagFree (tidy dialect ending source).toList := by
  delta tidy
  split
  · exact h
  · rw [String.toList_ofList]
    exact Tidy.tagFree_text _ ending h

/-! ### Declarations

In the place of the export stand declarations, which are sealed. Behind an import stand bindings,
which start with a line feed each and may end with anything. -/

/-- What a pass inserts into a draft that holds nothing but declarations. -/
theorem Pass.sealed_insertion? {pass : Pass} {program : Program} {options : Options} {d : Draft}
    {source text : String} {c : Component}
    (hpass : ∀ r, pass program options d = some r → r.draft.Declares source c)
    (h : Pass.insertion? pass program options d = some text) : Sealed text.toList := by
  obtain ⟨r, hr, rfl⟩ := Option.map_eq_some_iff.mp h
  refine sealed_join fun text htext => ?_
  obtain ⟨i, hi, rfl⟩ := List.mem_map.mp htext
  exact ((hpass r hr).insertion i (List.mem_of_mem_drop hi)).2

/-- An export starts where the text does not stand inside of a tag. -/
theorem Component.isClear_wrapper {dialect : Dialect} {source : String} {program : Program}
    {c : Component} (hprogram : Program.parse? dialect source = some program)
    (hc : Component.locate? program = some c) : IsClear source.toList c.wrapper.start := by
  obtain ⟨n, hn, hc⟩ := exists_of_locate? hc
  have hclear := Program.standsClear_of_parse? hprogram hn
  cases n
  case exportDefault wrapper value =>
    simp only [ofStatement?] at hc
    split at hc
    · cases hc
      exact hclear
    · cases hc
  all_goals cases hc

namespace Transformation

/-- Several imports are taken out, one after the other. -/
theorem tagFree_dropImports (dialect : Dialect) (names : List String) {code : String}
    (h : TagFree code.toList) : TagFree (dropImports dialect names code).toList := by
  unfold dropImports
  induction names generalizing code with
  | nil => exact h
  | cons name names ih =>
    rw [List.foldl_cons]
    refine ih ?_
    cases hcode : Import.removeUnused? dialect name code with
    | none => exact h
    | some code' => exact Import.tagFree_removeUnused? h hcode

/-- Bindings behind an import start with a line feed each, so that the end of the last one is all
that meets the text behind them. -/
theorem sealed_append_bindings {cs : List Char} (hcs : TagFree cs) {bindings : List String}
    (hbindings : ∀ b ∈ bindings, TagFree b.toList) (hne : bindings ≠ [])
    (hlast : ∀ b ∈ bindings.getLast?, ¬ EndsInTag b.toList) :
    Sealed (cs ++ (String.join (bindings.map ("\n" ++ ·))).toList) := by
  induction bindings generalizing cs with
  | nil => exact absurd rfl hne
  | cons b bs ih =>
    have hb := hbindings b List.mem_cons_self
    have hfeed : Sealed ['\n'] := by decide
    cases bs with
    | nil =>
      have hsealed := hfeed.append ⟨hb, hlast b rfl⟩
      simpa using hcs.append_sealed (by decide) hsealed
    | cons b' bs =>
      have hfront : TagFree (cs ++ '\n' :: b.toList) := by
        simpa using (hcs.append_sealed (by decide) hfeed).append_tagFree hb
      have hrest := ih hfront (fun b hb => hbindings b (List.mem_cons_of_mem _ hb))
        (List.cons_ne_nil _ _) (fun b hb => hlast b (by simpa using hb))
      simpa using hrest

/-- No tag comes about where declarations and bindings are put in. -/
theorem tagFree_arrangement {source : String} {line : Span} {lastImport? : Option Span}
    {bindings : List String} {declarations : String} (hfree : TagFree source.toList)
    (hclear : IsClear source.toList line.start) (hstop : IsBoundary source.toList line.stop)
    (himport : ∀ span, lastImport? = some span → IsBoundary source.toList span.stop ∧
      (span.stop ≤ line.start ∨ line.stop ≤ span.stop))
    (hbindings : ∀ b ∈ bindings, TagFree b.toList)
    (hlast : lastImport?.isSome = true → ∀ b ∈ bindings.getLast?, ¬ EndsInTag b.toList)
    (hdeclarations : Sealed declarations.toList) :
    TagFree (arrangement source line lastImport? bindings declarations).toList := by
  have hstart : IsBoundary source.toList line.start := by
    obtain ⟨before, behind, hsource, hsize, -⟩ := hclear
    exact ⟨before, behind, hsource, hsize⟩
  have hend : IsBoundary source.toList source.utf8ByteSize := by
    rw [utf8ByteSize_eq]
    exact isBoundary_byteSize _
  have hbefore := hclear.sealed_between hfree 0
  have hbehind := hfree.between line.stop source.utf8ByteSize
  unfold arrangement
  cases lastImport? with
  | none =>
    have hjoined : Sealed (String.join (bindings.map (· ++ "\n"))).toList := by
      refine sealed_join fun text htext => ?_
      obtain ⟨b, hb, rfl⟩ := List.mem_map.mp htext
      simpa using (hbindings b hb).append_sealed (by decide) (by decide : Sealed ['\n'])
    have hfront := (hbefore.append hjoined).append hdeclarations
    simpa [toList_cut] using hfront.append_tagFree hbehind
  | some span =>
    obtain ⟨hboundary, happart⟩ := himport span rfl
    have hlast := hlast rfl
    dsimp only
    split
    · next hle =>
      -- Without bindings the two parts around the import are one part of the script again.
      have hfront : Sealed (between source.toList 0 span.stop ++
          (String.join (bindings.map ("\n" ++ ·))).toList ++
          between source.toList span.stop line.start) := by
        by_cases hne : bindings = []
        · simpa [hne, ← between_append (isBoundary_zero _) hboundary hstart (Nat.zero_le _) hle]
            using hbefore
        · exact (sealed_append_bindings (hfree.between _ _) hbindings hne hlast).append
            (hclear.sealed_between hfree _)
      simpa [toList_cut] using (hfront.append hdeclarations).append_tagFree hbehind
    · next hlt =>
      -- The import stands behind the line, so that the declarations come first.
      have hle := happart.resolve_left hlt
      have hback : TagFree (between source.toList line.stop span.stop ++
          (String.join (bindings.map ("\n" ++ ·))).toList ++
          between source.toList span.stop source.utf8ByteSize) := by
        by_cases hne : bindings = []
        · have hsize : span.stop ≤ source.utf8ByteSize := by
            rw [utf8ByteSize_eq]
            exact hboundary.le_byteSize
          simpa [hne, ← between_append hstop hboundary hend hle hsize] using hbehind
        · exact (sealed_append_bindings (hfree.between _ _) hbindings hne hlast).append_tagFree
            (hfree.between _ _)
      simpa [toList_cut] using (hbefore.append hdeclarations).append_tagFree hback

/-! ### The whole script

Two hypotheses are left of all this, one for each place where the tag can come about. -/

/-- The two places where a transformation could close the script. The key of a prop is written as it
reads and not as it is spelled, so it must not read as the tag. A binding is written right behind
the last import, whatever else stands on that line, so the last binding must not end inside of the
tag. -/
structure KeepsOpen (t : Transformation) (program : Program) (c : Component) (options : Options)
    (source : String) : Prop where
  keys : Pass.declaresTypes program options = true →
    ∀ r ∈ PropTable.ofComponent source.toList c, TagFree r.key.toList
  bindings : t = scriptSetup → (Pass.lastImport? program).isSome = true →
    ∀ b ∈ (Pass.componentBindings source c).getLast?, ¬ EndsInTag b.toList

instance (t : Transformation) (program : Program) (c : Component) (options : Options)
    (source : String) : Decidable (t.KeepsOpen program c options source) :=
  decidable_of_iff (_ ∧ _) ⟨fun h => ⟨h.1, h.2⟩, fun h => ⟨h.keys, h.bindings⟩⟩

/-- What is rendered holds no tag. -/
theorem tagFree_of_rendered? {t : Transformation} {dialect : Dialect} {source : String}
    {program : Program} {c : Component} {options : Options} {r : Rendered}
    (hprogram : Program.parse? dialect source = some program)
    (hc : Component.locate? program = some c) (hfree : TagFree source.toList)
    (hopen : t.KeepsOpen program c options source)
    (hr : t.rendered? program c options source = some r) : TagFree r.code.toList := by
  have h := Component.inScript_of_parse? hprogram hc
  have hclear := Component.isClear_wrapper hprogram hc
  have hfresh := Draft.declares_fresh source c
  obtain ⟨props, events, callees, setup?, hrecorded⟩ := exists_recorded h options
  have hprops : Sealed (String.join props).toList :=
    Pass.sealed_insertion? (fun _ => Pass.declares_props h hfree hopen.keys hfresh)
      hrecorded.props_alone
  have hcode := congrArg (Option.map Rendered.code) hr
  cases t with
  | defineProps =>
    rw [code_defineProps h hrecorded, Option.map_some] at hcode
    have hfront := (hclear.sealed_between hfree 0).append hprops
    rw [← Option.some.inj hcode]
    simpa [toList_cut] using hfront.append_tagFree (hfree.between _ _)
  | scriptSetup =>
    rw [code_scriptSetup h hrecorded, Option.map_some] at hcode
    obtain ⟨setup, rfl, harranged⟩ := Option.map_eq_some_iff.mp hcode
    have hevents : Sealed (String.join events).toList :=
      Pass.sealed_insertion? (fun _ => Pass.declares_emits h hfree hfresh) hrecorded.emits_alone
    have hsetup : Sealed (String.join setup).toList := by
      obtain ⟨emitted, hemitted, htext⟩ := Option.bind_eq_some_iff.mp hrecorded.setup_behind_emits
      have hdeclares := Pass.declares_emits h hfree hfresh hemitted
      exact Pass.sealed_insertion? (fun _ => Pass.declares_setup h hfree hdeclares) htext
    obtain ⟨hstop, hline, hshort⟩ := wrapperLine_stop h
    rw [← harranged]
    refine tagFree_arrangement hfree hclear hstop (fun span hspan => ?_)
      (fun b hb => Pass.tagFree_of_mem_componentBindings hfree hb) (hopen.bindings rfl) ?_
    · obtain ⟨hboundary, happart⟩ := h.lastImport span hspan
      exact ⟨hboundary, happart.imp_right (Nat.le_trans hshort)⟩
    · simpa only [String.join_append, String.toList_append] using
        (hprops.append hevents).append hsetup

/-- **A transformation does not close its own script.** Of every script that does not hold the
closing tag, in whichever case, no transformation makes one that does, as long as no key of a prop
reads as the tag and the last binding behind an import does not end inside of it. -/
theorem runScript_tagFree {t : Transformation} {dialect : Dialect} {options : Options}
    {source : String} {outcome : ScriptOutcome} (hfree : TagFree source.toList)
    (hopen : ∀ program c, Program.parse? dialect source = some program →
      Component.locate? program = some c → t.KeepsOpen program c options source)
    (hrun : t.runScript dialect options source = .ok outcome) : TagFree outcome.code.toList := by
  delta runScript at hrun
  split at hrun
  · cases hrun
  next program hprogram =>
  split at hrun
  · cases hrun
    exact hfree
  next c hc =>
  split at hrun
  · cases hrun
  next r hr =>
  have hrendered := tagFree_of_rendered? hprogram hc hfree (hopen program c hprogram hc) hr
  split at hrun
  · cases hrun
    refine tagFree_tidy _ _ ?_
    split
    · exact tagFree_dropImports _ _ hrendered
    · exact hrendered
  · cases hrun
    exact hfree

/-- A key that ends inside of the tag, an import with code behind it on its line, and a comparison
with a pattern that goes on like the tag. -/
def nearlyClosing : String :=
  "import a, \x7b b \x7d from 'a'; a < /script>/\n" ++
  "export default defineComponent(\x7b components: \x7b B: b() \x7d,\n" ++
  "  props: \x7b '<\\/script': String \x7d, setup() \x7b a < /script>/ \x7d \x7d)\n"

theorem runScript_tagFree_nearlyClosing : ∃ program c outcome,
    TagFree nearlyClosing.toList ∧
    Program.parse? ⟨false, false⟩ nearlyClosing = some program ∧
    Component.locate? program = some c ∧ scriptSetup.KeepsOpen program c {} nearlyClosing ∧
    scriptSetup.runScript ⟨false, false⟩ {} nearlyClosing = .ok outcome ∧ outcome.changed = true ∧
    TagFree outcome.code.toList := by
  have hfree : TagFree nearlyClosing.toList := by
    delta nearlyClosing
    rw [String.toList_append, String.toList_append, String.toList_ofList, String.toList_ofList,
      String.toList_ofList]
    decide +kernel
  have hall : (Program.parse? ⟨false, false⟩ nearlyClosing).any (fun program =>
      (Component.locate? program).any (fun c =>
        decide (scriptSetup.KeepsOpen program c {} nearlyClosing)) &&
      (Pass.setup program {} { source := nearlyClosing }).isSome) = true := by
    decide +kernel
  obtain ⟨program, hprogram, hboth⟩ := (Option.any_eq_true _ _).mp hall
  rw [Bool.and_eq_true] at hboth
  obtain ⟨c, hc, hopen⟩ := (Option.any_eq_true _ _).mp hboth.1
  have hopen := of_decide_eq_true hopen
  obtain ⟨outcome, hrun, hchanged⟩ := runScript_outcome hprogram fun _ => hboth.2
  have hwork := hchanged.mpr ⟨by rw [hc]; rfl, .inl rfl⟩
  refine ⟨program, c, outcome, hfree, hprogram, hc, hopen, hrun, hwork,
    runScript_tagFree hfree (fun program' c' hprogram' hc' => ?_) hrun⟩
  rw [hprogram, Option.some.injEq] at hprogram'
  subst hprogram'
  rw [hc, Option.some.injEq] at hc'
  exact hc' ▸ hopen

/-- A prop whose key reads as the tag, though it is not spelled so. -/
def closingKey : String :=
  "export default defineComponent(\x7b props: \x7b '<\\/script>': String \x7d \x7d)\n"

/-- A registered component whose value ends like the start of the tag, and an import with the rest
of the tag behind it. -/
def closingBinding : String :=
  "import x from 'y';script>1\n" ++
  "export default defineComponent(\x7b components: \x7b A: /</ \x7d \x7d)\n"

theorem code_closingKey : (scriptSetup.runScript ⟨false, false⟩ {} closingKey).toOption.map
    ScriptOutcome.code = some ("type Props = \x7b\n  '</script>'?: string\n\x7d\n" ++
      "const props = defineProps<Props>()\n") := by
  decide +kernel

theorem code_closingBinding : (scriptSetup.runScript ⟨false, false⟩ {} closingBinding).toOption.map
    ScriptOutcome.code = some "import x from 'y';\nconst A = /</script>1\n" := by
  decide +kernel

/-- A key is written in quotes as it reads, and a binding is written before the code that follows an
import: both can close the script. -/
theorem runScript_closes :
    (TagFree closingKey.toList ∧ ∃ outcome,
      scriptSetup.runScript ⟨false, false⟩ {} closingKey = .ok outcome ∧
      outcome.code = "type Props = \x7b\n  '</script>'?: string\n\x7d\n" ++
        "const props = defineProps<Props>()\n" ∧
      ¬ TagFree outcome.code.toList) ∧
    (TagFree closingBinding.toList ∧ ∃ outcome,
      scriptSetup.runScript ⟨false, false⟩ {} closingBinding = .ok outcome ∧
      outcome.code = "import x from 'y';\nconst A = /</script>1\n" ∧
      ¬ TagFree outcome.code.toList) := by
  constructor
  · obtain ⟨outcome, hrun, hcode⟩ := Option.map_eq_some_iff.mp code_closingKey
    refine ⟨?_, outcome, eq_ok_of_toOption hrun, hcode, ?_⟩
    · delta closingKey
      rw [String.toList_ofList]
      decide +kernel
    · rw [hcode, String.toList_append, String.toList_ofList, String.toList_ofList]
      decide +kernel
  · obtain ⟨outcome, hrun, hcode⟩ := Option.map_eq_some_iff.mp code_closingBinding
    refine ⟨?_, outcome, eq_ok_of_toOption hrun, hcode, ?_⟩
    · delta closingBinding
      rw [String.toList_append, String.toList_ofList, String.toList_ofList]
      decide +kernel
    · rw [hcode, String.toList_ofList]
      decide +kernel

end Transformation

end VueSetup
