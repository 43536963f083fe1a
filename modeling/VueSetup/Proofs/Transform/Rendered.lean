import VueSetup.Proofs.Pass.Setup
import VueSetup.Transform.Script

/-!
# VueSetup.Proofs.Transform.Rendered

The text of a script with all edits made, before imports are dropped and lines are tidied
(`rendered?_eq_arrangement`).

All declarations stand where the component's export stood, or behind the last import, and each is
the one that its pass makes alone. Of the calls of `emit` that were rewritten inside of the export
nothing is left but what the statements of `setup` took along.
-/

namespace VueSetup

open Script (Dialect Laid Node Program)
open Text (IsBoundary)

/-- The text that a pass inserts into a draft, apart from what it replaces. -/
def Pass.insertion? (pass : Pass) (program : Program) (options : Options) (d : Draft) :
    Option String :=
  (pass program options d).map fun r =>
    String.join ((r.draft.insertions.drop d.insertions.length).map (·.text))

namespace Transformation

/-- The text that the statements of `setup` become when only the events are declared before. -/
def setupText? (program : Program) (options : Options) (source : String) : Option String := do
  let r ← Pass.emits program options { source }
  Pass.insertion? Pass.setup program options r.draft

/-- The part of a script between two offsets. -/
def cut (source : String) (start stop : Nat) : String :=
  String.ofList (Text.between source.toList start stop)

/-- A script in which declarations take the place of a line, with bindings behind the last import
or, without imports, before the declarations. -/
def arrangement (source : String) (line : Span) (lastImport? : Option Span)
    (bindings : List String) (declarations : String) : String :=
  let size := source.utf8ByteSize
  match lastImport? with
  | none =>
    cut source 0 line.start ++ String.join (bindings.map (· ++ "\n")) ++ declarations ++
      cut source line.stop size
  | some span =>
    if span.stop ≤ line.start then
      cut source 0 span.stop ++ String.join (bindings.map ("\n" ++ ·)) ++
        cut source span.stop line.start ++ declarations ++ cut source line.stop size
    else
      cut source 0 line.start ++ declarations ++ cut source line.stop span.stop ++
        String.join (bindings.map ("\n" ++ ·)) ++ cut source span.stop size

/-! ### Texts

The line of an export ends behind one line break at most. -/

/-- A part of a script, as characters. -/
theorem toList_cut (source : String) (start stop : Nat) :
    (cut source start stop).toList = Text.between source.toList start stop :=
  String.toList_ofList

/-- A line break is a front part of a text, of at most two bytes. -/
theorem lineBreakSize_eq (cs : List Char) : Import.lineBreakSize cs ≤ 2 ∧
    ∃ before behind, cs = before ++ behind ∧ Text.byteSize before = Import.lineBreakSize cs := by
  unfold Import.lineBreakSize
  split
  · next rest => exact ⟨by decide, ['\r', '\n'], rest, rfl, by decide⟩
  · next rest => exact ⟨by decide, ['\n'], rest, rfl, by decide⟩
  · exact ⟨by decide, [], cs, rfl, rfl⟩

/-- The line of an export ends between characters. -/
theorem isBoundary_wrapperLine {src : List Char} {wrapper : Span}
    (h : IsBoundary src wrapper.stop) : IsBoundary src (wrapperLine src wrapper).stop := by
  obtain ⟨before, behind, rfl, hsize⟩ := h
  obtain ⟨-, lineBreak, rest, rfl, hbreak⟩ := lineBreakSize_eq behind
  refine ⟨before ++ lineBreak, rest, by simp, ?_⟩
  simp only [wrapperLine]
  rw [← hsize, Text.suffixFrom_append, Text.byteSize_append, hbreak]

/-! ### Drafts

The passes of a transformation record their edits one after the other on the same draft. Each is
compared with what it records on a fresh one, where it is run alone. -/

section

variable {source : String} {program : Program} {c : Component}

/-- An edit outside of the export, or on an end of it. -/
def IsOutside (wrapper : Span) (e : Edit) : Prop :=
  ∃ offset text, e = .insert offset text ∧ (offset ≤ wrapper.start ∨ wrapper.stop ≤ offset)

/-- Such an edit does not lie in what is inside of the export. -/
theorem IsOutside.isIn {wrapper span : Span} {e : Edit} (h : IsOutside wrapper e)
    (hlo : wrapper.start ≤ span.start) (hhi : span.stop ≤ wrapper.stop) : e.isIn span = false := by
  obtain ⟨offset, text, rfl, houtside⟩ := h
  exact Pass.isIn_insert_of_outside text hlo hhi houtside

/-- What stands right before the export is outside of it. -/
theorem isOutside_insert (wrapper : Span) (text : String) :
    IsOutside wrapper (.insert wrapper.start text) :=
  ⟨_, _, rfl, .inl (Nat.le_refl _)⟩

/-- So are bindings of registered components. -/
theorem isOutside_bindingEdit (h : c.InScript source program) (binding : String) :
    IsOutside c.wrapper (Pass.bindingEdit program c binding) := by
  unfold Pass.bindingEdit
  split
  · next span hspan =>
    have happart := (h.lastImport span hspan).2
    exact ⟨_, _, rfl, by omega⟩
  · exact isOutside_insert _ _

/-- Edits outside of the export leave the values of the options as they are. -/
theorem untouched_of_isOutside (h : c.InScript source program) {es : List Edit}
    (hes : ∀ e ∈ es, IsOutside c.wrapper e) {name : String} {p : Property}
    (hp : c.property? name = some p) :
    (Draft.recordAll { source } es).Untouched p.value.span := by
  have hs := (h.liesIn.property hp).sits
  refine (Draft.untouched_fresh source _).recordAll fun e he => ?_
  exact (hes e he).isIn (Nat.le_of_succ_le hs.lo_le) hs.le_hi

/-- What a pass inserts that adds given edits. -/
theorem insertion?_of_recordAll {pass : Pass} {options : Options} {d : Draft} {es : List Edit}
    {produced : Bool} (h : pass program options d = some ⟨d.recordAll es, produced⟩) :
    Pass.insertion? pass program options d =
      some (String.join ((es.filterMap Edit.insertion?).map (·.text))) := by
  simp [Pass.insertion?, h]

/-- The texts and replaced stretches that the passes add to a draft, whatever they run after. -/
structure Recorded (source : String) (program : Program) (c : Component) (options : Options)
    (props events : List String) (callees : List Span) (setup? : Option (List String)) : Prop where
  callee : ∀ span ∈ callees,
    c.wrapper.start < span.start ∧ span.start ≤ span.stop ∧ span.stop < c.wrapper.stop
  props_alone : Pass.insertion? Pass.props program options { source } = some (String.join props)
  emits_alone : Pass.insertion? Pass.emits program options { source } = some (String.join events)
  setup_behind_emits : setupText? program options source = setup?.map String.join
  defineProps : ∃ usesTypes, Transformation.defineProps.draft? program options source =
    some (Draft.recordAll { source } (props.map (.insert c.wrapper.start)), usesTypes)
  scriptSetup : ∃ usesTypes, Transformation.scriptSetup.draft? program options source =
    setup?.map fun setup => (Draft.recordAll { source }
      ((Pass.componentBindings source c).map (Pass.bindingEdit program c) ++
        props.map (.insert c.wrapper.start) ++ (events.map (.insert c.wrapper.start) ++
        callees.map (.replace · Declaration.emitBinding)) ++
        setup.map (.insert c.wrapper.start)), usesTypes)

/-- There are such texts and stretches for every component. -/
theorem exists_recorded (h : c.InScript source program) (options : Options) :
    ∃ props events callees setup?,
      Recorded source program c options props events callees setup? := by
  obtain ⟨props, hprops⟩ := Pass.props_records h options
  obtain ⟨events, callees, hspans, hemits⟩ := Pass.emits_records h options
  have hcallees : ∀ span ∈ callees,
      c.wrapper.start < span.start ∧ span.start ≤ span.stop ∧ span.stop < c.wrapper.stop := by
    intro span hspan
    have hmem : span ∈ Pass.callees c := by
      rw [hspans] at hspan
      split at hspan
      · cases hspan
      · exact hspan
    have hlies := Pass.calleeLiesIn h.liesIn hmem
    have hwithin := hlies.within_wrapper h.liesIn
    exact ⟨hwithin.1, Nat.le_of_lt hlies.start_lt_stop, hwithin.2⟩
  have hbindings : ∀ e ∈ (Pass.componentBindings source c).map (Pass.bindingEdit program c),
      IsOutside c.wrapper e := by
    intro e he
    obtain ⟨binding, -, rfl⟩ := List.mem_map.mp he
    exact isOutside_bindingEdit h binding
  have hinserts : ∀ texts : List String, ∀ e ∈ texts.map (Edit.insert c.wrapper.start),
      IsOutside c.wrapper e := by
    intro texts e he
    obtain ⟨text, -, rfl⟩ := List.mem_map.mp he
    exact isOutside_insert c.wrapper text
  have hcomponents := Pass.components_records (d := { source }) h options
    fun _ _ => Draft.untouched_fresh source _
  have hpropsAlone := hprops { source } rfl fun _ _ => Draft.untouched_fresh source _
  have hpropsAfter := hprops _ rfl fun p hp => untouched_of_isOutside h hbindings hp
  have hemitsAlone := hemits { source } rfl fun _ _ => Draft.untouched_fresh source _
  have hemitsAfter := hemits (Draft.recordAll { source }
      ((Pass.componentBindings source c).map (Pass.bindingEdit program c) ++
        props.map (.insert c.wrapper.start))) rfl fun p hp => by
    refine untouched_of_isOutside h (fun e he => ?_) hp
    rcases List.mem_append.mp he with he | he
    · exact hbindings e he
    · exact hinserts props e he
  -- what lies outside of the export has no part in the statements of `setup`
  obtain ⟨setup?, hsetup⟩ := Pass.setup_records h options (d := Draft.recordAll { source }
    (events.map (.insert c.wrapper.start) ++ callees.map (.replace · Declaration.emitBinding))) rfl
  have hsetupAlone := hsetup _ rfl fun _ _ _ => rfl
  have hsetupAfter := hsetup (Draft.recordAll { source }
      ((Pass.componentBindings source c).map (Pass.bindingEdit program c) ++
        props.map (.insert c.wrapper.start) ++ (events.map (.insert c.wrapper.start) ++
        callees.map (.replace · Declaration.emitBinding)))) rfl fun span hlo hhi => by
    refine Draft.slice?_congr rfl ?_
    have hnone : ∀ {es : List Edit}, (∀ e ∈ es, IsOutside c.wrapper e) →
        es.filter (Edit.isIn span) = [] := by
      intro es hes
      rw [List.filter_eq_nil_iff]
      intro e he
      rw [(hes e he).isIn hlo hhi]
      decide
    simp only [Draft.edits_recordAll, List.filter_append, hnone hbindings, hnone (hinserts props),
      List.nil_append]
  refine ⟨props, events, callees, setup?, hcallees, ?_, ?_, ?_, ?_, ?_⟩
  · rw [insertion?_of_recordAll hpropsAlone, Draft.filterMap_insertion?_insert,
      Draft.map_text_insertion]
  · rw [insertion?_of_recordAll hemitsAlone, List.filterMap_append,
      Draft.filterMap_insertion?_insert, Draft.filterMap_insertion?_replace, List.append_nil,
      Draft.map_text_insertion]
  · rw [setupText?, hemitsAlone, Option.bind_eq_bind, Option.bind_some]
    cases setup? with
    | none => simp [Pass.insertion?, hsetupAlone]
    | some texts =>
      rw [insertion?_of_recordAll hsetupAlone, Draft.filterMap_insertion?_insert,
        Draft.map_text_insertion]
      rfl
  · refine ⟨!props.isEmpty && Pass.declaresTypes program options, ?_⟩
    simp [draft?, runPasses, passesBefore, passesAfter, hpropsAlone]
  · refine ⟨!props.isEmpty && Pass.declaresTypes program options, ?_⟩
    simp only [draft?, runPasses, passesBefore, passesAfter, List.foldlM_cons, List.foldlM_nil,
      hcomponents, Option.map_some, Option.bind_eq_bind, Option.bind_some, pure]
    rw [hpropsAfter]
    simp only [Draft.recordAll_append, Option.bind_some, hemitsAfter, Option.map_some]
    rw [hsetupAfter]
    cases setup? with
    | none => rfl
    | some texts => simp

/-! ### Rendering

All insertions stand at two offsets, so that the text is cut in few places: there, and around the
line of the export. -/

/-- Where bindings of registered components are written, and what is written there. -/
theorem filterMap_insertion?_bindingEdit (bindings : List String) :
    (bindings.map (Pass.bindingEdit program c)).filterMap Edit.insertion? =
      match Pass.lastImport? program with
      | none => (bindings.map (· ++ "\n")).map (Draft.Insertion.mk c.wrapper.start)
      | some span => (bindings.map ("\n" ++ ·)).map (Draft.Insertion.mk span.stop) := by
  unfold Pass.bindingEdit
  cases Pass.lastImport? program <;>
    simp [List.filterMap_map, Function.comp_def, Edit.insertion?]

/-- A binding replaces nothing. -/
theorem filterMap_replacement?_bindingEdit (bindings : List String) :
    (bindings.map (Pass.bindingEdit program c)).filterMap Edit.replacement? = [] := by
  unfold Pass.bindingEdit
  cases Pass.lastImport? program <;>
    simp [List.filterMap_map, Function.comp_def, Edit.replacement?]

/-- The line of the export, in its place in the script. -/
theorem wrapperLine_stop (h : c.InScript source program) :
    IsBoundary source.toList (wrapperLine source.toList c.wrapper).stop ∧
      c.wrapper.stop ≤ (wrapperLine source.toList c.wrapper).stop ∧
      (wrapperLine source.toList c.wrapper).stop ≤ c.wrapper.stop + 2 := by
  have hle := (lineBreakSize_eq (Text.suffixFrom source.toList c.wrapper.stop)).1
  refine ⟨isBoundary_wrapperLine h.liesIn.stop_isBoundary, Nat.le_add_right _ _, ?_⟩
  simp only [wrapperLine]
  omega

/-- Edits of the passes and the removal of the export's line, rendered. -/
theorem render?_eq_arrangement (h : c.InScript source program) (bindings declared : List String)
    {callees : List Span} (hcallees : ∀ span ∈ callees,
      c.wrapper.start < span.start ∧ span.start ≤ span.stop ∧ span.stop < c.wrapper.stop)
    {d : Draft} (hsource : d.source = source)
    (hins : d.insertions = (bindings.map (Pass.bindingEdit program c)).filterMap Edit.insertion? ++
      declared.map (Draft.Insertion.mk c.wrapper.start))
    (hrep : d.replacements = callees.map (Draft.Replacement.mk · Declaration.emitBinding) ++
      [⟨wrapperLine source.toList c.wrapper, ""⟩]) :
    d.render? = some (arrangement source (wrapperLine source.toList c.wrapper)
      (Pass.lastImport? program) bindings (String.join declared)) := by
  subst hsource
  obtain ⟨hstop, hline, hshort⟩ := wrapperLine_stop h
  have hstart : IsBoundary d.source.toList (wrapperLine d.source.toList c.wrapper).start :=
    h.liesIn.start_isBoundary
  -- The callees start inside of the line that is removed, and so they go with it.
  have hinner : ∀ q ∈ callees.map (Draft.Replacement.mk · Declaration.emitBinding),
      (wrapperLine d.source.toList c.wrapper).start < q.span.start ∧
        q.span.start < (wrapperLine d.source.toList c.wrapper).stop ∧
        q.span.stop ≤ (wrapperLine d.source.toList c.wrapper).stop := by
    intro q hq
    obtain ⟨span, hspan, rfl⟩ := List.mem_map.mp hq
    have hcallee := hcallees span hspan
    refine ⟨hcallee.1, ?_, ?_⟩ <;> dsimp only <;> omega
  rw [filterMap_insertion?_bindingEdit] at hins
  cases himport : Pass.lastImport? program with
  | none =>
    rw [himport] at hins
    rw [Draft.render?_of_group_before hrep hinner hstart hstart hstop hins (Nat.le_refl _)]
    refine congrArg some (String.toList_injective ?_)
    simp [arrangement, toList_cut]
  | some span =>
    rw [himport] at hins
    obtain ⟨hboundary, happart⟩ := h.lastImport span himport
    by_cases hbefore : span.stop ≤ c.wrapper.start
    · rw [Draft.render?_of_group_before hrep hinner hboundary hstart hstop hins hbefore]
      refine congrArg some (String.toList_injective ?_)
      have hbranch : span.stop ≤ (wrapperLine d.source.toList c.wrapper).start := hbefore
      simp [arrangement, toList_cut, hbranch]
    · have hbehind := happart.resolve_left hbefore
      have hlt : (wrapperLine d.source.toList c.wrapper).start < span.stop :=
        Nat.lt_of_not_le hbefore
      rw [Draft.render?_of_group_behind hrep hinner hboundary hstart hstop hins hlt
        (Nat.le_trans hshort hbehind)]
      refine congrArg some (String.toList_injective ?_)
      simp [arrangement, toList_cut, Nat.not_le.mpr hlt]

variable {options : Options} {props events : List String} {callees : List Span}
  {setup? : Option (List String)}

/-- What is rendered of a setup script. -/
theorem code_scriptSetup (h : c.InScript source program)
    (hr : Recorded source program c options props events callees setup?) :
    (scriptSetup.rendered? program c options source).map Rendered.code = setup?.map fun setup =>
      arrangement source (wrapperLine source.toList c.wrapper) (Pass.lastImport? program)
        (Pass.componentBindings source c) (String.join (props ++ events ++ setup)) := by
  obtain ⟨usesTypes, hdraft⟩ := hr.scriptSetup
  cases setup? with
  | none => simp [rendered?, hdraft]
  | some setup =>
    rw [Option.map_some] at hdraft
    have hrender := render?_eq_arrangement h (Pass.componentBindings source c)
      (props ++ events ++ setup) hr.callee
      (d := scriptSetup.dropWrapper c (Draft.recordAll { source }
        ((Pass.componentBindings source c).map (Pass.bindingEdit program c) ++
          props.map (.insert c.wrapper.start) ++ (events.map (.insert c.wrapper.start) ++
          callees.map (.replace · Declaration.emitBinding)) ++
          setup.map (.insert c.wrapper.start)))) rfl ?_ ?_
    · simp only [rendered?, hdraft, Option.bind_eq_bind, Option.bind_some, hrender, Option.map_some,
        pure]
    · simp only [dropWrapper, removesWrapper, if_true, Draft.remove, Draft.overwrite,
        Draft.record_eq, Draft.recordAll_append, Draft.insertions_recordAll, List.filterMap_append,
        Draft.filterMap_insertion?_insert, Draft.filterMap_insertion?_replace, List.map_append]
      simp [Draft.insertions, Edit.insertion?]
    · simp only [dropWrapper, removesWrapper, if_true, Draft.remove, Draft.overwrite,
        Draft.record_eq, Draft.recordAll_append, Draft.replacements_recordAll,
        List.filterMap_append,
        Draft.filterMap_replacement?_insert, Draft.filterMap_replacement?_replace,
        filterMap_replacement?_bindingEdit]
      simp [Draft.replacements, Edit.replacement?]

/-- What is rendered when only props are declared. -/
theorem code_defineProps (h : c.InScript source program)
    (hr : Recorded source program c options props events callees setup?) :
    (defineProps.rendered? program c options source).map Rendered.code =
      some (cut source 0 c.wrapper.start ++ String.join props ++
        cut source c.wrapper.start source.utf8ByteSize) := by
  obtain ⟨usesTypes, hdraft⟩ := hr.defineProps
  have hend : IsBoundary source.toList source.utf8ByteSize := by
    rw [Text.utf8ByteSize_eq]
    exact Text.isBoundary_byteSize _
  have hstart := h.liesIn.start_isBoundary
  have hsize : c.wrapper.start ≤ source.utf8ByteSize := by
    rw [Text.utf8ByteSize_eq]
    exact hstart.le_byteSize
  have hins : (Draft.recordAll { source } (props.map (.insert c.wrapper.start))).insertions =
      props.map (Draft.Insertion.mk c.wrapper.start) := by
    rw [Draft.insertions_recordAll, Draft.filterMap_insertion?_insert]
    rfl
  have hrender := Draft.render?_of_insertions
    (d := Draft.recordAll { source } (props.map (.insert c.wrapper.start))) ?_ ?_ ?_
  · rw [Draft.source_recordAll, hins,
      Draft.spelled_of_group (Text.isBoundary_zero _) hstart hend (Nat.zero_le _) hsize] at hrender
    simp only [rendered?, hdraft, dropWrapper, removesWrapper, Option.bind_eq_bind,
      Option.bind_some, hrender, Option.map_some, pure, Bool.false_eq_true, if_false]
    refine congrArg some (String.toList_injective ?_)
    simp [toList_cut]
  · rw [Draft.replacements_recordAll, Draft.filterMap_replacement?_insert]
    rfl
  · rw [hins]
    intro i hi
    obtain ⟨text, -, rfl⟩ := List.mem_map.mp hi
    exact hstart
  · rw [hins]
    exact Draft.pairwise_group _ _

end

/-- **What a transformation renders.** Of every script that can be read and defines a component, the
rendered text is the script with the declarations in the place of the export's line, or with the
props declared before the export. The declarations are the texts that the passes for props and
events insert when they run alone, and the text that the pass for `setup` inserts behind that for
events. Where `setup` cannot be cut there is no such text, and nothing is rendered: both sides of
the equation are then `none`. All cuts fall between characters, and the last import ends before the
export or behind its line. -/
theorem rendered?_eq_arrangement {dialect : Dialect} {source : String} {program : Program}
    {c : Component} (hprogram : Program.parse? dialect source = some program)
    (hc : Component.locate? program = some c) (options : Options) :
    ∃ props events : String,
      Pass.insertion? Pass.props program options { source } = some props ∧
      Pass.insertion? Pass.emits program options { source } = some events ∧
      (scriptSetup.rendered? program c options source).map Rendered.code =
        (setupText? program options source).map (fun setup =>
          arrangement source (wrapperLine source.toList c.wrapper) (Pass.lastImport? program)
            (Pass.componentBindings source c) (props ++ events ++ setup)) ∧
      (defineProps.rendered? program c options source).map Rendered.code =
        some (cut source 0 c.wrapper.start ++ props ++
          cut source c.wrapper.start source.utf8ByteSize) ∧
      c.wrapper.start < c.wrapper.stop ∧ IsBoundary source.toList c.wrapper.start ∧
      IsBoundary source.toList c.wrapper.stop ∧
      IsBoundary source.toList (wrapperLine source.toList c.wrapper).stop ∧
      ∀ span, Pass.lastImport? program = some span → IsBoundary source.toList span.stop ∧
        (span.stop ≤ c.wrapper.start ∨ (wrapperLine source.toList c.wrapper).stop ≤ span.stop) := by
  have h := Component.inScript_of_parse? hprogram hc
  obtain ⟨props, events, callees, setup?, hr⟩ := exists_recorded h options
  obtain ⟨hstop, hline, hshort⟩ := wrapperLine_stop h
  refine ⟨String.join props, String.join events, hr.props_alone, hr.emits_alone, ?_, ?_,
    h.liesIn.start_lt_stop, h.liesIn.start_isBoundary, h.liesIn.stop_isBoundary, hstop, ?_⟩
  · rw [code_scriptSetup h hr, hr.setup_behind_emits, Option.map_map]
    refine congrArg (setup?.map ·) (funext fun setup => ?_)
    simp only [Function.comp_apply, String.join_append]
  · exact code_defineProps h hr
  · intro span hspan
    obtain ⟨hboundary, happart⟩ := h.lastImport span hspan
    exact ⟨hboundary, by omega⟩

/-- An import behind the export, a rewritten call of `emit` inside of it, and a registered component
that is bound behind the import. -/
def lateImport : String :=
  "export default defineComponent(\x7b components: \x7b A: f() \x7d, props: ['x'], " ++
  "emits: ['y'],\n" ++
  "  setup(p, c) \x7b c.emit('y') \x7d \x7d)\r\nimport a from 'a'\n"

theorem rendered?_eq_arrangement_lateImport : ∃ program c,
    Program.parse? ⟨false, false⟩ lateImport = some program ∧
    Component.locate? program = some c ∧
    Pass.insertion? Pass.props program {} { source := lateImport } =
      some "const p = defineProps(['x'])\n" ∧
    Pass.insertion? Pass.emits program {} { source := lateImport } =
      some "const emit = defineEmits(['y'])\n" ∧
    setupText? program {} lateImport = some "emit('y')\n" ∧
    (scriptSetup.rendered? program c {} lateImport).map Rendered.code =
      some ("const p = defineProps(['x'])\nconst emit = defineEmits(['y'])\nemit('y')\n" ++
        "import a from 'a'\nconst A = f()\n") := by
  have htexts : ((Program.parse? ⟨false, false⟩ lateImport).bind fun program =>
      (Component.locate? program).map fun c =>
        (Pass.insertion? Pass.props program {} { source := lateImport },
          Pass.insertion? Pass.emits program {} { source := lateImport },
          setupText? program {} lateImport,
          arrangement lateImport (wrapperLine lateImport.toList c.wrapper)
            (Pass.lastImport? program) (Pass.componentBindings lateImport c)
            ("const p = defineProps(['x'])\n" ++ "const emit = defineEmits(['y'])\n" ++
              "emit('y')\n"))) =
      some (some "const p = defineProps(['x'])\n", some "const emit = defineEmits(['y'])\n",
        some "emit('y')\n",
        "const p = defineProps(['x'])\nconst emit = defineEmits(['y'])\nemit('y')\n" ++
          "import a from 'a'\nconst A = f()\n") := by
    decide +kernel
  obtain ⟨program, hprogram, htexts⟩ := Option.bind_eq_some_iff.mp htexts
  obtain ⟨c, hc, htexts⟩ := Option.map_eq_some_iff.mp htexts
  simp only [Prod.mk.injEq] at htexts
  obtain ⟨hprops, hevents, hsetup, harranged⟩ := htexts
  obtain ⟨props, events, hprops', hevents', hcode, -⟩ := rendered?_eq_arrangement hprogram hc {}
  obtain rfl := Option.some.inj (hprops'.symm.trans hprops)
  obtain rfl := Option.some.inj (hevents'.symm.trans hevents)
  rw [hsetup, Option.map_some, harranged] at hcode
  exact ⟨program, c, hprogram, hc, hprops, hevents, hsetup, hcode⟩

/-- A result that is there is no error. -/
theorem eq_ok_of_toOption {ε α : Type} {result : Except ε α} {a : α}
    (h : result.toOption = some a) : result = .ok a := by
  cases result <;> cases h
  rfl

/-- A component that is registered under a reserved word. -/
def reservedKey : String :=
  "export default defineComponent(\x7b components: \x7b default: f() \x7d \x7d)\n"

/-- A key is bound if it is spelled like a name. A reserved word is, but no binding can have it, and
the code that comes out is not in the language. -/
theorem runScript_reservedKey : ∃ outcome,
    scriptSetup.runScript ⟨false, false⟩ {} reservedKey = .ok outcome ∧ outcome.changed = true ∧
      outcome.usesTypes = false ∧ outcome.code = "const default = f()\n" ∧
      Program.parse? ⟨false, false⟩ outcome.code = none := by
  have hrun : (scriptSetup.runScript ⟨false, false⟩ {} reservedKey).toOption =
      some ⟨"const default = f()\n", true, false, []⟩ := by
    decide +kernel
  have hcode : (Program.parse? ⟨false, false⟩ "const default = f()\n").isNone = true := by
    decide +kernel
  exact ⟨_, eq_ok_of_toOption hrun, rfl, rfl, rfl, Option.isNone_iff_eq_none.mp hcode⟩

end Transformation

end VueSetup
