import VueSetup.Proofs.Transform.Hoisted
import VueSetup.Proofs.Transform.Outcome
import VueSetup.Proofs.Transform.Redirected

/-!
# VueSetup.Proofs.Transform.Typed

When a transformed script is in the language with types only (`runScript_usesTypes`).

That is told by the options and the value of `props`, and not by the text that the pass for props
inserts; the two agree, also where there is nothing to declare and where the value is declared as it
is. In every other text that a pass inserts there are no types but those of the script. These texts
are spelled out (`IsPlain`), and a run of passes inserts no others, by a step lemma
(`Edited.addsPlain`) and an induction on the passes (`isPlain_of_runPasses`).
-/

namespace VueSetup

open Script (Dialect Node Program)

namespace Transformation

/-! ### Texts

The texts that a pass can insert are listed by what they are made of, so that each can be seen to
have no types of its own. -/

/-- The type of all props, and behind it the binding of props of that type. -/
def IsTypedPair (text : String) : Prop :=
  ∃ (name : String) (records : List PropRecord) (withDefaults : Bool),
    text = Declaration.propsType records ++ Declaration.typedProps name records withDefaults

/-- A statement moved out of `setup`: a slice between the braces of the function, with callees of
`emit` rewritten and indentation taken off, and with line breaks set off. -/
inductive IsHoisted (source : String) (c : Component) : String → Prop where
  | intro {s : Setup} {g : Pass.Segment} {callees : List Span} (literals : List Span) :
    c.setup? = some s → g.LiesIn source.toList (s.body.start + 1) (s.body.stop - 1) →
    callees.Pairwise (fun a b => a.stop ≤ b.start) →
    (∀ callee ∈ callees, callee ∈ Pass.callees c ∧ g.span.start ≤ callee.start ∧
      callee.stop ≤ g.span.stop) →
    IsHoisted source c (g.hoist source.toList literals (String.ofList (Draft.replaced source.toList
      g.span.start g.span.stop (callees.map (Draft.Replacement.mk · "emit")))))

/-- A text without types other than those of the script: a binding of a registered component, whose
key is a plain name; of the props, under their own name or that of the parameter of `setup`; of the
events; or the statements of `setup`. -/
inductive IsPlain (source : String) (program : Program) (c : Component) : String → Prop where
  | component {key : String} {value : Node} : (key, value) ∈ Pass.componentEntries c →
    Declaration.isPlainName key = true →
    IsPlain source program c
      (bindingLine program ("const " ++ key ++ " = " ++ Pass.textOf source value))
  | props {name : String} {p : Property} : c.property? "props" = some p →
    (name = "props" ∨ ∃ s, c.setup? = some s ∧ s.paramName? 0 = some name) →
    IsPlain source program c
      ("const " ++ name ++ " = defineProps(" ++ Pass.textOf source p.value ++ ")\n")
  | events {p : Property} : c.property? "emits" = some p →
    IsPlain source program c ("const emit = defineEmits(" ++ Pass.textOf source p.value ++ ")\n")
  | statements {pieces : List String} : (∀ piece ∈ pieces, IsHoisted source c piece) →
    IsPlain source program c (String.join pieces)

variable {source : String} {program : Program} {c : Component} {options : Options}

/-- The props are bound under their own name or under that of the first parameter. -/
theorem propsBindingName_eq (c : Component) : Pass.propsBindingName c = "props" ∨
    ∃ s, c.setup? = some s ∧ s.paramName? 0 = some (Pass.propsBindingName c) := by
  unfold Pass.propsBindingName
  cases hname : c.setup?.bind (·.paramName? 0) with
  | none => exact .inl rfl
  | some name =>
    obtain ⟨s, hs, hparam⟩ := Option.bind_eq_some_iff.mp hname
    exact .inr ⟨s, hs, hparam⟩

/-! ### What a pass inserts

Each pass adds plain texts to a draft of the kind that passes leave behind, and leaves one of that
kind. The pass for props does so unless it declares props by a type. -/

/-- The text of a segment is a statement moved out of `setup`. -/
theorem Edited.isHoisted {declared : Bool} {d : Draft} (he : Edited source c declared d)
    (h : c.InScript source program) {s : Setup} (hs : c.setup? = some s) {g : Pass.Segment}
    (hg : g.LiesIn source.toList (s.body.start + 1) (s.body.stop - 1)) {literals : List Span}
    {text : String} (htext : Pass.Segment.text? d literals g = some text) :
    IsHoisted source c text := by
  have hlies := h.liesIn.setup_within hs
  have hlo := Nat.le_trans hlies.lo_le (Nat.le_of_succ_le hg.lo_le)
  have hhi := Nat.le_trans hg.le_hi (Nat.le_trans (Nat.sub_le _ _) hlies.le_hi)
  obtain ⟨callees, hpairwise, hinside, hslice⟩ := he.slice?_replaced h (Nat.le_of_succ_le hlo) hhi
    hg.start_le_stop hg.start_isBoundary hg.stop_isBoundary
  rw [Pass.Segment.text?, hslice, he.source_eq] at htext
  cases htext
  exact .intro literals hs hg hpairwise fun callee hcallee => ((hinside callee).mp hcallee).2

/-- A pass adds texts to a draft that are plain. -/
def AddsPlain (source : String) (program : Program) (c : Component) (k : PassName) (d d' : Draft) :
    Prop :=
  ∃ texts, d' = d.recordAll (k.edits program c texts) ∧
    ∀ text ∈ texts, IsPlain source program c text

/-- A pass that finds nothing adds nothing. -/
theorem addsPlain_idle (k : PassName) (d : Draft) : AddsPlain source program c k d d :=
  ⟨[], by rw [(edits_eq_nil_iff k []).mpr rfl, Draft.recordAll_nil], fun _ h => by cases h⟩

/-- A pass that adds one text. -/
theorem addsPlain_single {k : PassName} {d : Draft} {text : String}
    (htext : IsPlain source program c text) :
    AddsPlain source program c k d (d.recordAll (k.edits program c [text])) :=
  ⟨[text], rfl, fun _ h => List.mem_singleton.mp h ▸ htext⟩

section

variable {declared : Bool} {d : Draft} {r : PassResult}

/-- The pass for registered components. -/
theorem Edited.addsPlain_components (he : Edited source c declared d)
    (h : c.InScript source program)
    (hr : Pass.components program options d = some r) :
    AddsPlain source program c .components d r.draft := by
  have hsource := he.source_eq
  subst hsource
  have hd : ∀ entry ∈ Pass.componentEntries c, d.Untouched entry.2.span := by
    intro entry hentry
    obtain ⟨p, hp, hlaid⟩ := Pass.exists_of_mem_componentEntries h.liesIn hentry
    exact he.untouched h hp (by decide) hlaid
  obtain rfl := Option.some.inj (hr.symm.trans (Pass.components_records h options hd))
  refine ⟨(Pass.componentBindings d.source c).map (bindingLine program), by rw [edits_components],
    fun text htext => ?_⟩
  obtain ⟨binding, hbinding, rfl⟩ := List.mem_map.mp htext
  obtain ⟨entry, hentry, rfl⟩ := List.mem_map.mp hbinding
  exact .component hentry (Pass.isPlainName_of_mem_componentEntries hentry)

/-- What the pass for props can do: declare the props that it reads by a type, declare the value, or
nothing. -/
theorem Edited.props_cases (he : Edited source c declared d) (h : c.InScript source program)
    (options : Options) :
    (∃ p, c.property? "props" = some p ∧ Pass.isTyped options p.value = true ∧
      PropTable.ofComponent source.toList c ≠ [] ∧
      Pass.props program options d = some ⟨d.recordAll (PassName.props.edits program c
        [Declaration.propsType (PropTable.ofComponent source.toList c) ++
          Declaration.typedProps (Pass.propsBindingName c) (PropTable.ofComponent source.toList c)
            options.withDefaults]), true⟩) ∨
    (∃ p, c.property? "props" = some p ∧ Pass.isTyped options p.value = false ∧
      Pass.props program options d = some ⟨d.recordAll (PassName.props.edits program c
        [Declaration.runtimeProps (Pass.propsBindingName c) (Pass.textOf source p.value)]), true⟩) ∨
    ((∀ p, c.property? "props" = some p → PropTable.ofComponent source.toList c = []) ∧
      Pass.props program options d = some ⟨d, false⟩) := by
  have hsource := he.source_eq
  subst hsource
  simp only [Pass.props, h.located]
  cases hp : c.property? "props" with
  | none => exact .inr (.inr ⟨fun _ hp => (by cases hp), rfl⟩)
  | some p =>
    cases htyped : Pass.isTyped options p.value with
    | false =>
      have hvalue := Pass.slice?_of_laid (h.liesIn.property hp)
        (he.untouched h hp (by decide) (h.liesIn.value hp))
      refine .inr (.inl ⟨p, rfl, htyped, ?_⟩)
      simp only [htyped, hvalue]
      rfl
    | true =>
      cases hrecords : PropTable.ofComponent d.source.toList c with
      | nil => exact .inr (.inr ⟨fun _ _ => rfl, by simp [htyped, PassResult.idle]⟩)
      | cons record records =>
        refine .inl ⟨p, rfl, htyped, List.cons_ne_nil _ _, ?_⟩
        simp only [htyped, if_true]
        rfl

/-- The pass for props, unless it declares them by a type. -/
theorem Edited.addsPlain_props (he : Edited source c declared d) (h : c.InScript source program)
    (huntyped : ∀ p, c.property? "props" = some p → Pass.isTyped options p.value = true →
      PropTable.ofComponent source.toList c = [])
    (hr : Pass.props program options d = some r) :
    AddsPlain source program c .props d r.draft := by
  rcases he.props_cases h options with ⟨p, hp, htyped, hrecords, hprops⟩ | ⟨p, hp, -, hprops⟩ |
    ⟨-, hprops⟩
  · exact absurd (huntyped p hp htyped) hrecords
  · obtain rfl := Option.some.inj (hr.symm.trans hprops)
    exact addsPlain_single (.props hp (propsBindingName_eq c))
  · obtain rfl := Option.some.inj (hr.symm.trans hprops)
    exact addsPlain_idle .props d

/-- The pass for events. -/
theorem Edited.addsPlain_emits (he : Edited source c declared d) (h : c.InScript source program)
    (hr : Pass.emits program options d = some r) :
    AddsPlain source program c .emits d r.draft := by
  cases hp : c.property? "emits" with
  | none =>
    simp only [Pass.emits, h.located, hp] at hr
    cases hr
    exact addsPlain_idle .emits d
  | some p =>
    by_cases hlists : Pass.listsEvents p.value = true
    · obtain rfl := Option.some.inj (hr.symm.trans (emits_eq h he hp hlists))
      exact addsPlain_single (.events hp)
    · simp only [Pass.emits, h.located, hp, hlists] at hr
      cases hr
      exact addsPlain_idle .emits d

/-- The pass that moves the statements of `setup`. -/
theorem Edited.addsPlain_setup (he : Edited source c declared d) (h : c.InScript source program)
    (hr : Pass.setup program options d = some r) :
    AddsPlain source program c .setup d r.draft := by
  simp only [Pass.setup, h.located] at hr
  cases hs : c.setup? with
  | none =>
    rw [hs] at hr
    cases hr
    exact addsPlain_idle .setup d
  | some s =>
    rw [hs] at hr
    obtain ⟨segments, hsegments, hr⟩ := Option.bind_eq_some_iff.mp hr
    rw [he.source_eq] at hsegments
    have hwithin := Pass.setupSegments?_within (h.liesIn.setup_within hs) hsegments
    split at hr
    · cases hr
      exact addsPlain_idle .setup d
    · obtain ⟨pieces, hpieces, hr⟩ := Option.bind_eq_some_iff.mp hr
      cases hr
      refine addsPlain_single (.statements fun piece hpiece => ?_)
      obtain ⟨g, hg, htext⟩ := Pass.exists_of_mem_mapM_text? hpieces hpiece
      exact he.isHoisted h hs (hwithin g hg) htext

end

/-- As long as no props are declared by a type, all texts that a pass inserts are plain. -/
theorem Edited.addsPlain (h : c.InScript source program)
    (huntyped : ∀ p, c.property? "props" = some p → Pass.isTyped options p.value = true →
      PropTable.ofComponent source.toList c = []) {declared : Bool} {d : Draft}
    (he : Edited source c declared d) (k : PassName) {r : PassResult}
    (hr : k.pass program options d = some r) : AddsPlain source program c k d r.draft := by
  cases k with
  | components => exact he.addsPlain_components h (show Pass.components program options d =
      _ from hr)
  | props => exact he.addsPlain_props h huntyped (show Pass.props program options d = _ from hr)
  | emits => exact he.addsPlain_emits h (show Pass.emits program options d = _ from hr)
  | setup => exact he.addsPlain_setup h (show Pass.setup program options d = _ from hr)

/-- So are all texts that a run of passes inserts. -/
theorem isPlain_of_runPasses (h : c.InScript source program)
    (huntyped : ∀ p, c.property? "props" = some p → Pass.isTyped options p.value = true →
      PropTable.ofComponent source.toList c = []) {ks : List PassName} {declared : Bool}
    {d d' : Draft} (he : Edited source c declared d)
    (hd : ∀ i ∈ d.insertions, IsPlain source program c i.text)
    (hrun : runPasses program options (ks.map PassName.pass) d = some d') :
    (∃ declared', Edited source c declared' d') ∧
      ∀ i ∈ d'.insertions, IsPlain source program c i.text := by
  induction ks generalizing declared d with
  | nil =>
    cases hrun
    exact ⟨⟨declared, he⟩, hd⟩
  | cons k ks ih =>
    rw [runPasses, List.map_cons, List.foldlM_cons] at hrun
    obtain ⟨d₁, hstep, hrest⟩ := Option.bind_eq_some_iff.mp hrun
    obtain ⟨r, hr, rfl⟩ := Option.map_eq_some_iff.mp hstep
    obtain ⟨texts, hdraft, htexts⟩ := he.addsPlain h huntyped k hr
    have he₁ := he.record h k texts
    rw [← hdraft] at he₁
    refine ih he₁ (fun i hi => ?_) hrest
    rw [hdraft, Draft.insertions_recordAll, filterMap_insertion?_edits, List.mem_append] at hi
    rcases hi with hi | hi
    · exact hd i hi
    · obtain ⟨text, htext, rfl⟩ := List.mem_map.mp hi
      exact htexts text htext

/-! ### Typed pairs

A typed pair starts with the word `type`, and the declaration of a value with `const`. So the text
itself tells which of the two the pass for props has inserted. -/

/-- Props are typed if they are asked for as types and given as an object. -/
theorem isTyped_iff {n : Node} : Pass.isTyped options n = true ↔
    options.propsStyle = .typed ∧ ∃ span members, n = .object span members := by
  unfold Pass.isTyped
  split
  · simp
  · next hno =>
    refine iff_of_false Bool.false_ne_true ?_
    rintro ⟨-, span, members, heq⟩
    exact hno span members heq

/-- A text starts as its front does. -/
theorem head?_toList_append {s : String} {first : Char} (h : s.toList.head? = some first)
    (t : String) : (s ++ t).toList.head? = some first := by
  rw [String.toList_append, List.head?_append, h]
  rfl

/-- A typed pair starts with the type. -/
theorem IsTypedPair.head? {text : String} (h : IsTypedPair text) : text.toList.head? =
    some 't' := by
  obtain ⟨name, records, withDefaults, rfl⟩ := h
  have htype : (Declaration.propsType records).toList.head? = some 't' :=
    head?_toList_append (head?_toList_append (by decide) _) _
  exact head?_toList_append htype _

/-- The text of nothing is no typed pair. -/
theorem not_isTypedPair_empty : ¬ IsTypedPair "" :=
  fun h => by cases h.head?

/-- The declaration of a value starts with the binding. -/
theorem not_isTypedPair_runtimeProps (name expr : String) :
    ¬ IsTypedPair (Declaration.runtimeProps name expr) := by
  intro h
  have hconst : ("const " ++ name ++ " = defineProps(" ++ expr ++ ")\n").toList.head? = some 'c' :=
    head?_toList_append (head?_toList_append (head?_toList_append
      (head?_toList_append (by decide) _) _) _) _
  have hhead := h.head?
  rw [Declaration.runtimeProps, hconst] at hhead
  cases hhead

/-- The text that the pass for props inserts is a typed pair exactly if props are asked for as types
and some can be read from an object. -/
theorem Edited.isTypedPair_iff {declared : Bool} {d : Draft} (he : Edited source c declared d)
    (h : c.InScript source program) (options : Options) :
    ∃ text, Pass.insertion? Pass.props program options d = some text ∧
      (IsTypedPair text ↔ ∃ p, c.property? "props" = some p ∧ Pass.isTyped options p.value = true ∧
        PropTable.ofComponent source.toList c ≠ []) := by
  rcases he.props_cases h options with ⟨p, hp, htyped, hrecords, hprops⟩ | ⟨p, hp, hvalue, hprops⟩ |
    ⟨hnone, hprops⟩
  · refine ⟨_, insertion?_of_recordAll hprops, iff_of_true ?_ ⟨p, hp, htyped, hrecords⟩⟩
    rw [filterMap_insertion?_edits, Draft.map_text_insertion]
    exact ⟨Pass.propsBindingName c, PropTable.ofComponent source.toList c, options.withDefaults,
      by simp [String.join]⟩
  · refine ⟨_, insertion?_of_recordAll hprops, iff_of_false ?_ ?_⟩
    · rw [filterMap_insertion?_edits, Draft.map_text_insertion]
      simpa [String.join] using not_isTypedPair_runtimeProps _ _
    · rintro ⟨p', hp', htyped, -⟩
      obtain rfl := Option.some.inj (hp.symm.trans hp')
      rw [hvalue] at htyped
      cases htyped
  · refine ⟨"", ?_, iff_of_false not_isTypedPair_empty ?_⟩
    · rw [Pass.insertion?, hprops, Option.map_some, List.drop_length]
      rfl
    rintro ⟨p, hp, -, hrecords⟩
    exact hrecords (hnone p hp)

/-- The passes of a transformation, in order. -/
def passNames : Transformation → List PassName
  | .scriptSetup => [.components, .props, .emits, .setup]
  | .defineProps => [.props]

/-- The draft of a transformation is what its passes leave behind, and the flag is told behind the
pass for props. -/
theorem exists_of_draft? {t : Transformation} {after : Draft} {usesTypes : Bool}
    (hdraft : t.draft? program options source = some (after, usesTypes)) : ∃ before r,
    runPasses program options t.passesBefore { source } = some before ∧
      Pass.props program options before = some r ∧
      usesTypes = (r.produced && Pass.declaresTypes program options) ∧
      runPasses program options (t.passNames.map PassName.pass) { source } = some after := by
  obtain ⟨before, hbefore, hdraft⟩ := Option.bind_eq_some_iff.mp hdraft
  obtain ⟨r, hr, hdraft⟩ := Option.bind_eq_some_iff.mp hdraft
  obtain ⟨last, hlast, hdraft⟩ := Option.bind_eq_some_iff.mp hdraft
  cases hdraft
  refine ⟨before, r, hbefore, hr, rfl, ?_⟩
  have hnames : t.passNames.map PassName.pass = t.passesBefore ++ Pass.props :: t.passesAfter := by
    cases t <;> rfl
  rw [hnames, runPasses, List.foldlM_append, ← runPasses, hbefore, Option.bind_eq_bind,
    Option.bind_some, List.foldlM_cons, hr]
  exact hlast

/-- A script that was rendered gives a result with the flag of its draft. Without any edit there is
no declaration of props that could need types. -/
theorem exists_outcome {t : Transformation} {dialect : Dialect}
    (hprogram : Program.parse? dialect source = some program)
    (hc : Component.locate? program = some c) {r : Rendered}
    (hr : t.rendered? program c options source = some r) :
    ∃ outcome, t.runScript dialect options source = .ok outcome ∧
    outcome.usesTypes = r.usesTypes := by
  delta runScript
  simp only [hprogram, hc, hr]
  by_cases hchanged : r.changed = true
  · rw [if_pos hchanged]
    exact ⟨_, rfl, rfl⟩
  · rw [if_neg hchanged]
    refine ⟨_, rfl, ?_⟩
    have hidle := mt (changed_rendered? (Component.inScript_of_parse? hprogram hc) hr).mpr hchanged
    obtain ⟨⟨after, usesTypes⟩, hdraft, hr⟩ := Option.bind_eq_some_iff.mp hr
    obtain ⟨code, -, hr⟩ := Option.bind_eq_some_iff.mp hr
    cases hr
    obtain ⟨before, result, hbefore, hresult, rfl, -⟩ := exists_of_draft? hdraft
    cases t with
    | scriptSetup => exact absurd (.inl rfl) hidle
    | defineProps =>
      cases hbefore
      have hproduced : result.produced = false := by
        rw [Bool.eq_false_iff]
        exact fun hproduced => hidle (.inr ⟨result, hresult, hproduced⟩)
      simp [ScriptOutcome.unchanged, hproduced]

/-- Without a text there is no result. -/
theorem runScript_eq_error {t : Transformation} {dialect : Dialect}
    (hprogram : Program.parse? dialect source = some program)
    (hc : Component.locate? program = some c) (hr : t.rendered? program c options source = none) :
    t.runScript dialect options source = .error .brokenSpan := by
  delta runScript
  simp only [hprogram, hc, hr]

/-- In a script that defines no component no pass finds anything. -/
theorem draft?_of_locate?_eq_none (hc : Component.locate? program = none) (t : Transformation)
    (options : Options) (source : String) :
    runPasses program options t.passesBefore { source } = some { source } ∧
      Pass.insertion? Pass.props program options { source } = some "" ∧
      t.draft? program options source = some ({ source }, false) := by
  cases t <;> simp [draft?, runPasses, passesBefore, passesAfter, Pass.insertion?, Pass.components,
    Pass.props, Pass.emits, Pass.setup, hc, PassResult.idle, Draft.insertions]

/-- **The flag of types agrees with the text.** Let a script be read, and let its statements of
`setup` be such that the pass for them gives a result, where they are to be moved. Then the
transformation gives a result, and:

* it is in the language with types only exactly if the text that the pass for props inserted is a
  typed pair;
* that is so exactly if props are asked for as types, the first member `props` whose key is not
  computed is an object, and some prop can be read from it;
* otherwise all texts that the passes inserted are plain, and all that they replaced are callees of
  `emit`, by the name of the binding. -/
theorem runScript_usesTypes {dialect : Dialect} {source : String} {program : Program}
    (hprogram : Program.parse? dialect source = some program) (t : Transformation)
    (options : Options)
    (hsetup : t = .scriptSetup → CanMoveSetup program options source) :
    ∃ outcome before after text, t.runScript dialect options source = .ok outcome ∧
      runPasses program options t.passesBefore { source } = some before ∧
      Pass.insertion? Pass.props program options before = some text ∧
      t.draft? program options source = some (after, outcome.usesTypes) ∧
      (outcome.usesTypes = true ↔ IsTypedPair text) ∧
      (IsTypedPair text ↔ options.propsStyle = .typed ∧ ∃ c p span members,
        Component.locate? program = some c ∧ c.property? "props" = some p ∧
        p.value = .object span members ∧ PropTable.ofComponent source.toList c ≠ []) ∧
      (outcome.usesTypes = false →
        (∀ i ∈ after.insertions, ∃ c, Component.locate? program = some c ∧
          IsPlain source program c i.text) ∧
        ∀ q ∈ after.replacements, ∃ c, Component.locate? program = some c ∧
          q.span ∈ Pass.callees c ∧ q.text = "emit") := by
  cases hc : Component.locate? program with
  | none =>
    -- Without a component no pass finds anything, and no text is inserted.
    have hidle := draft?_of_locate?_eq_none hc t options source
    refine ⟨.unchanged source, { source }, { source }, "",
      by delta runScript; simp only [hprogram, hc],
      hidle.1, hidle.2.1, hidle.2.2, iff_of_false Bool.false_ne_true not_isTypedPair_empty,
      iff_of_false not_isTypedPair_empty ?_, fun _ => ⟨?_, ?_⟩⟩
    · rintro ⟨-, c, p, span, members, hc', -⟩
      cases hc'
    · intro i hi
      cases hi
    · intro q hq
      cases hq
  | some c =>
    have h := Component.inScript_of_parse? hprogram hc
    obtain ⟨r, hr⟩ := exists_rendered? hprogram hc hsetup
    obtain ⟨outcome, hrun, hflag⟩ := exists_outcome hprogram hc hr
    obtain ⟨⟨after, usesTypes⟩, hdraft, hr⟩ := Option.bind_eq_some_iff.mp hr
    obtain ⟨code, -, hr⟩ := Option.bind_eq_some_iff.mp hr
    cases hr
    obtain ⟨before, result, hbefore, hresult, husesTypes, hpasses⟩ := exists_of_draft? hdraft
    -- The passes before that for props leave a draft of the kind that all passes do, so that its
    -- text is known.
    obtain ⟨ks, hks⟩ : ∃ ks : List PassName, t.passesBefore = ks.map PassName.pass := by
      cases t with
      | scriptSetup => exact ⟨[.components], rfl⟩
      | defineProps => exact ⟨[], rfl⟩
    rw [hks] at hbefore
    obtain ⟨declared, he⟩ := exists_edited_of_runPasses h (edited_fresh source c) hbefore
    obtain ⟨text, htext, htyped⟩ := he.isTypedPair_iff h options
    have hproduced := produced_and_declaresTypes hc hresult
    rw [← husesTypes, he.source_eq, ← htyped] at hproduced
    refine ⟨outcome, before, after, text, hrun, hks ▸ hbefore, htext, by
      rw [hdraft, hflag], ?_, ?_, ?_⟩
    · rw [hflag]
      exact hproduced
    · rw [htyped]
      constructor
      · rintro ⟨p, hp, hobject, hrecords⟩
        obtain ⟨hstyle, span, members, hvalue⟩ := isTyped_iff.mp hobject
        exact ⟨hstyle, c, p, span, members, rfl, hp, hvalue, hrecords⟩
      · rintro ⟨hstyle, c', p, span, members, hc', hp, hvalue, hrecords⟩
        obtain rfl := Option.some.inj hc'
        exact ⟨p, hp, isTyped_iff.mpr ⟨hstyle, span, members, hvalue⟩, hrecords⟩
    · intro hfalse
      rw [hflag] at hfalse
      -- Props that are typed and can be read would have set the flag.
      have huntyped : ∀ p, c.property? "props" = some p → Pass.isTyped options p.value = true →
          PropTable.ofComponent source.toList c = [] := by
        intro p hp hobject
        by_contra hrecords
        rw [hproduced.mpr (htyped.mpr ⟨p, hp, hobject, hrecords⟩)] at hfalse
        cases hfalse
      obtain ⟨⟨declared', he'⟩, hplain⟩ := isPlain_of_runPasses h huntyped (edited_fresh source c)
        (fun i hi => by cases hi) hpasses
      refine ⟨fun i hi => ⟨c, rfl, hplain i hi⟩, fun q hq => ⟨c, rfl, ?_⟩⟩
      obtain ⟨-, callee, hcallee, rfl⟩ := (he'.replacement q).mp hq
      exact ⟨hcallee, rfl⟩

/-- Props that are given as a list. -/
def listedProps : String :=
  "export default defineComponent(\x7b props: ['x'], setup(p) \x7b f(p) \x7d \x7d)\n"

/-- The list is declared as it is. -/
theorem runScript_usesTypes_listedProps : ∃ program outcome after,
    Program.parse? ⟨false, false⟩ listedProps = some program ∧
    CanMoveSetup program {} listedProps ∧
    scriptSetup.runScript ⟨false, false⟩ {} listedProps = .ok outcome ∧
    outcome.usesTypes = false ∧
    scriptSetup.draft? program {} listedProps = some (after, false) ∧
    ∀ i ∈ after.insertions, ∃ c, Component.locate? program = some c ∧
      IsPlain listedProps program c i.text := by
  have hcheck : ((Program.parse? ⟨false, false⟩ listedProps).any fun program =>
      (Pass.setup program {} { source := listedProps }).isSome &&
        (runPasses program {} scriptSetup.passesBefore { source := listedProps }).any fun before =>
          Pass.insertion? Pass.props program {} before == some "const p = defineProps(['x'])\n") =
      true := by
    decide +kernel
  obtain ⟨program, hprogram, hcheck⟩ := (Option.any_eq_true _ _).mp hcheck
  obtain ⟨hsetup, hcheck⟩ := Bool.and_eq_true_iff.mp hcheck
  obtain ⟨before, hbefore, hcheck⟩ := (Option.any_eq_true _ _).mp hcheck
  have hinserted := eq_of_beq hcheck
  obtain ⟨outcome, before', after, text, hrun, hbefore', htext, hdraft, htypes, -, hplain⟩ :=
    runScript_usesTypes hprogram scriptSetup {} fun _ => hsetup
  obtain rfl := Option.some.inj (hbefore.symm.trans hbefore')
  obtain rfl := Option.some.inj (hinserted.symm.trans htext)
  have hflag : outcome.usesTypes = false := by
    rw [Bool.eq_false_iff]
    exact fun htrue => not_isTypedPair_runtimeProps "p" "['x']" (htypes.mp htrue)
  exact ⟨program, outcome, after, hprogram, hsetup, hrun, hflag, hflag ▸ hdraft, (hplain hflag).1⟩

/-- Props that are declared by a type, and a comment between two statements of `setup` that a
carriage return ends. -/
def typedComment : String :=
  "export default defineComponent(\x7b\n  props: \x7b a: String \x7d,\n  setup() \x7b\n" ++
  "    a() // x\r    b()\n  \x7d,\n\x7d)\n"

/-- The pass for props inserts its typed pair, but there is no result that could tell: the pass for
`setup` cannot cut out the statement behind the comment. -/
theorem runScript_typedComment : ∃ program before text,
    Program.parse? ⟨false, false⟩ typedComment = some program ∧
    runPasses program {} scriptSetup.passesBefore { source := typedComment } = some before ∧
    Pass.insertion? Pass.props program {} before = some text ∧
    text = "type Props = \x7b\n  a?: string\n\x7d\nconst props = defineProps<Props>()\n" ∧
    IsTypedPair text ∧
    scriptSetup.runScript ⟨false, false⟩ {} typedComment = .error .brokenSpan := by
  have hcheck : ((Program.parse? ⟨false, false⟩ typedComment).any fun program =>
      (Component.locate? program).any fun c =>
        (scriptSetup.rendered? program c {} typedComment).isNone &&
          (runPasses program {} scriptSetup.passesBefore { source := typedComment }).any
            fun before =>
            Pass.insertion? Pass.props program {} before ==
              some "type Props = \x7b\n  a?: string\n\x7d\nconst props = defineProps<Props>()\n") =
      true := by
    decide +kernel
  have hpair : IsTypedPair
      "type Props = \x7b\n  a?: string\n\x7d\nconst props = defineProps<Props>()\n" :=
    ⟨"props", [⟨"a", .keyword .string, none, none⟩], false, by decide⟩
  obtain ⟨program, hprogram, hcheck⟩ := (Option.any_eq_true _ _).mp hcheck
  obtain ⟨c, hc, hcheck⟩ := (Option.any_eq_true _ _).mp hcheck
  obtain ⟨hnone, hcheck⟩ := Bool.and_eq_true_iff.mp hcheck
  obtain ⟨before, hbefore, hcheck⟩ := (Option.any_eq_true _ _).mp hcheck
  exact ⟨program, before, _, hprogram, hbefore, eq_of_beq hcheck, rfl, hpair,
    runScript_eq_error hprogram hc (Option.isNone_iff_eq_none.mp hnone)⟩

end Transformation

end VueSetup
