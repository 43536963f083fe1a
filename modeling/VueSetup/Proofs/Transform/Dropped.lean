import VueSetup.Proofs.Transform.Outcome

/-!
# VueSetup.Proofs.Transform.Dropped

What becomes of the options when the definition of a component goes.

A pass finds its option by the name, if it is the first with that name and its key is not computed,
and leaves alone what it cannot handle. An option is reported by its name alone. Between the two
some are **overlooked**: nothing is made of them, and they are not reported either
(`runScript_overlooked`).

Two walks over the members are compared. The passes look up an option by its name, and take the
first member that has it with a key that is not computed. The report goes through all members and
takes their names, computed or not, but for the names that passes look for.
-/

namespace VueSetup

open Script (Dialect Node Program)

namespace PassName

/-- The option that a pass looks for. -/
def option : PassName → String
  | .components => "components"
  | .props => "props"
  | .emits => "emits"
  | .setup => "setup"

/-- The pass that looks for an option. -/
def ofOption? : String → Option PassName
  | "components" => some .components
  | "props" => some .props
  | "emits" => some .emits
  | "setup" => some .setup
  | _ => none

/-- The statements of a function with a body in braces. -/
def statements? : Node → Option (List Node)
  | .function _ _ _ _ [.block _ _ statements] => some statements
  | .arrow _ _ _ _ (.block _ _ statements) => some statements
  | _ => none

/-- The pass can handle a value of this shape. -/
def handles : PassName → Node → Bool
  | .components, .object _ _ => true
  | .components, _ => false
  | .props, _ => true
  | .emits, value => Pass.listsEvents value
  | .setup, value => (statements? value).isSome

/-- The value has the right shape, and in it nothing that the pass would move. -/
def HoldsNothing (source : List Char) : PassName → Node → Prop
  | .components, .object _ members => ∀ m ∈ members, Pass.componentEntry? m = none
  | .props, .object _ members => ∀ key p, findProperty? members key = some p →
    PropTable.record? source key p.value = none
  | .setup, value => ∃ statements, statements? value = some statements ∧
    ∀ n ∈ statements, ∃ span result, n = .returnStatement span result
  | _, _ => False

/-- The pass finds this member behind the others: its key has the name and is not computed, and no
other with the name comes before it. -/
def Finds (k : PassName) (before : List Node) (m value : Node) : Prop :=
  ∃ span key, m = .property span false key value ∧ key.keyName? = some k.option ∧
    findProperty? before k.option = none

end PassName

namespace Component

/-- The names by which members are reported. -/
def reported (members : List Node) : List String :=
  (members.filterMap memberName?).filter fun name => !handledOptions.contains name

/-- Nothing is made of the member, and it is not reported. -/
def overlooked (before : List Node) : Node → Bool
  | .property _ computed key value =>
    match key.keyName? with
    | none => true
    | some name =>
      match PassName.ofOption? name with
      | none => false
      | some k => computed || (findProperty? before name).isSome || !k.handles value
  | .spread _ _ => false
  | _ => true

end Component

/-! ### Passes keep the source

A pass records edits and leaves the text that they are about as it is. -/

namespace Pass

variable {program : Program} {options : Options} {c : Component} {d d' : Draft} {r : PassResult}

/-- Bindings are added to the edits. -/
theorem source_foldlM_bindComponent {entries : List (String × Node)}
    (h : entries.foldlM (bindComponent program c) d = some d') : d'.source = d.source := by
  induction entries generalizing d with
  | nil =>
    cases h
    rfl
  | cons entry entries ih =>
    rw [List.foldlM_cons] at h
    obtain ⟨bound, hbound, h⟩ := Option.bind_eq_some_iff.mp h
    obtain ⟨value, -, hbound⟩ := Option.bind_eq_some_iff.mp hbound
    cases hbound
    rw [ih h, placeBinding]
    split <;> rfl

/-- The pass for registered components. -/
theorem source_components (h : components program options d = some r) :
    r.draft.source = d.source := by
  unfold components at h
  split at h
  · cases h
    rfl
  · split at h
    · cases h
      rfl
    · obtain ⟨d', hfold, rfl⟩ := Option.map_eq_some_iff.mp h
      exact source_foldlM_bindComponent hfold

/-- The pass for props. -/
theorem source_props (h : props program options d = some r) : r.draft.source = d.source := by
  unfold props at h
  split at h
  · cases h
    rfl
  · split at h
    · cases h
      rfl
    · dsimp only at h
      split at h
      · split at h <;> cases h <;> rfl
      · obtain ⟨value, -, h⟩ := Option.bind_eq_some_iff.mp h
        cases h
        rfl

/-- The pass for events. -/
theorem source_emits (h : emits program options d = some r) : r.draft.source = d.source := by
  unfold emits at h
  split at h
  · cases h
    rfl
  · split at h
    · cases h
      rfl
    · split at h
      · obtain ⟨value, -, h⟩ := Option.bind_eq_some_iff.mp h
        cases h
        rw [foldl_overwrite]
        rfl
      · cases h
        rfl

end Pass

/-! ### What a pass makes of the option that it finds

Each pass has its own shapes of values. Of a value of another shape it makes nothing; of one that
has the shape it makes something, unless nothing is in it that could be declared or moved. -/

namespace Pass

variable {program : Program} {options : Options} {c : Component} {d : Draft} {r : PassResult}
  {p : Property}

/-- Something is made of registered components if one of them needs a binding. -/
theorem produced_components (hc : Component.locate? program = some c)
    (hr : components program options d = some r) :
    r.produced = true ↔ componentEntries c ≠ [] := by
  simp only [components, hc] at hr
  split at hr
  · next hnil =>
    cases hr
    simp [PassResult.idle, hnil]
  · next hne =>
    obtain ⟨d', -, rfl⟩ := Option.map_eq_some_iff.mp hr
    simpa [PassResult.made] using hne

/-- Something is made of props, unless they are to be typed and none can be read. -/
theorem produced_props (hc : Component.locate? program = some c)
    (hp : c.property? "props" = some p) (hr : props program options d = some r) :
    r.produced = true ↔
      (isTyped options p.value = true → PropTable.ofComponent d.source.toList c ≠ []) := by
  simp only [props, hc, hp] at hr
  split at hr
  · next htyped =>
    split at hr
    · next hnil =>
      cases hr
      simp [PassResult.idle, htyped, hnil]
    · next hne =>
      cases hr
      simpa [PassResult.made, htyped] using hne
  · next htyped =>
    obtain ⟨value, -, hr⟩ := Option.bind_eq_some_iff.mp hr
    cases hr
    simp [PassResult.made, htyped]

/-- Something is made of events if they are listed. -/
theorem produced_emits (hc : Component.locate? program = some c)
    (hp : c.property? "emits" = some p) (hr : emits program options d = some r) :
    r.produced = true ↔ listsEvents p.value = true := by
  simp only [emits, hc, hp] at hr
  split at hr
  · next hlists =>
    obtain ⟨value, -, hr⟩ := Option.bind_eq_some_iff.mp hr
    cases hr
    simp [PassResult.made, hlists]
  · next hlists =>
    cases hr
    simp [PassResult.idle, hlists]

/-- No segment is made of statements that all return, and of no others. -/
theorem segments?_eq_nil_iff {source : List Char} {start stop cursor : Nat} {made : Bool}
    {statements : List Node} {segments : List Segment}
    (h : segments? source start stop cursor made statements = some segments) :
    segments = [] ↔ ∀ n ∈ statements, ∃ span result, n = .returnStatement span result := by
  constructor
  · rintro rfl n hn
    apply Classical.byContradiction
    intro hreturn
    obtain ⟨g, hg, -⟩ := exists_segment h hn fun span value heq => hreturn ⟨span, value, heq⟩
    cases hg
  · intro hall
    fun_induction segments? source start stop cursor made statements with
    | case1 =>
      cases h
      rfl
    | case2 cursor made span value rest ih =>
      exact ih h fun n hn => hall n (List.mem_cons_of_mem _ hn)
    | case3 cursor made statement rest hother =>
      obtain ⟨span, value, heq⟩ := hall statement List.mem_cons_self
      exact absurd heq (hother span value)

/-- Something is made of a setup function, unless all its statements return. -/
theorem produced_setup {s : Setup} (hc : Component.locate? program = some c)
    (hs : c.setup? = some s) (hr : setup program options d = some r) :
    r.produced = true ↔ ¬ ∀ n ∈ s.statements, ∃ span result, n = .returnStatement span result := by
  simp only [setup, hc, hs] at hr
  obtain ⟨segments, hsegments, hr⟩ := Option.bind_eq_some_iff.mp hr
  rw [← segments?_eq_nil_iff hsegments]
  cases segments with
  | nil =>
    cases hr
    simp [PassResult.idle]
  | cons g segments =>
    obtain ⟨texts, -, hr⟩ := Option.bind_eq_some_iff.mp hr
    cases hr
    simp [PassResult.made]

/-- Without a setup function nothing is made. -/
theorem produced_setup_of_none (hc : Component.locate? program = some c) (hs : c.setup? = none)
    (hr : setup program options d = some r) : r.produced = false := by
  simp only [setup, hc, hs] at hr
  cases hr
  rfl

end Pass

/-- A key that is found is one of the keys. -/
theorem PropTable.mem_keys_of_findProperty? {members : List Node} {key : String} {p : Property}
    (h : findProperty? members key = some p) : key ∈ keys members := by
  obtain ⟨node, hmem, hkey⟩ := Component.exists_of_findProperty? h
  rw [keys, List.mem_eraseDups, List.mem_filterMap]
  exact ⟨_, hmem, hkey⟩

/-- There are no records if no key has a value that tells a type. -/
theorem PropTable.ofMembers_eq_nil_iff {source : List Char} {members : List Node} :
    ofMembers source members = [] ↔
      ∀ key p, findProperty? members key = some p → record? source key p.value = none := by
  rw [ofMembers, List.filterMap_eq_nil_iff]
  constructor
  · intro h key p hp
    simpa [hp] using h key (mem_keys_of_findProperty? hp)
  · intro h key _
    cases hp : findProperty? members key with
    | none => rfl
    | some p => exact h key p hp

namespace PassName

variable {program : Program} {options : Options} {c : Component} {d : Draft} {r : PassResult}
  {p : Property}

/-- The statements of the setup function are those of the value under its name. -/
theorem statements?_eq (hp : c.property? "setup" = some p) :
    c.setup?.map Setup.statements = statements? p.value := by
  unfold Component.setup? statements?
  rw [hp, Option.map_some]
  split <;> simp_all

/-- A pass that can handle what it finds makes something of it, unless nothing is in it. -/
theorem produced_or_holdsNothing_iff (k : PassName) (hc : Component.locate? program = some c)
    (hp : c.property? k.option = some p) (hr : k.pass program options d = some r) :
    r.produced = true ∨ HoldsNothing d.source.toList k p.value ↔ k.handles p.value = true := by
  cases k with
  | components =>
    have hp : c.property? "components" = some p := hp
    have hr : Pass.components program options d = some r := hr
    rw [Pass.produced_components hc hr, Pass.componentEntries, hp, Option.map_some]
    cases p.value with
    | object span members =>
      simp only [HoldsNothing, handles, iff_true, ne_eq, List.filterMap_eq_nil_iff]
      exact (Decidable.em _).symm
    | _ => simp [HoldsNothing, handles]
  | props =>
    have hp : c.property? "props" = some p := hp
    have hr : Pass.props program options d = some r := hr
    rw [Pass.produced_props hc hp hr, PropTable.ofComponent, hp, Option.map_some]
    cases p.value with
    | object span members =>
      simp only [HoldsNothing, handles, iff_true, ne_eq, ← PropTable.ofMembers_eq_nil_iff]
      by_cases hnil : PropTable.ofMembers d.source.toList members = []
      · exact .inr hnil
      · exact .inl fun _ => hnil
    | _ => simp [Pass.isTyped, handles]
  | emits =>
    have hr : Pass.emits program options d = some r := hr
    rw [Pass.produced_emits hc hp hr]
    simp [HoldsNothing, handles]
  | setup =>
    have hr : Pass.setup program options d = some r := hr
    -- Without a function that has a body there are no statements, and the pass makes nothing.
    have hstatements := statements?_eq hp
    cases hs : c.setup? with
    | none =>
      rw [hs] at hstatements
      simp [Pass.produced_setup_of_none hc hs hr, HoldsNothing, handles, ← hstatements]
    | some s =>
      rw [hs] at hstatements
      rw [Pass.produced_setup hc hs hr]
      simp only [HoldsNothing, handles, ← hstatements, Option.map_some, Option.some.injEq,
        exists_eq_left', Option.isSome_some, iff_true]
      exact (Classical.em _).symm

end PassName

/-! ### Members

A member is given with those before it, as only the first one of a name counts. -/

namespace PassName

/-- Each pass looks for one name. -/
theorem ofOption?_eq_some_iff {name : String} {k : PassName} :
    ofOption? name = some k ↔ name = k.option := by
  constructor
  · intro h
    unfold ofOption? at h
    split at h <;> cases h <;> rfl
  · rintro rfl
    cases k <;> rfl

/-- No two passes look for the same name. -/
theorem option_inj {k k' : PassName} (h : k.option = k'.option) : k = k' :=
  Option.some.inj ((ofOption?_eq_some_iff.mpr rfl).symm.trans (ofOption?_eq_some_iff.mpr h))

/-- The names that are not reported are those that passes look for. -/
theorem mem_handledOptions_iff {name : String} :
    name ∈ Component.handledOptions ↔ ∃ k : PassName, name = k.option := by
  constructor
  · intro h
    simp only [Component.handledOptions, List.mem_cons, List.not_mem_nil, or_false] at h
    rcases h with rfl | rfl | rfl | rfl
    · exact ⟨.props, rfl⟩
    · exact ⟨.emits, rfl⟩
    · exact ⟨.components, rfl⟩
    · exact ⟨.setup, rfl⟩
  · rintro ⟨k, rfl⟩
    cases k <;> decide

/-- What a pass finds is what a look up by name gives. -/
theorem Finds.exists_property {k : PassName} {c : Component} {before after : List Node}
    {m value : Node} (h : k.Finds before m value) (hmembers : c.members = before ++ m :: after) :
    ∃ p, c.property? k.option = some p ∧ p.value = value := by
  obtain ⟨span, key, rfl, hkey, hbefore⟩ := h
  refine ⟨⟨span, value⟩, ?_, rfl⟩
  rw [Component.property?, findProperty?, hmembers, List.findSome?_append,
    show before.findSome? _ = none from hbefore]
  simp [hkey]

end PassName

namespace Component

/-- A member that is reported: its name is not one that a pass looks for. -/
def IsReported (m : Node) : Prop :=
  ∃ name, memberName? m = some name ∧ name ∉ handledOptions

/-- Members are reported in their order. -/
theorem reported_append (before behind : List Node) :
    reported (before ++ behind) = reported before ++ reported behind := by
  simp [reported]

/-- The members that are reported are those with an entry of their own. -/
theorem isReported_iff {before after : List Node} {m : Node} :
    (∃ name, memberName? m = some name ∧
      reported (before ++ m :: after) = reported before ++ name :: reported after) ↔
      IsReported m := by
  have hcons : m :: after = [m] ++ after := rfl
  rw [reported_append, hcons, reported_append]
  constructor
  · rintro ⟨name, hname, heq⟩
    refine ⟨name, hname, fun hmem => ?_⟩
    -- without an entry of its own the report would be shorter by one
    have hnone : reported [m] = [] := by simp [reported, hname, hmem]
    rw [hnone, List.nil_append, List.append_cancel_left_eq] at heq
    have hlength := congrArg List.length heq
    rw [List.length_cons] at hlength
    omega
  · rintro ⟨name, hname, hmem⟩
    have hone : reported [m] = [name] := by simp [reported, hname, hmem]
    exact ⟨name, hname, by rw [hone]; rfl⟩

/-- A member is not overlooked if a pass finds it and can handle it, or if it is reported. -/
theorem overlooked_eq_false_iff {before : List Node} {m : Node} :
    overlooked before m = false ↔
      (∃ k value, PassName.Finds k before m value ∧ k.handles value = true) ∨ IsReported m := by
  cases m with
  | property span computed key value =>
    cases hkey : key.keyName? with
    | none => simp [overlooked, hkey, PassName.Finds, IsReported, memberName?]
    | some name =>
      cases hk : PassName.ofOption? name with
      | none =>
        have hother : name ∉ handledOptions := by
          intro hmem
          obtain ⟨k, rfl⟩ := PassName.mem_handledOptions_iff.mp hmem
          rw [PassName.ofOption?_eq_some_iff.mpr rfl] at hk
          cases hk
        simp only [overlooked, hkey, hk, true_iff]
        exact .inr ⟨name, hkey, hother⟩
      | some k =>
        obtain rfl := PassName.ofOption?_eq_some_iff.mp hk
        simp only [overlooked, hkey, hk, Bool.or_eq_false_iff, Bool.not_eq_false',
          Option.isSome_eq_false_iff, Option.isNone_iff_eq_none]
        constructor
        · rintro ⟨⟨rfl, hfirst⟩, hhandles⟩
          exact .inl ⟨k, value, ⟨span, key, rfl, hkey, hfirst⟩, hhandles⟩
        · rintro (⟨k', value', ⟨span', key', heq, hkey', hfirst⟩, hhandles⟩ | ⟨name, hname, hother⟩)
          · cases heq
            rw [hkey, Option.some.injEq] at hkey'
            obtain rfl := PassName.option_inj hkey'
            exact ⟨⟨rfl, hfirst⟩, hhandles⟩
          · obtain rfl : name = k.option := Option.some.inj (hname.symm.trans hkey)
            exact absurd (PassName.mem_handledOptions_iff.mpr ⟨k, rfl⟩) hother
  | spread span argument =>
    simp only [overlooked, true_iff]
    exact .inr ⟨"...", rfl, by decide⟩
  | _ => simp [overlooked, PassName.Finds, IsReported, memberName?]

end Component

namespace Transformation

/-- The results of the four passes, each run on the draft that the one before it leaves. -/
structure PassesRan (program : Program) (options : Options) (source : String)
    (results : PassName → PassResult) : Prop where
  components : Pass.components program options { source } = some (results .components)
  props : Pass.props program options (results .components).draft = some (results .props)
  emits : Pass.emits program options (results .props).draft = some (results .emits)
  setup : Pass.setup program options (results .emits).draft = some (results .setup)

/-- A member is not lost: a pass found it and made a declaration of it, or found nothing in it, or
it has an entry of its own among the dropped options. -/
def Accounted (source : String) (results : PassName → PassResult) (dropped : List String)
    (before : List Node) (m : Node) (after : List Node) : Prop :=
  (∃ k value, PassName.Finds k before m value ∧ (results k).produced = true) ∨
    (∃ k value, PassName.Finds k before m value ∧ k.HoldsNothing source.toList value) ∨
    ∃ name, Component.memberName? m = some name ∧
      dropped = Component.reported before ++ name :: Component.reported after

variable {dialect : Dialect} {options : Options} {source : String} {program : Program}
  {c : Component}

/-- The draft of a setup script is what the four passes leave behind. -/
theorem exists_passesRan {d : Draft} {usesTypes : Bool}
    (h : scriptSetup.draft? program options source = some (d, usesTypes)) :
    ∃ results, PassesRan program options source results := by
  simp only [draft?, runPasses, passesBefore, passesAfter, List.foldlM_cons, List.foldlM_nil,
    Option.bind_eq_bind, Option.bind_eq_some_iff, Option.map_eq_some_iff, Option.pure_def] at h
  obtain ⟨_, ⟨_, ⟨rc, hrc, rfl⟩, h'⟩, rp, hrp, _, ⟨_, ⟨re, hre, rfl⟩, _, ⟨rs, hrs, rfl⟩, -⟩, -⟩ := h
  cases h'
  let results : PassName → PassResult
    | .components => rc
    | .props => rp
    | .emits => re
    | .setup => rs
  exact ⟨results, hrc, hrp, hre, hrs⟩

/-- Each pass runs on a draft of the same source. -/
theorem PassesRan.exists_draft {results : PassName → PassResult}
    (h : PassesRan program options source results) (k : PassName) :
    ∃ d : Draft, d.source = source ∧ k.pass program options d = some (results k) := by
  have hcomponents := Pass.source_components h.components
  have hprops := (Pass.source_props h.props).trans hcomponents
  have hemits := (Pass.source_emits h.emits).trans hprops
  cases k with
  | components => exact ⟨_, rfl, h.components⟩
  | props => exact ⟨_, hcomponents, h.props⟩
  | emits => exact ⟨_, hprops, h.emits⟩
  | setup => exact ⟨_, hemits, h.setup⟩

/-- The outcome lists what is reported, and the passes have run. -/
theorem dropped_runScript {outcome : ScriptOutcome}
    (hprogram : Program.parse? dialect source = some program)
    (hc : Component.locate? program = some c)
    (hrun : scriptSetup.runScript dialect options source = .ok outcome) :
    outcome.dropped = Component.reported c.members ∧
      ∃ d usesTypes, scriptSetup.draft? program options source = some (d, usesTypes) := by
  have h := Component.inScript_of_parse? hprogram hc
  delta runScript at hrun
  simp only [hprogram, hc] at hrun
  split at hrun
  · cases hrun
  · next r hr =>
    have hchanged := (changed_rendered? h hr).mpr (.inl rfl)
    rw [if_pos hchanged] at hrun
    cases hrun
    obtain ⟨⟨d, usesTypes⟩, hdraft, -⟩ := Option.bind_eq_some_iff.mp hr
    exact ⟨rfl, d, usesTypes, hdraft⟩

/-- Accounted for is what is not overlooked. -/
theorem accounted_iff {results : PassName → PassResult}
    (hc : Component.locate? program = some c) (hran : PassesRan program options source results)
    {before after : List Node} {m : Node} (hmembers : c.members = before ++ m :: after) :
    Accounted source results (Component.reported c.members) before m after ↔
      Component.overlooked before m = false := by
  have hfound : ∀ {k value}, PassName.Finds k before m value →
      ((results k).produced = true ∨ k.HoldsNothing source.toList value ↔
        k.handles value = true) := by
    intro k value hfinds
    obtain ⟨p, hp, rfl⟩ := hfinds.exists_property hmembers
    obtain ⟨d, rfl, hpass⟩ := hran.exists_draft k
    exact k.produced_or_holdsNothing_iff hc hp hpass
  rw [Accounted, hmembers, Component.isReported_iff, Component.overlooked_eq_false_iff, ← or_assoc]
  apply or_congr_left
  constructor
  · rintro (⟨k, value, hfinds, hproduced⟩ | ⟨k, value, hfinds, hnothing⟩)
    · exact ⟨k, value, hfinds, (hfound hfinds).mp (.inl hproduced)⟩
    · exact ⟨k, value, hfinds, (hfound hfinds).mp (.inr hnothing)⟩
  · rintro ⟨k, value, hfinds, hhandles⟩
    rcases (hfound hfinds).mpr hhandles with hproduced | hnothing
    · exact .inl ⟨k, value, hfinds, hproduced⟩
    · exact .inr ⟨k, value, hfinds, hnothing⟩

/-- **What becomes of the options.** When the definition of a component goes, each of its options is
accounted for, unless it is overlooked: unless it has no name, or has a name that a pass looks for
but with a key that is computed or comes again, or with a value of a shape that the pass does not
handle. -/
theorem runScript_overlooked {outcome : ScriptOutcome}
    (hprogram : Program.parse? dialect source = some program)
    (hc : Component.locate? program = some c)
    (hrun : scriptSetup.runScript dialect options source = .ok outcome) :
    ∃ results, PassesRan program options source results ∧
      ∀ before m after, c.members = before ++ m :: after →
        (Accounted source results outcome.dropped before m after ↔
          Component.overlooked before m = false) := by
  obtain ⟨hdropped, d, usesTypes, hdraft⟩ := dropped_runScript hprogram hc hrun
  obtain ⟨results, hran⟩ := exists_passesRan hdraft
  rw [hdropped]
  exact ⟨results, hran, fun before m after hmembers => accounted_iff hc hran hmembers⟩

/-- Options of all kinds: one that is reported, one that is declared, one that comes again, and one
in which there is nothing. -/
def mixedOptions : String :=
  "export default defineComponent(\x7b name: 'a', props: ['b'], props: ['c'],\n" ++
  "  setup() \x7b\x7d \x7d)\n"

theorem runScript_overlooked_mixedOptions : ∃ program c outcome,
    Program.parse? ⟨false, false⟩ mixedOptions = some program ∧
    Component.locate? program = some c ∧ c.members.length = 4 ∧
    scriptSetup.runScript ⟨false, false⟩ {} mixedOptions = .ok outcome ∧
    outcome.dropped = ["name"] ∧
    ∃ results, PassesRan program {} mixedOptions results ∧
      ∀ before m after, c.members = before ++ m :: after →
        (Accounted mixedOptions results outcome.dropped before m after ↔
          Component.overlooked before m = false) := by
  have hparsed : ((Program.parse? ⟨false, false⟩ mixedOptions).bind fun program =>
      (Component.locate? program).map fun c => (c.members.length, Component.reported c.members,
        (Pass.setup program {} { source := mixedOptions }).isSome)) = some (4, ["name"], true) := by
    decide +kernel
  obtain ⟨program, hprogram, hparsed⟩ := Option.bind_eq_some_iff.mp hparsed
  obtain ⟨c, hc, hparsed⟩ := Option.map_eq_some_iff.mp hparsed
  simp only [Prod.mk.injEq] at hparsed
  obtain ⟨hlength, hreported, hsetup⟩ := hparsed
  obtain ⟨outcome, hrun, -⟩ := runScript_outcome hprogram fun _ => hsetup
  exact ⟨program, c, outcome, hprogram, hc, hlength, hrun,
    (dropped_runScript hprogram hc hrun).1.trans hreported, runScript_overlooked hprogram hc hrun⟩

/-- Props under a key that is computed, though its value is plain to see. -/
def computedProps : String :=
  "export default defineComponent(\x7b ['props']: ['a'] \x7d)\n"

/-- The pass for props takes no key that is computed, and what is reported goes by the name of the
key alone: the props are lost without a word. -/
theorem runScript_computedProps : ∃ program c m outcome,
    Program.parse? ⟨false, false⟩ computedProps = some program ∧
    Component.locate? program = some c ∧ c.members = [m] ∧
    scriptSetup.runScript ⟨false, false⟩ {} computedProps = .ok outcome ∧ outcome.code = "\n" ∧
    outcome.dropped = [] ∧ ∀ results, PassesRan program {} computedProps results →
      ¬ Accounted computedProps results outcome.dropped [] m [] := by
  have hlocated : (((Program.parse? ⟨false, false⟩ computedProps).bind Component.locate?).map
      fun c => c.members.map (Component.overlooked [])) = some [true] := by
    decide +kernel
  have houtcome : (scriptSetup.runScript ⟨false, false⟩ {} computedProps).toOption =
      some ⟨"\n", true, false, []⟩ := by
    decide +kernel
  obtain ⟨c, hc, hmembers⟩ := Option.map_eq_some_iff.mp hlocated
  obtain ⟨program, hprogram, hc⟩ := Option.bind_eq_some_iff.mp hc
  obtain ⟨m, hmembers, hoverlooked⟩ := List.map_eq_singleton_iff.mp hmembers
  have hrun := eq_ok_of_toOption houtcome
  refine ⟨program, c, m, _, hprogram, hc, hmembers, hrun, rfl, rfl, ?_⟩
  intro results hran haccounted
  rw [(dropped_runScript hprogram hc hrun).1,
    accounted_iff hc hran (show c.members = [] ++ [m] from hmembers), hoverlooked] at haccounted
  cases haccounted

end Transformation

end VueSetup
