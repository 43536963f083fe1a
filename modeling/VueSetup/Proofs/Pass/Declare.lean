import VueSetup.Pass.Emits
import VueSetup.Pass.Props
import VueSetup.Proofs.Component
import VueSetup.Proofs.Draft.Slice

/-!
# VueSetup.Proofs.Pass.Declare

What the passes record that declare the registered components, the props and the events.

Each of them adds edits to a draft that depend on the script alone, as long as no earlier edit lies
in the values that it declares. The declarations stand at the start of the component's export, those
of registered components behind the last import if there is one.
-/

namespace VueSetup.Pass

open Script (Laid Node Program)

variable {program : Program} {c : Component} {d : Draft}

/-- The text of a node. -/
def textOf (source : String) (n : Node) : String :=
  String.ofList (Text.between source.toList n.span.start n.span.stop)

/-- A node is cut out of the script as it is where no edit lies in it. -/
theorem slice?_of_laid {lo hi : Nat} {n : Node} (h : Laid d.source.toList lo hi [n])
    (hd : d.Untouched n.span) : d.slice? n.span = some (textOf d.source n) := by
  have hs := h.sits
  rw [Draft.slice?_of_untouched hd,
    Text.slice?_eq_between hs.start_isBoundary hs.stop_isBoundary hs.start_le_stop]
  rfl

/-! ### Registered components

Each registered component that needs one gets a binding. As the edits are insertions outside of the
export, or at the start of it, the value of the next component is cut out of the draft as it stands
in the script. -/

/-- The binding of a registered component. -/
def componentBinding (source : String) (entry : String × Node) : String :=
  Declaration.component entry.1 (textOf source entry.2)

/-- The bindings of the registered components that need one. -/
def componentBindings (source : String) (c : Component) : List String :=
  (componentEntries c).map (componentBinding source)

/-- The edit that writes the binding of a registered component. -/
def bindingEdit (program : Program) (c : Component) (binding : String) : Edit :=
  match lastImport? program with
  | some span => .insert span.stop ("\n" ++ binding)
  | none => .insert c.wrapper.start (binding ++ "\n")

/-- The binding is placed by one edit, whether there is an import or not. -/
theorem placeBinding_eq (d : Draft) (binding : String) :
    placeBinding program c d binding = d.recordAll [bindingEdit program c binding] := by
  unfold placeBinding bindingEdit
  cases lastImport? program <;> rfl

/-- The value of a registered component lies inside of the option that registers it. -/
theorem exists_of_mem_componentEntries {src : List Char} (hlies : c.LiesIn src)
    {entry : String × Node} (h : entry ∈ componentEntries c) :
    ∃ p, c.property? "components" = some p ∧ Laid src p.span.start p.span.stop [entry.2] := by
  unfold componentEntries at h
  split at h
  · next span members hvalue =>
    obtain ⟨p, hp, hobject⟩ := Option.map_eq_some_iff.mp hvalue
    obtain ⟨m, hm, hentry⟩ := List.mem_filterMap.mp h
    have hlaid := hlies.value hp
    rw [hobject] at hlaid
    cases m
    case property span computed key value =>
      obtain rfl : entry.2 = value := by
        unfold componentEntry? at hentry
        split at hentry
        · cases hentry
        · next heq =>
          cases heq
          obtain ⟨name, -, hentry⟩ := Option.bind_eq_some_iff.mp hentry
          split at hentry
          · cases hentry
            rfl
          · cases hentry
        · cases hentry
      exact ⟨p, hp, (hlaid.part_within hm).part_within (by simp [Node.parts])⟩
    all_goals cases hentry
  · cases h

/-- A component is registered by a plain name, or not at all. -/
theorem isPlainName_of_mem_componentEntries {entry : String × Node}
    (h : entry ∈ componentEntries c) :
    Declaration.isPlainName entry.1 = true := by
  unfold componentEntries at h
  split at h
  · obtain ⟨m, -, hentry⟩ := List.mem_filterMap.mp h
    unfold componentEntry? at hentry
    split at hentry
    · cases hentry
    · obtain ⟨name, -, hentry⟩ := Option.bind_eq_some_iff.mp hentry
      split at hentry
      · next hname =>
        cases hentry
        exact hname
      · cases hentry
    · cases hentry
  · cases h

/-- It lies inside of the export. -/
theorem laid_of_mem_componentEntries {src : List Char} (hlies : c.LiesIn src)
    {entry : String × Node} (h : entry ∈ componentEntries c) :
    Laid src (c.wrapper.start + 1) c.wrapper.stop [entry.2] := by
  obtain ⟨p, hp, hlaid⟩ := exists_of_mem_componentEntries hlies h
  exact hlaid.weaken (hlies.within hp).1 (hlies.within hp).2

/-- An insertion outside of a stretch, or on an end of it, does not lie in what is inside. -/
theorem isIn_insert_of_outside {lo hi offset : Nat} {span : Span} (text : String)
    (hlo : lo ≤ span.start) (hhi : span.stop ≤ hi) (h : offset ≤ lo ∨ hi ≤ offset) :
    (Edit.insert offset text).isIn span = false := by
  simp only [Edit.isIn, Bool.and_eq_false_iff, decide_eq_false_iff_not]
  omega

/-- A binding is not written inside of the export. -/
theorem isIn_bindingEdit {source : String} (h : c.InScript source program) {n : Node}
    (hlaid : Laid source.toList (c.wrapper.start + 1) c.wrapper.stop [n]) (binding : String) :
    (bindingEdit program c binding).isIn n.span = false := by
  have hlo := hlaid.sits.lo_le
  have hhi := hlaid.sits.le_hi
  unfold bindingEdit
  split
  · next span hspan =>
    have happart := (h.lastImport span hspan).2
    exact isIn_insert_of_outside _ hlo hhi (by omega)
  · exact isIn_insert_of_outside _ hlo hhi (by omega)

/-- Each binding is added to the draft; it lies in none of the values that are still to be cut
out. -/
theorem foldlM_bindComponent (program : Program) {entries : List (String × Node)}
    (hlaid : ∀ entry ∈ entries,
      Laid d.source.toList (c.wrapper.start + 1) c.wrapper.stop [entry.2])
    (hd : ∀ entry ∈ entries, d.Untouched entry.2.span)
    (hedit : ∀ entry ∈ entries, ∀ binding, (bindingEdit program c binding).isIn entry.2.span =
      false) :
    entries.foldlM (bindComponent program c) d =
      some (d.recordAll ((entries.map (componentBinding d.source)).map
        (bindingEdit program c))) := by
  induction entries generalizing d with
  | nil => simp
  | cons entry entries ih =>
    have hvalue := slice?_of_laid (hlaid entry (by simp)) (hd entry (by simp))
    have hbind : bindComponent program c d entry =
        some (d.recordAll [bindingEdit program c (componentBinding d.source entry)]) := by
      simp only [bindComponent, hvalue, placeBinding_eq]
      rfl
    rw [List.foldlM_cons, hbind]
    have hrest := ih (d := d.recordAll [bindingEdit program c (componentBinding d.source entry)])
      (fun e he => hlaid e (by simp [he]))
      (fun e he => (hd e (by simp [he])).recordAll (by simpa using hedit e (by simp [he]) _))
      (fun e he => hedit e (by simp [he]))
    simpa using hrest

/-- The bindings of registered components are added to the draft. -/
theorem components_records (h : c.InScript d.source program) (options : Options)
    (hd : ∀ entry ∈ componentEntries c, d.Untouched entry.2.span) :
    components program options d = some
      ⟨d.recordAll ((componentBindings d.source c).map (bindingEdit program c)),
        !(componentBindings d.source c).isEmpty⟩ := by
  have hfold := foldlM_bindComponent program
    (fun entry he => laid_of_mem_componentEntries h.liesIn he) hd
    (fun entry he binding => isIn_bindingEdit h (laid_of_mem_componentEntries h.liesIn he) binding)
  simp only [components, h.located, componentBindings]
  split
  · next hnil =>
    rw [hnil]
    simp [PassResult.idle]
  · next hne =>
    rw [hfold]
    have hproduced : (List.map (componentBinding d.source) (componentEntries c)).isEmpty =
        false := by
      simpa using hne
    rw [hproduced]
    rfl

/-! ### Props

The props are declared by one insertion at the start of the export. The option itself is left as it
stands. -/

/-- The declaration of the props, if there is one, is added to the draft. -/
theorem props_records {source : String} (h : c.InScript source program) (options : Options) :
    ∃ texts : List String, ∀ d : Draft, d.source = source →
      (∀ p, c.property? "props" = some p → d.Untouched p.value.span) →
      props program options d = some
        ⟨d.recordAll (texts.map (.insert c.wrapper.start)), !texts.isEmpty⟩ := by
  cases hp : c.property? "props" with
  | none =>
    refine ⟨[], fun d _ _ => ?_⟩
    simp [props, h.located, hp, PassResult.idle]
  | some property =>
    by_cases htyped : isTyped options property.value = true
    · cases hrecords : PropTable.ofComponent source.toList c with
      | nil =>
        refine ⟨[], fun d hd _ => ?_⟩
        simp [props, h.located, hp, htyped, hd, hrecords, PassResult.idle]
      | cons record records =>
        refine ⟨[Declaration.propsType (record :: records) ++ Declaration.typedProps
          (propsBindingName c) (record :: records) options.withDefaults], fun d hd _ => ?_⟩
        simp only [props, h.located, hp, htyped, hd, hrecords, if_true]
        rfl
    · refine ⟨[Declaration.runtimeProps (propsBindingName c)
        (textOf source property.value)], fun d hd huntouched => ?_⟩
      subst hd
      have hvalue := slice?_of_laid (h.liesIn.property hp) (huntouched property rfl)
      simp only [props, h.located, hp, htyped, hvalue]
      rfl

/-! ### Events

Beside the insertion that declares the events, each callee `ctx.emit` in `setup` is replaced by the
name of the binding. The replacements lie between the braces of `setup` and apart from each other.
-/

/-- Replacing the callees one by one is recording all of the edits. -/
theorem foldl_overwrite (d : Draft) (spans : List Span) (text : String) :
    spans.foldl (fun d span => d.overwrite span text) d =
      d.recordAll (spans.map (.replace · text)) := by
  induction spans generalizing d with
  | nil => simp
  | cons span spans ih =>
    rw [List.foldl_cons, ih, Draft.overwrite, Draft.record_eq, Draft.recordAll_append]
    rfl

/-- The callee of a call of `emit` is a member of a plain name. -/
theorem exists_of_contextEmit? {context : String} {n : Node} {span : Span}
    (h : contextEmit? context n = some span) :
    ∃ object, .member span object "emit" ∈ n.parts ∧ object.parts = [] := by
  unfold contextEmit? at h
  split at h
  · next object name types arguments =>
    split at h
    · cases h
      exact ⟨_, List.mem_cons_self, rfl⟩
    · cases h
  · cases h

/-- The callees that go to the declared binding. -/
def callees (c : Component) : List Span :=
  (c.setup?.map contextEmits).getD []

/-- Every callee is a member `emit` of a plain name in the setup function. -/
theorem exists_of_mem_callees {span : Span} (h : span ∈ callees c) :
    ∃ s object, c.setup? = some s ∧ object.parts = [] ∧
      .member span object "emit" ∈ Node.nodesOf (s.directives ++ s.statements) := by
  unfold callees at h
  cases hs : c.setup? with
  | none => simp [hs] at h
  | some s =>
    rw [hs, Option.map_some, Option.getD_some, contextEmits] at h
    split at h
    · obtain ⟨n, hn, hspan⟩ := List.mem_filterMap.mp h
      rw [← Node.nodesOf_append] at hn
      obtain ⟨object, hmem, hobject⟩ := exists_of_contextEmit? hspan
      exact ⟨s, object, rfl, hobject, Node.mem_nodesOf_of_mem_parts hn hmem⟩
    · cases h

/-- A callee covers characters inside of the braces of the setup function. -/
structure CalleeLiesIn (src : List Char) (c : Component) (span : Span) : Prop where
  start_lt_stop : span.start < span.stop
  start_isBoundary : Text.IsBoundary src span.start
  stop_isBoundary : Text.IsBoundary src span.stop
  within : ∃ p, c.property? "setup" = some p ∧ p.span.start < span.start ∧ span.stop < p.span.stop

/-- The callees lie where the setup function does. -/
theorem calleeLiesIn {src : List Char} (h : c.LiesIn src) {span : Span} (hspan : span ∈ callees c) :
    CalleeLiesIn src c span := by
  obtain ⟨s, object, hs, -, hmem⟩ := exists_of_mem_callees hspan
  obtain ⟨p, hp, hlies⟩ := h.setup hs
  have hsits := (hlies.laid.of_mem_nodesOf hmem).sits
  have hlo := hsits.lo_le
  have hhi := hsits.le_hi
  have hbody := hlies.lo_le
  have hbody' := hlies.le_hi
  have hproper : span.start < span.stop := hsits.proper
  simp only [Node.span] at hlo hhi
  exact ⟨hproper, hsits.start_isBoundary, hsits.stop_isBoundary, p, hp, by omega, by omega⟩

/-- A callee lies inside of the export, as the option does. -/
theorem CalleeLiesIn.within_wrapper {src : List Char} {span : Span}
    (hspan : CalleeLiesIn src c span)
    (h : c.LiesIn src) : c.wrapper.start < span.start ∧ span.stop < c.wrapper.stop := by
  obtain ⟨p, hp, hstart, hstop⟩ := hspan.within
  have hwithin := h.within hp
  omega

/-- Two callees are the same one, or the one ends before the other starts: below the one member
there is only the name of the context. -/
theorem callees_apart {src : List Char} (h : c.LiesIn src) {a b : Span} (ha : a ∈ callees c)
    (hb : b ∈ callees c) : a = b ∨ a.stop ≤ b.start ∨ b.stop ≤ a.start := by
  obtain ⟨s, object, hs, hobject, hmem⟩ := exists_of_mem_callees ha
  obtain ⟨s', object', hs', hobject', hmem'⟩ := exists_of_mem_callees hb
  rw [hs, Option.some.injEq] at hs'
  subst hs'
  -- a member below a callee is that callee
  have hsame : ∀ {x y : Span} {m n : Node}, n.parts = [] → m.parts = [] →
      Node.member x m "emit" ∈ (Node.member y n "emit").nodes → x = y := by
    intro x y m n hn hm hmem
    rw [Node.nodes_eq, List.mem_cons, Node.mem_nodesOf] at hmem
    rcases hmem with heq | ⟨part, hpart, hmem⟩
    · cases heq
      rfl
    · rw [Node.parts, List.mem_singleton] at hpart
      rw [hpart, Node.nodes_eq, hn, Node.nodesOf, List.mem_singleton] at hmem
      rw [← hmem] at hn
      cases hn
  obtain ⟨p, -, hlies⟩ := h.setup hs
  rcases hlies.laid.nested_or_apart hmem hmem' (by simp [Node.parts]) (by simp [Node.parts]) with
    hin | hin | happart
  · exact .inl (hsame hobject' hobject hin)
  · exact .inl (hsame hobject hobject' hin).symm
  · exact .inr happart

/-- The declaration of the events, if there is one, and what the calls of `emit` become are added to
the draft. -/
theorem emits_records {source : String} (h : c.InScript source program) (options : Options) :
    ∃ (texts : List String) (spans : List Span), spans = (if texts.isEmpty then [] else callees c) ∧
      ∀ d : Draft, d.source = source →
        (∀ p, c.property? "emits" = some p → d.Untouched p.value.span) →
        emits program options d = some
          ⟨d.recordAll (texts.map (.insert c.wrapper.start) ++
            spans.map (.replace · Declaration.emitBinding)), !texts.isEmpty⟩ := by
  cases hp : c.property? "emits" with
  | none =>
    refine ⟨[], [], rfl, fun d _ _ => ?_⟩
    simp [emits, h.located, hp, PassResult.idle]
  | some property =>
    by_cases hlists : listsEvents property.value = true
    · refine ⟨[Declaration.emits (textOf source property.value)], callees c, rfl,
        fun d hd huntouched => ?_⟩
      subst hd
      have hvalue := slice?_of_laid (h.liesIn.property hp) (huntouched property rfl)
      simp [emits, h.located, hp, hlists, hvalue, foldl_overwrite, Draft.insertBefore,
        Draft.insert, Draft.record_eq, PassResult.made, callees]
    · refine ⟨[], [], rfl, fun d _ _ => ?_⟩
      simp [emits, h.located, hp, hlists, PassResult.idle]

end VueSetup.Pass
