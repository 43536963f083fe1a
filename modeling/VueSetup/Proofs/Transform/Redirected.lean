import VueSetup.Proofs.Transform.Independence

/-!
# VueSetup.Proofs.Transform.Redirected

Calls of `emit` on the context of `setup`, which go to the declared binding (`emits_redirects`).

The pass for events looks through the list of all nodes of the body. Two things make its rewriting
exact: a node is in that list if and only if it stands somewhere below a statement
(`Node.mem_nodes_iff`), and no call is in it twice, so that the callees lie apart from each other
(`Pass.pairwise_contextEmit?`). A slice of a statement then is its text with the callees in it
replaced one after the other.
-/

namespace VueSetup

open Script (Dialect Laid Node Program)

namespace Script.Node

/-! ### At any depth

The pass has one list of nodes, and the claim is about trees. Membership in the list is the same as
standing somewhere below. -/

/-- The first node is the second one or stands below it, at any depth. -/
inductive IsBelow (n : Node) : Node → Prop where
  | self : IsBelow n n
  | part {p m : Node} : p ∈ m.parts → IsBelow n p → IsBelow n m

/-- The list of all nodes of a tree holds what stands in the tree, and nothing else. -/
theorem mem_nodes_iff {n : Node} (m : Node) : n ∈ m.nodes ↔ n.IsBelow m := by
  rw [nodes_eq, List.mem_cons]
  constructor
  · intro h
    rcases h with rfl | h
    · exact .self
    · obtain ⟨p, hp, h⟩ := mem_nodesOf.mp h
      have hsmaller := sizeOf_lt_of_mem_parts hp
      exact .part hp ((mem_nodes_iff p).mp h)
  · intro h
    cases h with
    | self => exact .inl rfl
    | part hp h =>
      have hsmaller := sizeOf_lt_of_mem_parts hp
      exact .inr (mem_nodesOf.mpr ⟨_, hp, (mem_nodes_iff _).mpr h⟩)
termination_by sizeOf m

/-- The nodes of several trees are those of each. -/
theorem nodesOf_eq_flatMap (ns : List Node) : nodesOf ns = ns.flatMap nodes := by
  induction ns with
  | nil => rfl
  | cons n ns ih => rw [nodesOf, List.flatMap_cons, ih]

/-- The parts of a node, in whatever order they are listed. -/
theorem Comprises.perm {n : Node} {ps ls : List Node} (h : n.Comprises ps ls) :
    n.parts.Perm (ps ++ ls) := by
  unfold Comprises at h
  split at h
  · rcases h with ⟨rfl, rfl⟩ | ⟨rfl, rfl⟩
    · exact List.Perm.refl _
    · exact List.Perm.swap _ _ []
  all_goals first
    | exact h
    | (obtain ⟨rfl, rfl⟩ := h; rw [List.append_nil])

end Script.Node

namespace Pass

/-! ### Callees lie apart

A call can stand in the arguments of another one, and so lies inside of it. The two callees do not
overlap, for the arguments come behind the callee. -/

/-- A call is redirected if its callee is `emit` of the name, and nothing else is. -/
theorem contextEmit?_eq_some_iff {context : String} {n : Node} {callee : Span} :
    contextEmit? context n = some callee ↔ ∃ whole object types arguments,
      n = .call whole (.member callee (.reference object context) "emit") types arguments := by
  constructor
  · intro h
    unfold contextEmit? at h
    split at h
    · split at h
      · next heq =>
        cases h
        exact ⟨_, _, _, _, by rw [heq]⟩
      · cases h
    · cases h
  · intro h
    obtain ⟨whole, object, types, arguments, rfl⟩ := h
    exact if_pos rfl

/-- The callee of a call that is redirected lies where the call does. -/
theorem laid_of_contextEmit? {src : List Char} {lo hi : Nat} {ns : List Node}
    (h : Laid src lo hi ns) {context : String} {callee : Span}
    (hcallee : callee ∈ (Node.nodesOf ns).filterMap (contextEmit? context)) :
    lo ≤ callee.start ∧ callee.stop ≤ hi := by
  obtain ⟨n, hn, hcall⟩ := List.mem_filterMap.mp hcallee
  obtain ⟨object, hmember, -⟩ := exists_of_contextEmit? hcall
  have hsits := (h.of_mem_nodesOf (Node.mem_nodesOf_of_mem_parts hn hmember)).sits
  exact ⟨hsits.lo_le, hsits.le_hi⟩

/-- Nodes without parts are no calls. -/
theorem filterMap_contextEmit?_of_leaves {context : String} {ls : List Node}
    (h : ∀ l ∈ ls, l.parts = []) : (Node.nodesOf ls).filterMap (contextEmit? context) = [] := by
  rw [List.filterMap_eq_nil_iff]
  intro n hn
  obtain ⟨l, hl, hn⟩ := Node.mem_nodesOf.mp hn
  rw [Node.nodes_eq, h l hl, Node.nodesOf, List.mem_singleton] at hn
  rw [Option.eq_none_iff_forall_ne_some]
  intro callee hcall
  obtain ⟨object, hmember, -⟩ := exists_of_contextEmit? hcall
  rw [hn, h l hl] at hmember
  cases hmember

/-- The two stretches do not overlap. -/
def Aside (a b : Span) : Prop :=
  a.stop ≤ b.start ∨ b.stop ≤ a.start

/-- Which of the two comes first does not matter. -/
theorem Aside.symm {a b : Span} (h : Aside a b) : Aside b a :=
  Or.symm h

/-- What is redirected in the parts of a node does not depend on the order in which they are listed,
and the parts that lie over others have no share in it. -/
theorem pairwise_contextEmit?_parts {context : String} {n : Node} {ps ls : List Node}
    (hc : n.Comprises ps ls) (hleaf : ∀ l ∈ ls, l.parts = [])
    (hps : ((Node.nodesOf ps).filterMap (contextEmit? context)).Pairwise Aside) :
    ((Node.nodesOf n.parts).filterMap (contextEmit? context)).Pairwise Aside := by
  have hperm : ((Node.nodesOf n.parts).filterMap (contextEmit? context)).Perm
      ((Node.nodesOf (ps ++ ls)).filterMap (contextEmit? context)) := by
    rw [Node.nodesOf_eq_flatMap, Node.nodesOf_eq_flatMap]
    exact (hc.perm.flatMap_right Node.nodes).filterMap _
  rw [hperm.pairwise_iff Aside.symm, Node.nodesOf_append, List.filterMap_append,
    filterMap_contextEmit?_of_leaves hleaf, List.append_nil]
  exact hps

/-- The callees that are redirected lie apart from each other. Those in the arguments of a call come
behind the callee of that call. -/
theorem pairwise_contextEmit? {src : List Char} {lo hi : Nat} {ns : List Node}
    (h : Laid src lo hi ns) (context : String) :
    ((Node.nodesOf ns).filterMap (contextEmit? context)).Pairwise Aside := by
  induction h with
  | nil => exact List.Pairwise.nil
  | @cons lo mid hi n ns ps ls hs hc hps hleaf hls hns ihps ihls ih =>
    have hn : Laid src lo mid [n] := .cons hs hc hps hleaf hls (.nil (Nat.le_refl mid))
    have hparts := pairwise_contextEmit?_parts hc hleaf ihps
    have htree : (n.nodes.filterMap (contextEmit? context)).Pairwise Aside := by
      rw [Node.nodes_eq, List.filterMap_cons]
      split
      · exact hparts
      · next callee hcall =>
        obtain ⟨whole, object, types, arguments, rfl⟩ := contextEmit?_eq_some_iff.mp hcall
        refine List.Pairwise.cons (fun other hother => ?_) hparts
        -- the callee itself calls nothing, and the other parts of the call come behind it
        obtain ⟨rfl, rfl⟩ := hc
        obtain ⟨at_, hcallee, hothers⟩ := Laid.cons_iff.mp hps
        have hnone : (Node.member callee (.reference object context) "emit").nodes.filterMap
            (contextEmit? context) = [] := by
          simp [Node.nodes, contextEmit?]
        rw [Node.parts, List.cons_append, Node.nodesOf, List.filterMap_append, hnone,
          List.nil_append] at hother
        exact .inl (Nat.le_trans hcallee.sits.le_hi (laid_of_contextEmit? hothers hother).1)
    rw [Node.nodesOf, List.filterMap_append, List.pairwise_append]
    refine ⟨htree, ih, fun a ha b hb => .inl ?_⟩
    rw [← Node.nodesOf_singleton] at ha
    exact Nat.le_trans (laid_of_contextEmit? hn ha).2 (laid_of_contextEmit? hns hb).1

end Pass

namespace Transformation

variable {source : String} {program : Program} {c : Component} {options : Options}

/-! ### The drafts before

The pass for events may run behind any others. Of the drafts that these leave it needs to know only
that callees have been rewritten all or not at all. -/

/-- A pass that gives a result leaves a draft of the kind that passes leave behind. -/
theorem Edited.of_pass (h : c.InScript source program) {declared : Bool} {d : Draft}
    (he : Edited source c declared d) (k : PassName) {r : PassResult}
    (hr : k.pass program options d = some r) : ∃ declared', Edited source c declared' r.draft := by
  have hsource := he.source_eq
  -- It is enough to know what the pass inserts, whatever it says to have done.
  have hrecord : ∀ texts, (∃ produced, k.pass program options d =
      some ⟨d.recordAll (k.edits program c texts), produced⟩) →
      ∃ declared', Edited source c declared' r.draft := by
    intro texts hpass
    obtain ⟨produced, hpass⟩ := hpass
    obtain rfl := Option.some.inj (hr.symm.trans hpass)
    exact ⟨_, he.record h k texts⟩
  cases k with
  | components =>
    subst hsource
    have hd : ∀ entry ∈ Pass.componentEntries c, d.Untouched entry.2.span := by
      intro entry hentry
      obtain ⟨p, hp, hlaid⟩ := Pass.exists_of_mem_componentEntries h.liesIn hentry
      exact he.untouched h hp (by decide) hlaid
    refine hrecord ((Pass.componentBindings d.source c).map (bindingLine program)) ?_
    rw [edits_components]
    exact ⟨_, Pass.components_records h options hd⟩
  | props =>
    obtain ⟨texts, htexts⟩ := Pass.props_records h options
    have hd := htexts d hsource fun p hp => he.untouched h hp (by decide) (h.liesIn.value hp)
    exact hrecord texts ⟨_, by simpa [PassName.pass, PassName.edits, PassName.offset] using hd⟩
  | emits =>
    obtain ⟨texts, spans, rfl, htexts⟩ := Pass.emits_records h options
    have hd := htexts d hsource fun p hp => he.untouched h hp (by decide) (h.liesIn.value hp)
    refine hrecord texts ⟨!texts.isEmpty, ?_⟩
    simp only [PassName.pass, PassName.edits, PassName.offset, true_and, hd]
    cases texts <;> rfl
  | setup =>
    obtain ⟨texts?, htexts⟩ := Pass.setup_records h options hsource
    have hd := htexts d hsource fun _ _ _ => rfl
    cases texts? with
    | none =>
      rw [PassName.pass, hd] at hr
      cases hr
    | some texts =>
      exact hrecord texts ⟨_, by simpa [PassName.pass, PassName.edits, PassName.offset] using hd⟩

/-- So does every run of passes. -/
theorem exists_edited_of_runPasses (h : c.InScript source program) {ks : List PassName}
    {declared : Bool} {d d' : Draft} (he : Edited source c declared d)
    (hd' : runPasses program options (ks.map PassName.pass) d = some d') :
    ∃ declared', Edited source c declared' d' := by
  induction ks generalizing declared d with
  | nil =>
    cases hd'
    exact ⟨declared, he⟩
  | cons k ks ih =>
    rw [runPasses, List.map_cons, List.foldlM_cons] at hd'
    obtain ⟨d₁, hstep, hrest⟩ := Option.bind_eq_some_iff.mp hd'
    obtain ⟨r, hr, rfl⟩ := Option.map_eq_some_iff.mp hstep
    obtain ⟨declared₁, he₁⟩ := he.of_pass h k hr
    exact ih he₁ hrest

/-! ### Redirected calls

A slice inside of the export sees no insertion, so that it is the text with callees replaced. -/

/-- The pass for events on such a draft: it declares the events and redirects the callees. -/
theorem emits_eq (h : c.InScript source program) {declared : Bool} {d : Draft}
    (he : Edited source c declared d) {p : Property} (hp : c.property? "emits" = some p)
    (hlists : Pass.listsEvents p.value = true) :
    Pass.emits program options d = some ⟨d.recordAll (PassName.emits.edits program c
      [Declaration.emits (Pass.textOf source p.value)]), true⟩ := by
  have hsource := he.source_eq
  subst hsource
  have hvalue := Pass.slice?_of_laid (h.liesIn.property hp)
    (he.untouched h hp (by decide) (h.liesIn.value hp))
  simp [Pass.emits, h.located, hp, hlists, hvalue, Pass.foldl_overwrite, Draft.insertBefore,
    Draft.insert, Draft.record_eq, PassResult.made, Pass.callees, PassName.edits, PassName.offset]

/-- A slice inside of the export: the callees in it are replaced if they are redirected at all. -/
theorem Edited.slice?_replaced (h : c.InScript source program) {declared : Bool} {d : Draft}
    (he : Edited source c declared d) {span : Span} (hlo : c.wrapper.start ≤ span.start)
    (hhi : span.stop ≤ c.wrapper.stop) (hle : span.start ≤ span.stop)
    (hstart : Text.IsBoundary source.toList span.start)
    (hstop : Text.IsBoundary source.toList span.stop) :
    ∃ inside : List Span, inside.Pairwise (fun a b => a.stop ≤ b.start) ∧
      (∀ callee, callee ∈ inside ↔ declared = true ∧
        callee ∈ Pass.callees c ∧ span.start ≤ callee.start ∧ callee.stop ≤ span.stop) ∧
      d.slice? span = some (String.ofList (Draft.replaced source.toList span.start span.stop
        (inside.map (Draft.Replacement.mk · Declaration.emitBinding)))) := by
  have hkept : ∀ r, r ∈ d.keptIn span ↔ ∃ callee, r = ⟨callee, Declaration.emitBinding⟩ ∧
      declared = true ∧
      callee ∈ Pass.callees c ∧ span.start ≤ callee.start ∧ callee.stop ≤ span.stop := by
    intro r
    rw [Draft.mem_keptIn (he.apart h), he.replacement]
    constructor
    · intro hr
      obtain ⟨⟨hdeclared, callee, hcallee, rfl⟩, hin⟩ := hr
      exact ⟨callee, rfl, hdeclared, hcallee, hin⟩
    · intro hr
      obtain ⟨callee, rfl, hdeclared, hcallee, hin⟩ := hr
      exact ⟨⟨hdeclared, callee, hcallee, rfl⟩, hin⟩
  refine ⟨(d.keptIn span).map Draft.Replacement.span, ?_, fun callee => ?_, ?_⟩
  · rw [List.pairwise_map]
    exact Draft.pairwise_keptIn (he.apart h)
  · rw [List.mem_map]
    constructor
    · intro hr
      obtain ⟨r, hr, rfl⟩ := hr
      obtain ⟨callee, rfl, hin⟩ := (hkept r).mp hr
      exact hin
    · intro hin
      exact ⟨_, (hkept _).mpr ⟨callee, rfl, hin⟩, rfl⟩
  · rw [he.map_span_keptIn h, (he.settled h hlo hhi hle hstart hstop).slice?_eq, he.source_eq]

/-- A slice inside of the export once the callees are redirected. -/
theorem Edited.slice?_redirected (h : c.InScript source program) {d : Draft}
    (he : Edited source c true d) {span : Span} (hlo : c.wrapper.start ≤ span.start)
    (hhi : span.stop ≤ c.wrapper.stop) (hle : span.start ≤ span.stop)
    (hstart : Text.IsBoundary source.toList span.start)
    (hstop : Text.IsBoundary source.toList span.stop) :
    ∃ inside : List Span, inside.Pairwise (fun a b => a.stop ≤ b.start) ∧
      (∀ callee, callee ∈ inside ↔
        callee ∈ Pass.callees c ∧ span.start ≤ callee.start ∧ callee.stop ≤ span.stop) ∧
      d.slice? span = some (String.ofList (Draft.replaced source.toList span.start span.stop
        (inside.map (Draft.Replacement.mk · Declaration.emitBinding)))) := by
  simpa using he.slice?_replaced h hlo hhi hle hstart hstop

/-- **Calls of `emit` on the context are redirected, all of them and nothing else.** Let a component
list its events and name the context of its setup function. Then, whatever passes ran before, the
pass for events inserts its declaration and replaces these stretches by `emit`: the callees of the
calls, at any depth of the body, whose callee is the member `emit` of the context's name. The
stretches do not overlap, and a slice of a statement of `setup` is its text with each of them that
lies in it replaced by `emit`, from left to right. -/
theorem emits_redirects {dialect : Dialect} {source : String} {program : Program} {c : Component}
    (hprogram : Program.parse? dialect source = some program)
    (hc : Component.locate? program = some c) {p : Property} (hp : c.property? "emits" = some p)
    (hlists : Pass.listsEvents p.value = true) {s : Setup} (hs : c.setup? = some s)
    {context : String} (hcontext : s.paramName? 1 = some context) (options : Options)
    {ks : List PassName} {d : Draft} (hd : draftAfter? program options source ks = some d) :
    ∃ (declaration : String) (callees : List Span) (d' : Draft),
      Pass.emits program options d = some ⟨d', true⟩ ∧
      d'.source = source ∧
      d'.edits = d.edits ++ .insert c.wrapper.start declaration :: callees.map (.replace · "emit") ∧
      (∀ callee, callee ∈ callees ↔ ∃ root ∈ s.directives ++ s.statements, ∃ n : Node,
        n.IsBelow root ∧ ∃ whole object types arguments,
          n = .call whole (.member callee (.reference object context) "emit") types arguments) ∧
      callees.Pairwise (fun a b => a.stop ≤ b.start ∨ b.stop ≤ a.start) ∧
      ∀ n ∈ s.statements, ∃ inside : List Span, inside.Pairwise (fun a b => a.stop ≤ b.start) ∧
        (∀ callee, callee ∈ inside ↔
          callee ∈ callees ∧ n.span.start ≤ callee.start ∧ callee.stop ≤ n.span.stop) ∧
        d'.slice? n.span = some (String.ofList (Draft.replaced source.toList n.span.start
          n.span.stop (inside.map (Draft.Replacement.mk · "emit")))) := by
  have h := Component.inScript_of_parse? hprogram hc
  obtain ⟨declared, he⟩ := exists_edited_of_runPasses h (edited_fresh source c) hd
  have hlies := h.liesIn.setup_within hs
  have hcallees : Pass.callees c = (Node.nodesOf (s.directives ++ s.statements)).filterMap
      (Pass.contextEmit? context) := by
    simp [Pass.callees, hs, Pass.contextEmits, hcontext, Node.nodesOf_append]
  -- Whatever was rewritten before, all callees are rewritten now.
  have he' := he.record h .emits [Declaration.emits (Pass.textOf source p.value)]
  rw [show (declared || decide (PassName.emits = .emits ∧
    [Declaration.emits (Pass.textOf source p.value)] ≠ [])) = true by simp] at he'
  refine ⟨Declaration.emits (Pass.textOf source p.value), Pass.callees c, _,
    emits_eq h he hp hlists, he'.source_eq, ?_, fun callee => ?_, ?_, fun n hn => ?_⟩
  · rw [Draft.edits_recordAll, PassName.edits, if_pos ⟨rfl, List.cons_ne_nil _ _⟩]
    rfl
  · rw [hcallees, List.mem_filterMap]
    constructor
    · intro hmem
      obtain ⟨n, hn, hcall⟩ := hmem
      obtain ⟨root, hroot, hn⟩ := Node.mem_nodesOf.mp hn
      exact ⟨root, hroot, n, (Node.mem_nodes_iff root).mp hn,
        Pass.contextEmit?_eq_some_iff.mp hcall⟩
    · intro hmem
      obtain ⟨root, hroot, n, hn, hcall⟩ := hmem
      exact ⟨n, Node.mem_nodesOf.mpr ⟨root, hroot, (Node.mem_nodes_iff root).mpr hn⟩,
        Pass.contextEmit?_eq_some_iff.mpr hcall⟩
  · rw [hcallees]
    exact Pass.pairwise_contextEmit? hlies.laid context
  · have hsits := (hlies.laid.of_mem (List.mem_append_right _ hn)).sits
    have hlo := hsits.lo_le
    have hhi := hsits.le_hi
    have hbody := hlies.lo_le
    have hbody' := hlies.le_hi
    exact he'.slice?_redirected h (by omega) (by omega) hsits.start_le_stop hsits.start_isBoundary
      hsits.stop_isBoundary

/-- A call of `emit` in the arguments of another one, inside of a function. -/
def nestedCalls : String :=
  "export default defineComponent(\x7b emits: ['a'],\n  setup(p, ctx) \x7b\n" ++
  "    on(() => ctx.emit('a', ctx.emit('b'), o.emit))\n  \x7d \x7d)\n"

theorem emits_redirects_nestedCalls : ∃ program c p s context d d' n,
    ∃ inside : List Span,
    Program.parse? ⟨false, false⟩ nestedCalls = some program ∧
    Component.locate? program = some c ∧ c.property? "emits" = some p ∧
    Pass.listsEvents p.value = true ∧ c.setup? = some s ∧ s.paramName? 1 = some context ∧
    draftAfter? program {} nestedCalls [.setup] = some d ∧
    Pass.emits program {} d = some ⟨d', true⟩ ∧ n ∈ s.statements ∧
    inside.Pairwise (fun a b => a.stop ≤ b.start) ∧
    (∀ callee, callee ∈ inside ↔ callee = Span.mk 78 86 ∨ callee = Span.mk 92 100) ∧
    d'.slice? n.span = some (String.ofList (Draft.replaced nestedCalls.toList n.span.start
      n.span.stop (inside.map (Draft.Replacement.mk · "emit")))) := by
  have hcheck : (do
      let program ← Program.parse? ⟨false, false⟩ nestedCalls
      let c ← Component.locate? program
      let p ← c.property? "emits"
      let s ← c.setup?
      let context ← s.paramName? 1
      let d ← draftAfter? program {} nestedCalls [.setup]
      let r ← Pass.emits program {} d
      let n ← s.statements.head?
      if Pass.listsEvents p.value = true ∧ n.span = Span.mk 69 115 ∧ d.replacements = [] ∧
          r.draft.replacements.map Draft.Replacement.span = [Span.mk 78 86, Span.mk 92 100] then
        some context else none).isSome = true := by
    decide +kernel
  obtain ⟨context', hcheck⟩ := Option.isSome_iff_exists.mp hcheck
  obtain ⟨program, hprogram, hcheck⟩ := Option.bind_eq_some_iff.mp hcheck
  obtain ⟨c, hc, hcheck⟩ := Option.bind_eq_some_iff.mp hcheck
  obtain ⟨p, hp, hcheck⟩ := Option.bind_eq_some_iff.mp hcheck
  obtain ⟨s, hs, hcheck⟩ := Option.bind_eq_some_iff.mp hcheck
  obtain ⟨context, hcontext, hcheck⟩ := Option.bind_eq_some_iff.mp hcheck
  obtain ⟨d, hd, hcheck⟩ := Option.bind_eq_some_iff.mp hcheck
  obtain ⟨r, hr, hcheck⟩ := Option.bind_eq_some_iff.mp hcheck
  obtain ⟨n, hn, hcheck⟩ := Option.bind_eq_some_iff.mp hcheck
  split at hcheck
  · next hin =>
    obtain ⟨hlists, hspan, hnone, hspans⟩ := hin
    obtain ⟨declaration, callees, d', hemits, -, hedits, -, -, hslices⟩ :=
      emits_redirects hprogram hc hp hlists hs hcontext {} hd
    obtain rfl : r = ⟨d', true⟩ := Option.some.inj (hr.symm.trans hemits)
    have hcallees : callees = [Span.mk 78 86, Span.mk 92 100] := by
      rw [Draft.replacements, hedits, List.filterMap_append, ← Draft.replacements, hnone,
        List.nil_append, List.filterMap_cons_none rfl, Draft.filterMap_replacement?_replace,
        List.map_map] at hspans
      simpa [Function.comp_def] using hspans
    have hn := List.mem_of_head? hn
    obtain ⟨inside, hordered, hinside, hslice⟩ := hslices n hn
    refine ⟨program, c, p, s, context, d, d', n, inside, hprogram, hc, hp, hlists, hs, hcontext, hd,
      hemits, hn, hordered, fun callee => ?_, hslice⟩
    rw [hinside, hcallees, hspan, List.mem_cons, List.mem_singleton]
    constructor
    · exact And.left
    · intro h
      refine ⟨h, ?_⟩
      rcases h with rfl | rfl <;> decide
  · cases hcheck

end Transformation

end VueSetup
