import Mathlib.Data.List.Pairwise
import VueSetup.Proofs.Transform.Redirected

/-!
# VueSetup.Proofs.Transform.Shadowed

Calls of `emit` where the name of the context means something else.

Every construct has names of its own, which it declares for what is in it (`Node.ownNames`): a
function its parameters, a block what its statements declare, a handler what it catches. A use of a
name below constructs that do not declare it means what it means outside of them
(`Node.IsFreeBelow`), and otherwise it is shadowed.

The pass for events goes by the name alone. It redirects the calls on the context of `setup`, and
the shadowed ones with them (`emits_redirects_by_name`).
-/

namespace VueSetup

open Script (Dialect Node Program)

namespace Script.Node

/-! ### Names of a construct

Names are declared in more than one way: by a parameter, by a statement beside others, by `var` at
any depth, by what is caught, and by an enumeration for its own members. A construct is asked for
all of its names at once. -/

mutual

/-- The names that a statement declares for the statements beside it, or those of a value that is
caught. Names declared by `var` are not among them. -/
def declaredNames : Node → List String
  | .form (.variableDeclaration false) _ declarators => boundNamesOf declarators
  | .form .functionDeclaration _ (.binding _ name _ :: _)
  | .form .classDeclaration _ (.binding _ name _ :: _)
  | .form .enumeration _ (.binding _ name _ :: _)
  | .form .namespace _ (.binding _ name _ :: _)
  | .form .moduleAlias _ (.binding _ name _ :: _) => [name]
  | .form .case _ parts | .exportNamed _ _ parts => declaredNamesOf parts
  | .binding _ name _ => [name]
  | .form .pattern _ parts => boundNamesOf parts
  | _ => []

/-- The names that statements declare for each other. -/
def declaredNamesOf : List Node → List String
  | [] => []
  | n :: ns => declaredNames n ++ declaredNamesOf ns

end

mutual

/-- The names that a statement declares by `var`, at any depth. Functions, classes and namespaces in
it keep theirs. -/
def hoistedNames : Node → List String
  | .form (.variableDeclaration true) _ declarators => boundNamesOf declarators
  | .form .classDeclaration .. | .form .namespace .. => []
  | .form _ _ parts | .exportNamed _ _ parts => hoistedNamesOf parts
  | _ => []

/-- The names that statements declare by `var`, at any depth. -/
def hoistedNamesOf : List Node → List String
  | [] => []
  | n :: ns => hoistedNames n ++ hoistedNamesOf ns

end

/-- The name of a member of an enumeration. -/
def memberName? : Node → Option String
  | .form _ _ (key :: _) => key.keyName?
  | _ => none

/-- The names that a construct declares for its parts. -/
def ownNames : Node → List String
  | .function _ params rest parts _ => boundNamesOf (params ++ rest ++ parts)
  | .arrow _ params rest _ _ => boundNamesOf (params ++ rest)
  | .block _ _ statements | .form .staticBlock _ statements | .form .namespace _ statements =>
    declaredNamesOf statements ++ hoistedNamesOf statements
  | .form .scope _ parts => declaredNamesOf parts
  | .form .loop _ (.form (.variableDeclaration false) _ declarators :: _) =>
      boundNamesOf declarators
  | .form .classDeclaration _ (.binding _ name _ :: _) => [name]
  | .form .enumeration _ (.binding _ name _ :: members) => name :: members.filterMap memberName?
  | _ => []

/-- The first node is the second one or stands below it, and no construct around it, up to the
second node, declares the name. -/
inductive IsFreeBelow (name : String) (n : Node) : Node → Prop where
  | self : IsFreeBelow name n n
  | part {p m : Node} : name ∉ m.ownNames → p ∈ m.parts → IsFreeBelow name n p →
      IsFreeBelow name n m

/-- The first node stands in a construct, which is the second node or stands below it, that declares
the name. -/
def IsShadowedBelow (name : String) (n root : Node) : Prop :=
  ∃ m ∈ root.nodes, name ∈ m.ownNames ∧ n ∈ nodesOf m.parts

/-- A free node stands below the other one. -/
theorem IsFreeBelow.isBelow {name : String} {n m : Node} (h : n.IsFreeBelow name m) :
    n.IsBelow m := by
  induction h with
  | self => exact .self
  | part _ hp _ ih => exact .part hp ih

/-- What stands below a node of a tree stands below the root. -/
theorem mem_nodesOf_parts {n m root : Node} (hm : m ∈ root.nodes) (hn : n ∈ nodesOf m.parts) :
    n ∈ nodesOf root.parts := by
  have hbelow : ∀ {m r : Node}, m.IsBelow r → n ∈ nodesOf m.parts → n ∈ nodesOf r.parts := by
    intro m r h hn
    induction h with
    | self => exact hn
    | part hp _ ih => exact mem_nodesOf.mpr ⟨_, hp, by rw [nodes_eq]; exact .tail _ ih⟩
  exact hbelow ((mem_nodes_iff root).mp hm) hn

/-- A shadowed node stands below the other one, and is not that one. -/
theorem IsShadowedBelow.mem_nodesOf_parts {name : String} {n root : Node}
    (h : n.IsShadowedBelow name root) : n ∈ nodesOf root.parts := by
  obtain ⟨m, hm, -, hn⟩ := h
  exact Node.mem_nodesOf_parts hm hn

/-- It is one of the nodes of the tree. -/
theorem IsShadowedBelow.mem_nodes {name : String} {n root : Node}
    (h : n.IsShadowedBelow name root) : n ∈ root.nodes := by
  rw [nodes_eq]
  exact .tail _ h.mem_nodesOf_parts

/-- A node below another one is free or shadowed there. -/
theorem IsBelow.free_or_shadowed {n root : Node} (h : n.IsBelow root) (name : String) :
    n.IsFreeBelow name root ∨ n.IsShadowedBelow name root := by
  induction h with
  | self => exact .inl .self
  | @part p m hp h ih =>
    by_cases hname : name ∈ m.ownNames
    · have hn : n ∈ nodesOf m.parts := mem_nodesOf.mpr ⟨p, hp, (mem_nodes_iff p).mpr h⟩
      exact .inr ⟨m, by rw [nodes_eq]; exact List.mem_cons_self, hname, hn⟩
    · rcases ih with hfree | ⟨k, hk, hname', hn⟩
      · exact .inl (.part hname hp hfree)
      · have hm : k ∈ m.nodes := by
          rw [nodes_eq]
          exact .tail _ (mem_nodesOf.mpr ⟨p, hp, hk⟩)
        exact .inr ⟨k, hm, hname', hn⟩

/-- What stands below another node cannot be shadowed somewhere else. -/
theorem IsShadowedBelow.of_part {name : String} {n root : Node} (h : n.IsShadowedBelow name root)
    (hname : name ∉ root.ownNames) : ∃ p ∈ root.parts, n.IsShadowedBelow name p := by
  obtain ⟨m, hm, hown, hn⟩ := h
  rw [nodes_eq, List.mem_cons] at hm
  rcases hm with rfl | hm
  · exact absurd hown hname
  · obtain ⟨p, hp, hm⟩ := mem_nodesOf.mp hm
    exact ⟨p, hp, m, hm, hown, hn⟩

section

variable {α : Type} {f : Node → Option α} {name : String}

/-- Two trees of a list share no mark if the marks of all trees are different. -/
theorem eq_of_nodup_marks {ns : List Node} (hnodup : ((nodesOf ns).filterMap f).Nodup) {r r' : Node}
    (hr : r ∈ ns) (hr' : r' ∈ ns) {n n' : Node} (hn : n ∈ r.nodes) (hn' : n' ∈ r'.nodes) {a : α}
    (ha : f n = some a) (ha' : f n' = some a) : r = r' := by
  rw [nodesOf_eq_flatMap, List.filterMap_flatMap, List.nodup_flatMap] at hnodup
  by_contra hne
  have hsymm : Std.Symm (Function.onFun List.Disjoint fun r : Node => r.nodes.filterMap f) :=
    ⟨fun _ _ h _ hx hy => h hy hx⟩
  have hdisjoint := hnodup.2.forall hr hr' hne
  exact hdisjoint (List.mem_filterMap.mpr ⟨n, hn, ha⟩) (List.mem_filterMap.mpr ⟨n', hn', ha'⟩)

/-- The marks of a tree are different if those of a list with the tree are. -/
theorem nodup_marks_of_mem {ns : List Node} (hnodup : ((nodesOf ns).filterMap f).Nodup) {r : Node}
    (hr : r ∈ ns) : (r.nodes.filterMap f).Nodup := by
  rw [nodesOf_eq_flatMap, List.filterMap_flatMap, List.nodup_flatMap] at hnodup
  exact hnodup.1 r hr

/-- Where marks are different, one of a free node is none of a shadowed node. -/
theorem IsFreeBelow.not_shadowed {n n' root : Node} (h : n.IsFreeBelow name root)
    (hnodup : (root.nodes.filterMap f).Nodup) {a : α} (ha : f n = some a) (ha' : f n' = some a) :
    ¬ n'.IsShadowedBelow name root := by
  intro hshadowed
  induction h with
  | self =>
    have hmem : a ∈ (nodesOf n.parts).filterMap f :=
      List.mem_filterMap.mpr ⟨n', hshadowed.mem_nodesOf_parts, ha'⟩
    rw [nodes_eq, List.filterMap_cons_some ha, List.nodup_cons] at hnodup
    exact hnodup.1 hmem
  | @part p m hname hp hfree ih =>
    have hparts : ((nodesOf m.parts).filterMap f).Nodup := by
      rw [nodes_eq] at hnodup
      exact hnodup.sublist ((List.sublist_cons_self _ _).filterMap f)
    obtain ⟨q, hq, hshadowed⟩ := hshadowed.of_part hname
    have hn : n ∈ p.nodes := (mem_nodes_iff p).mpr hfree.isBelow
    obtain rfl := eq_of_nodup_marks hparts hp hq hn hshadowed.mem_nodes ha ha'
    exact ih (nodup_marks_of_mem hparts hp) hshadowed

end

end Script.Node

/-! ### Calls in the body of a setup function

The body is a construct of its own below the parameters. Since no callee stands in two places, a
callee is that of one call, and the call is free or shadowed. -/

namespace Setup

variable {s : Setup} {name : String} {callee : Span}

/-- The body of a setup function as a construct in the scope of its parameters. A declaration by
`var` right in the body is no name of the construct: the variable is the parameter of that name. -/
def scope (s : Setup) : Node :=
  .form .scope s.body (s.directives ++ s.statements)

/-- The stretch is the callee of a call of `emit`, in the body, on the parameter of the name. -/
def CallsParameter (s : Setup) (name : String) (callee : Span) : Prop :=
  ∃ n : Node, n.IsFreeBelow name s.scope ∧ ∃ whole object types arguments,
    n = .call whole (.member callee (.reference object name) "emit") types arguments

/-- The callees of the calls of `emit`, in the body, on the name that stand in a construct which
declares the name. -/
def shadowedCallees (s : Setup) (name : String) : List Span :=
  (s.scope.nodes.filter (name ∈ ·.ownNames)).flatMap fun m =>
    (Node.nodesOf m.parts).filterMap (Pass.contextEmit? name)

/-- Calls on the parameter are those that a pass would redirect in a free place. -/
theorem callsParameter_iff : s.CallsParameter name callee ↔
    ∃ n : Node, n.IsFreeBelow name s.scope ∧ Pass.contextEmit? name n = some callee := by
  simp only [CallsParameter, Pass.contextEmit?_eq_some_iff]

/-- Shadowed calls are those that it would redirect in a shadowed place. -/
theorem mem_shadowedCallees_iff : callee ∈ s.shadowedCallees name ↔
    ∃ n : Node, n.IsShadowedBelow name s.scope ∧ Pass.contextEmit? name n = some callee := by
  simp only [shadowedCallees, List.mem_flatMap, List.mem_filter, decide_eq_true_eq,
    List.mem_filterMap]
  constructor
  · intro h
    obtain ⟨m, ⟨hm, hname⟩, n, hn, hcall⟩ := h
    exact ⟨n, ⟨m, hm, hname, hn⟩, hcall⟩
  · intro h
    obtain ⟨n, ⟨m, hm, hname, hn⟩, hcall⟩ := h
    exact ⟨m, ⟨hm, hname⟩, n, hn, hcall⟩

/-- The calls of `emit` on the name, in the construct that the body is. -/
theorem contextEmits_eq (hname : s.paramName? 1 = some name) :
    Pass.contextEmits s = s.scope.nodes.filterMap (Pass.contextEmit? name) := by
  rw [scope, Node.nodes_eq, List.filterMap_cons_none rfl, Node.parts, Node.nodesOf_append]
  simp only [Pass.contextEmits, hname]

/-- A call of `emit` on the name is one on the parameter, or it is shadowed. -/
theorem mem_contextEmits_iff (hname : s.paramName? 1 = some name) :
    callee ∈ Pass.contextEmits s ↔
      s.CallsParameter name callee ∨ callee ∈ s.shadowedCallees name := by
  rw [contextEmits_eq hname, List.mem_filterMap, callsParameter_iff, mem_shadowedCallees_iff]
  constructor
  · intro h
    obtain ⟨n, hn, hcall⟩ := h
    rcases ((Node.mem_nodes_iff s.scope).mp hn).free_or_shadowed name with hfree | hshadowed
    · exact .inl ⟨n, hfree, hcall⟩
    · exact .inr ⟨n, hshadowed, hcall⟩
  · intro h
    rcases h with ⟨n, hfree, hcall⟩ | ⟨n, hshadowed, hcall⟩
    · exact ⟨n, (Node.mem_nodes_iff s.scope).mpr hfree.isBelow, hcall⟩
    · exact ⟨n, hshadowed.mem_nodes, hcall⟩

/-- No callee stands in two places of the body. -/
theorem nodup_contextEmits {source : String} {program : Program} {c : Component}
    (h : c.InScript source program) (hs : c.setup? = some s) (hname : s.paramName? 1 = some name) :
    (Pass.contextEmits s).Nodup := by
  have hlies := h.liesIn.setup_within hs
  have hcallees : Pass.callees c = Pass.contextEmits s := by
    simp [Pass.callees, hs]
  have hnodes : Pass.contextEmits s =
      (Node.nodesOf (s.directives ++ s.statements)).filterMap (Pass.contextEmit? name) := by
    simp only [Pass.contextEmits, hname, Node.nodesOf_append]
  have haside := Pass.pairwise_contextEmit? hlies.laid name
  rw [← hnodes] at haside
  refine haside.imp_of_mem fun {a b} ha _ haside heq => ?_
  have hlt := (Pass.calleeLiesIn h.liesIn (hcallees ▸ ha)).start_lt_stop
  subst heq
  rcases haside with hle | hle <;> omega

/-- A shadowed call is none on the parameter. -/
theorem not_callsParameter {source : String} {program : Program} {c : Component}
    (h : c.InScript source program) (hs : c.setup? = some s) (hname : s.paramName? 1 = some name)
    (hshadowed : callee ∈ s.shadowedCallees name) : ¬ s.CallsParameter name callee := by
  intro hparameter
  have hnodup := nodup_contextEmits h hs hname
  rw [contextEmits_eq hname] at hnodup
  obtain ⟨n, hfree, hcall⟩ := callsParameter_iff.mp hparameter
  obtain ⟨n', hshadowed, hcall'⟩ := mem_shadowedCallees_iff.mp hshadowed
  exact hfree.not_shadowed hnodup hcall hcall' hshadowed

end Setup

namespace Transformation

/-! ### The pass

The callees that are redirected are those of both kinds. -/

/-- **Calls of `emit` are redirected by the name of the context alone.** Let a component list its
events and name the context of its setup function. Then, whatever passes ran before, the pass for
events inserts its declaration and replaces these callees by `emit`: those of the calls on the
parameter, and those of the calls that are shadowed, where the name means something else. No callee
is both. So the pass leaves alone what is not the context exactly if no call is shadowed. -/
theorem emits_redirects_by_name {dialect : Dialect} {source : String} {program : Program}
    {c : Component} (hprogram : Program.parse? dialect source = some program)
    (hc : Component.locate? program = some c) {p : Property} (hp : c.property? "emits" = some p)
    (hlists : Pass.listsEvents p.value = true) {s : Setup} (hs : c.setup? = some s)
    {context : String} (hcontext : s.paramName? 1 = some context) (options : Options)
    {ks : List PassName} {d : Draft} (hd : draftAfter? program options source ks = some d) :
    ∃ (declaration : String) (callees : List Span) (d' : Draft),
      Pass.emits program options d = some ⟨d', true⟩ ∧
      d'.edits = d.edits ++ .insert c.wrapper.start declaration :: callees.map (.replace · "emit") ∧
      (∀ callee, callee ∈ callees ↔
        s.CallsParameter context callee ∨ callee ∈ s.shadowedCallees context) ∧
      (∀ callee ∈ s.shadowedCallees context, ¬ s.CallsParameter context callee) ∧
      ((∀ callee ∈ callees, s.CallsParameter context callee) ↔ s.shadowedCallees context = []) := by
  have h := Component.inScript_of_parse? hprogram hc
  obtain ⟨declared, he⟩ := exists_edited_of_runPasses h (edited_fresh source c) hd
  have hcallees : ∀ callee, callee ∈ Pass.callees c ↔
      s.CallsParameter context callee ∨ callee ∈ s.shadowedCallees context := by
    intro callee
    rw [← Setup.mem_contextEmits_iff hcontext]
    simp [Pass.callees, hs]
  have hother : ∀ callee ∈ s.shadowedCallees context, ¬ s.CallsParameter context callee :=
    fun callee hshadowed => Setup.not_callsParameter h hs hcontext hshadowed
  refine ⟨Declaration.emits (Pass.textOf source p.value), Pass.callees c, _,
    emits_eq h he hp hlists, ?_, hcallees, hother, ?_, ?_⟩
  · rw [Draft.edits_recordAll, PassName.edits, if_pos ⟨rfl, List.cons_ne_nil _ _⟩]
    rfl
  · intro honly
    refine List.eq_nil_iff_forall_not_mem.mpr fun callee hshadowed => ?_
    exact hother callee hshadowed (honly callee ((hcallees callee).mpr (.inr hshadowed)))
  · intro hnone callee hcallee
    have hcases := (hcallees callee).mp hcallee
    rw [hnone] at hcases
    exact hcases.resolve_right List.not_mem_nil

/-- A call on the context, and one inside of a function with a parameter of the same name. -/
def shadowedContext : String :=
  "export default defineComponent(\x7b emits: ['a'],\n  setup(p, ctx) \x7b\n" ++
  "    ctx.emit('a')\n    xs.forEach((ctx) => ctx.emit('b'))\n  \x7d \x7d)\n"

theorem emits_redirects_by_name_shadowedContext : ∃ program c p s d d', ∃ callees : List Span,
    Program.parse? ⟨false, false⟩ shadowedContext = some program ∧
    Component.locate? program = some c ∧ c.property? "emits" = some p ∧
    Pass.listsEvents p.value = true ∧ c.setup? = some s ∧ s.paramName? 1 = some "ctx" ∧
    draftAfter? program {} shadowedContext [.setup] = some d ∧
    Pass.emits program {} d = some ⟨d', true⟩ ∧
    (∃ declaration, d'.edits =
      d.edits ++ .insert c.wrapper.start declaration :: callees.map (.replace · "emit")) ∧
    s.shadowedCallees "ctx" = [Span.mk 107 115] ∧
    (∀ callee, callee ∈ callees ↔ s.CallsParameter "ctx" callee ∨ callee = Span.mk 107 115) ∧
    ¬ s.CallsParameter "ctx" (Span.mk 107 115) := by
  have hcheck : (do
      let program ← Program.parse? ⟨false, false⟩ shadowedContext
      let c ← Component.locate? program
      let p ← c.property? "emits"
      let s ← c.setup?
      let d ← draftAfter? program {} shadowedContext [.setup]
      if Pass.listsEvents p.value = true ∧ s.paramName? 1 = some "ctx" ∧
          s.shadowedCallees "ctx" = [Span.mk 107 115] then some d else none).isSome = true := by
    decide +kernel
  obtain ⟨d', hcheck⟩ := Option.isSome_iff_exists.mp hcheck
  obtain ⟨program, hprogram, hcheck⟩ := Option.bind_eq_some_iff.mp hcheck
  obtain ⟨c, hc, hcheck⟩ := Option.bind_eq_some_iff.mp hcheck
  obtain ⟨p, hp, hcheck⟩ := Option.bind_eq_some_iff.mp hcheck
  obtain ⟨s, hs, hcheck⟩ := Option.bind_eq_some_iff.mp hcheck
  obtain ⟨d, hd, hcheck⟩ := Option.bind_eq_some_iff.mp hcheck
  split at hcheck
  · next hin =>
    obtain ⟨hlists, hcontext, hshadowed⟩ := hin
    obtain ⟨declaration, callees, d', hemits, hedits, hcallees, hother, -⟩ :=
      emits_redirects_by_name hprogram hc hp hlists hs hcontext {} hd
    rw [hshadowed] at hother
    refine ⟨program, c, p, s, d, d', callees, hprogram, hc, hp, hlists, hs, hcontext, hd, hemits,
      ⟨declaration, hedits⟩, hshadowed, fun callee => ?_, hother _ List.mem_cons_self⟩
    rw [hcallees, hshadowed, List.mem_singleton]
  · cases hcheck

/-- The call on the parameter of the inner function goes to the declared binding too. -/
theorem emits_redirects_inner_parameter : ∃ program c s d' callee,
    Program.parse? ⟨false, false⟩ shadowedContext = some program ∧
    Component.locate? program = some c ∧ c.setup? = some s ∧ s.paramName? 1 = some "ctx" ∧
    Pass.emits program {} { source := shadowedContext } = some ⟨d', true⟩ ∧
    .replace callee "emit" ∈ d'.edits ∧ ¬ s.CallsParameter "ctx" callee := by
  have hcheck : (do
      let program ← Program.parse? ⟨false, false⟩ shadowedContext
      let c ← Component.locate? program
      let s ← c.setup?
      let r ← Pass.emits program {} { source := shadowedContext }
      if s.paramName? 1 = some "ctx" ∧ r.produced = true ∧
          Edit.replace (Span.mk 107 115) "emit" ∈ r.draft.edits ∧
          Span.mk 107 115 ∈ s.shadowedCallees "ctx" then some r else none).isSome = true := by
    decide +kernel
  obtain ⟨r', hcheck⟩ := Option.isSome_iff_exists.mp hcheck
  obtain ⟨program, hprogram, hcheck⟩ := Option.bind_eq_some_iff.mp hcheck
  obtain ⟨c, hc, hcheck⟩ := Option.bind_eq_some_iff.mp hcheck
  obtain ⟨s, hs, hcheck⟩ := Option.bind_eq_some_iff.mp hcheck
  obtain ⟨⟨d', produced⟩, hr, hcheck⟩ := Option.bind_eq_some_iff.mp hcheck
  split at hcheck
  · next hin =>
    obtain ⟨hcontext, rfl, hedit, hshadowed⟩ := hin
    have h := Component.inScript_of_parse? hprogram hc
    exact ⟨program, c, s, d', Span.mk 107 115, hprogram, hc, hs, hcontext, hr, hedit,
      Setup.not_callsParameter h hs hcontext hshadowed⟩
  · cases hcheck

end Transformation

end VueSetup
