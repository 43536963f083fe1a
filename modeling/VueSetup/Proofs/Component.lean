import VueSetup.Component
import VueSetup.Pass.Components
import VueSetup.Proofs.Script.Program

/-!
# VueSetup.Proofs.Component

Where a component lies in its script: its options come one after the other inside of the export that
defines it, the statements of its setup function lie inside of their own option, and an import lies
before or behind that export.

Everything rests on one fact about a parsed script: what the parser returns is laid out in the order
in which it is written (`Script.Laid`), and so are the parts of each node. A component is found by
taking nodes apart, and each step keeps this.
-/

namespace VueSetup

open Script (Chained Dialect Laid Node Program)
open Text (IsBoundary)

variable {src : List Char}

/-- The export of a component covers whole characters, and the options come one after the other
behind its first one. -/
structure Component.LiesIn (src : List Char) (c : Component) : Prop where
  start_isBoundary : IsBoundary src c.wrapper.start
  stop_isBoundary : IsBoundary src c.wrapper.stop
  start_lt_stop : c.wrapper.start < c.wrapper.stop
  members : Laid src (c.wrapper.start + 1) c.wrapper.stop c.members

/-- The statements of a setup function come one after the other between its braces, which lie
between `lo` and `hi`, and nothing else stands there but blanks and comments. -/
structure Setup.LiesIn (src : List Char) (lo hi : Nat) (s : Setup) : Prop where
  lo_le : lo ≤ s.body.start
  le_hi : s.body.stop ≤ hi
  laid : Laid src (s.body.start + 1) (s.body.stop - 1) (s.directives ++ s.statements)
  start_isBoundary : IsBoundary src (s.body.start + 1)
  stop_isBoundary : IsBoundary src (s.body.stop - 1)
  chained : Chained src (s.body.stop - 1) (s.body.start + 1) (s.directives ++ s.statements)

namespace Component

/-- The arguments of a call inside of parentheses and type annotations. -/
theorem laid_of_unwrapCall? {n callee : Node} {arguments : List Node} {lo hi : Nat}
    (h : Laid src lo hi [n]) (hcall : unwrapCall? n = some (callee, arguments)) {a : Node}
    (ha : a ∈ arguments) : Laid src lo hi [a] := by
  fun_induction unwrapCall? n with
  | case1 span callee types arguments =>
    cases hcall
    exact h.part_within (by simp [Node.parts, ha])
  | case2 span operand type ih => exact ih (h.part_within (by simp [Node.parts])) hcall
  | case3 span operand type ih => exact ih (h.part_within (by simp [Node.parts])) hcall
  | case4 span inner ih => exact ih (h.part_within (by simp [Node.parts])) hcall
  | case5 => cases hcall

/-- A component that a statement defines lies where the statement does. -/
theorem liesIn_of_ofStatement? {n : Node} {c : Component} {lo hi : Nat} (h : Laid src lo hi [n])
    (hc : ofStatement? n = some c) : c.LiesIn src := by
  cases n
  case exportDefault wrapper value =>
    have hs := h.sits
    have hvalue : Laid src (wrapper.start + 1) wrapper.stop [value] := h.part (by simp [Node.parts])
    simp only [ofStatement?] at hc
    split at hc
    · next span members others hcall =>
      cases hc
      have hobject := laid_of_unwrapCall? hvalue hcall (List.mem_cons_self ..)
      obtain ⟨ps, ls, hsits, ⟨rfl, rfl⟩, hps, -, -⟩ := Laid.singleton_iff.mp hobject
      exact ⟨hs.start_isBoundary, hs.stop_isBoundary, hvalue.le,
        hps.weaken hsits.room_le.1 hsits.room_le.2⟩
    · cases hc
  all_goals cases hc

/-- The component that is found is the one of some statement. -/
theorem exists_of_locate? {program : Program} {c : Component} (h : locate? program = some c) :
    ∃ n ∈ program.statements, ofStatement? n = some c :=
  List.exists_of_findSome?_eq_some h

/-- A component lies in the script that defines it. -/
theorem liesIn_of_locate? {program : Program} {c : Component} {lo hi : Nat}
    (hlaid : Laid src lo hi (program.directives ++ program.statements))
    (h : locate? program = some c) : c.LiesIn src := by
  obtain ⟨n, hn, hc⟩ := exists_of_locate? h
  exact liesIn_of_ofStatement? (hlaid.of_mem (List.mem_append_right _ hn)) hc

/-- A property is a member with its key. -/
theorem exists_of_findProperty? {members : List Node} {name : String} {p : Property}
    (h : findProperty? members name = some p) :
    ∃ key, .property p.span false key p.value ∈ members ∧ key.keyName? = some name := by
  obtain ⟨m, hm, hp⟩ := List.exists_of_findSome?_eq_some h
  cases m
  case property span computed key value =>
    cases computed with
    | true => cases hp
    | false =>
      dsimp only at hp
      split at hp
      · next hkey =>
        cases hp
        exact ⟨key, hm, hkey⟩
      · cases hp
  all_goals cases hp

/-- An option is a member of the component with that key. -/
theorem exists_of_property? {c : Component} {name : String} {p : Property}
    (h : c.property? name = some p) :
    ∃ key, .property p.span false key p.value ∈ c.members ∧ key.keyName? = some name :=
  exists_of_findProperty? h

/-- The value of a property of an object lies where the object does. -/
theorem laid_of_findProperty? {lo hi : Nat} {span : Span} {members : List Node} {name : String}
    {p : Property} (h : Laid src lo hi [.object span members])
    (hp : findProperty? members name = some p) : Laid src lo hi [p.value] := by
  obtain ⟨key, hmem, -⟩ := exists_of_findProperty? hp
  exact (h.part_within hmem).part_within (by simp [Node.parts])

namespace LiesIn

variable {c : Component}

/-- An option lies inside of the export. -/
theorem within (h : c.LiesIn src) {name : String} {p : Property} (hp : c.property? name = some p) :
    c.wrapper.start + 1 ≤ p.span.start ∧ p.span.stop ≤ c.wrapper.stop := by
  obtain ⟨key, hmem, -⟩ := exists_of_property? hp
  have hsits := (h.members.of_mem hmem).sits
  exact ⟨hsits.lo_le, hsits.le_hi⟩

/-- The value of an option lies inside of the option. -/
theorem value (h : c.LiesIn src) {name : String} {p : Property} (hp : c.property? name = some p) :
    Laid src p.span.start p.span.stop [p.value] := by
  obtain ⟨key, hmem, -⟩ := exists_of_property? hp
  exact (h.members.of_mem hmem).part (by simp [Node.parts])

/-- The value of an option lies inside of the export. -/
theorem property (h : c.LiesIn src) {name : String} {p : Property}
    (hp : c.property? name = some p) :
    Laid src (c.wrapper.start + 1) c.wrapper.stop [p.value] :=
  (h.value hp).weaken (h.within hp).1 (h.within hp).2

/-- Options with different keys do not overlap. -/
theorem apart (h : c.LiesIn src) {a b : String} {p q : Property} (hp : c.property? a = some p)
    (hq : c.property? b = some q) (hne : a ≠ b) :
    p.span.stop ≤ q.span.start ∨ q.span.stop ≤ p.span.start := by
  obtain ⟨key, hmem, hkey⟩ := exists_of_property? hp
  obtain ⟨key', hmem', hkey'⟩ := exists_of_property? hq
  rcases h.members.apart hmem hmem' with heq | happart
  · rw [Node.property.injEq] at heq
    rw [heq.2.2.1, hkey', Option.some.injEq] at hkey
    exact absurd hkey.symm hne
  · exact happart

/-- The setup function lies inside of its option. -/
theorem setup (h : c.LiesIn src) {s : Setup} (hs : c.setup? = some s) :
    ∃ p, c.property? "setup" = some p ∧ s.LiesIn src p.span.start p.span.stop := by
  -- the parts of a block lie in the room of the block
  have hblock : ∀ {value : Node} {body : Span} {params directives statements : List Node},
      (c.property? "setup").map Property.value = some value →
      .block body directives statements ∈ value.parts →
      ∃ p, c.property? "setup" = some p ∧
        Setup.LiesIn src p.span.start p.span.stop ⟨params, body, directives, statements⟩ := by
    intro value body params directives statements hvalue hmem
    obtain ⟨p, hp, rfl⟩ := Option.map_eq_some_iff.mp hvalue
    have hlaid := (h.value hp).part_within hmem
    obtain ⟨ps, ls, hsits, ⟨rfl, rfl⟩, hps, -, -⟩ := Laid.singleton_iff.mp hlaid
    obtain ⟨hopen, hclose, hchained⟩ := hsits.proper
    exact ⟨p, hp, hsits.lo_le, hsits.le_hi, hps, hopen, hclose, hchained⟩
  simp only [setup?] at hs
  split at hs
  · next hvalue =>
    cases hs
    exact hblock hvalue (by simp [Node.parts])
  · next hvalue =>
    cases hs
    exact hblock hvalue (by simp [Node.parts])
  · cases hs

/-- The parameters of the setup function lie inside of the export. -/
theorem param (h : c.LiesIn src) {s : Setup} (hs : c.setup? = some s) {n : Node}
    (hn : n ∈ s.params) : Laid src (c.wrapper.start + 1) c.wrapper.stop [n] := by
  simp only [setup?] at hs
  split at hs
  · next hvalue =>
    cases hs
    obtain ⟨p, hp, heq⟩ := Option.map_eq_some_iff.mp hvalue
    exact (h.property hp).part_within (heq ▸ by simp [Node.parts, hn])
  · next hvalue =>
    cases hs
    obtain ⟨p, hp, heq⟩ := Option.map_eq_some_iff.mp hvalue
    exact (h.property hp).part_within (heq ▸ by simp [Node.parts, hn])
  · cases hs

/-- The setup function lies inside of the export. -/
theorem setup_within (h : c.LiesIn src) {s : Setup} (hs : c.setup? = some s) :
    s.LiesIn src (c.wrapper.start + 1) c.wrapper.stop := by
  obtain ⟨p, hp, hlies⟩ := h.setup hs
  exact { hlies with
    lo_le := Nat.le_trans (h.within hp).1 hlies.lo_le
    le_hi := Nat.le_trans hlies.le_hi (h.within hp).2 }

end LiesIn

end Component

/-! ### Imports

Registered components are bound behind the last import. The export is a statement of its own, so
that an import ends before it or starts behind it. -/

/-- The last import covers whole characters, and ends before the export of the component starts or
at least two bytes behind its end. -/
theorem Pass.lastImport?_apart {program : Program} {c : Component} {span : Span} {lo hi : Nat}
    (hlaid : Laid src lo hi (program.directives ++ program.statements))
    (hc : Component.locate? program = some c) (h : lastImport? program = some span) :
    IsBoundary src span.stop ∧
      (span.stop ≤ c.wrapper.start ∨ c.wrapper.stop + 2 ≤ span.stop) := by
  obtain ⟨m, hm, hspan⟩ := List.exists_of_findSome?_eq_some h
  rw [List.mem_reverse] at hm
  obtain ⟨n, hn, hc⟩ := Component.exists_of_locate? hc
  have hm' := hlaid.of_mem (List.mem_append_right program.directives hm)
  have happart := hlaid.apart (List.mem_append_right program.directives hm)
    (List.mem_append_right program.directives hn)
  cases m
  case importDeclaration importSpan specifiers parts =>
    cases hspan
    have hsize : span.start + 2 ≤ span.stop := hm'.sits.proper
    refine ⟨hm'.sits.stop_isBoundary, ?_⟩
    cases n
    case exportDefault wrapper value =>
      have hwrapper : c.wrapper = wrapper := by
        simp only [Component.ofStatement?] at hc
        split at hc
        · cases hc
          rfl
        · cases hc
      rw [hwrapper]
      rcases happart with heq | hbefore | hbehind
      · cases heq
      · exact .inl hbefore
      · simp only [Node.span] at hbehind
        omega
    all_goals cases hc
  all_goals cases hspan

/-- What is known of a component and of the script that defines it: where the component lies, and
where the last import lies. -/
structure Component.InScript (source : String) (program : Program) (c : Component) : Prop where
  located : Component.locate? program = some c
  liesIn : c.LiesIn source.toList
  lastImport : ∀ span, Pass.lastImport? program = some span → IsBoundary source.toList span.stop ∧
    (span.stop ≤ c.wrapper.start ∨ c.wrapper.stop + 2 ≤ span.stop)

/-- All that is known of a component holds in a script that is parsed. -/
theorem Component.inScript_of_parse? {dialect : Dialect} {source : String} {program : Program}
    {c : Component} (hprogram : Program.parse? dialect source = some program)
    (hc : Component.locate? program = some c) : c.InScript source program := by
  have hlaid := Program.laid_of_parse? hprogram
  exact ⟨hc, liesIn_of_locate? hlaid hc, fun _ hspan => Pass.lastImport?_apart hlaid hc hspan⟩

end VueSetup
