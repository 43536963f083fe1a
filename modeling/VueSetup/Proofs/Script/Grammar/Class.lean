import VueSetup.Proofs.Script.Grammar.Function
import VueSetup.Script.Grammar.Class

/-!
# VueSetup.Proofs.Script.Grammar.Class

Classes are laid in the text, with the decorators before them.

Decorators stand before the word `class`, and are read before it is known that a class follows. They
are parts of the class all the same, so that these reach beyond the stretch that it covers.
-/

namespace VueSetup.Script.Grammar

open Parse

variable {src : List Char} {g : Grammar}

/-! ### Heritage

What a class is made of beside its members is read as operands, since a base may be any of these. -/

/-- The base is an operand with its members and calls, and its type arguments come behind it. -/
theorem lays_heritage (hg : g.Sound src) : g.heritage.Lays src ([·]) := by
  intro ctx c hc
  simp [heritage]
  refine hc.reach.then hg.access fun base c₁ h => ⟨fun _ => ?_, fun _ => ?_⟩
  · exact (h.pass (by simp)).then (lays_typeArgumentsHere hg) fun types c₂ h =>
      (h.form .other (by simp)).toReach
  · exact ((h.pass (by simp)).form .other (by simp)).toReach

/-- One base, and interfaces with commas between them. -/
theorem lays_classHeritage (hg : g.Sound src) : g.classHeritage.Lays src id := by
  intro ctx c hc
  simp [classHeritage, -ensures_eatWord?]
  refine hc.reach.then (lays_eatWord? _) fun extended c₁ h => ?_
  refine h.then ((lays_heritage hg).optional _) fun bases c₂ h => ?_
  refine h.then (lays_eatWord? _) fun implemented c₃ h => ⟨fun _ _ => ?_, fun _ => ?_⟩
  · exact h.then ((lays_typeReference hg).nodesSeparated _).lays fun interfaces c₄ h => by
      simpa using h
  · simpa using h

/-! ### Members

Members are told apart by the words before them and by what stands behind their key. The words are
passed over, and those that turn out to be the key are read as such. -/

/-- Words before a member or a declaration are passed over one by one. -/
theorem lays_skippedWords {stop : Parse Bool} (hstop : stop.Stays) : (until? stop do
    let t ← token
    advance
    return t).Lays src fun _ => [] := by
  refine Lays.skipUntil (fun ctx c hc => ?_) hstop
  simp
  exact hc.pass.toReach

/-- Words that modify a member are passed as long as a member follows. -/
theorem lays_memberModifiers : memberModifiers.Lays src fun _ => [] := by
  intro ctx c hc
  simp [memberModifiers]
  exact lays_skippedWords (fun ctx c => by simp) ctx c hc

/-- Words and marks that tell what kind of method follows. -/
theorem lays_methodHead : methodHead.Lays src fun _ => [] := by
  intro ctx c hc
  simp [methodHead, -ensures_eat?]
  refine ⟨fun _ _ => hc.pass.toReach, fun _ => ⟨fun _ _ _ => ?_, fun _ => lays_eat? _ ctx c hc⟩⟩
  exact hc.pass.then (lays_eat? _) fun _ c₁ h => h.toReach

/-- The key of a member may be private. -/
theorem lays_classKey (hg : g.Sound src) : g.classKey.Lays src fun key => [key.1] := by
  intro ctx c hc
  simp [classKey]
  split
  · simp
    exact fun _ => lays_privateName ctx c hc
  · simp
    exact lays_propertyKey hg ctx c hc

/-- The statements in the braces behind `static`. -/
theorem lays_staticBlock (hg : g.Sound src) : g.staticBlock.Lays src ([·]) := by
  intro ctx c hc
  simp [staticBlock]
  intro _
  refine hc.pass.toReach.next.then ((hg.statement false).nodesUntil fun ctx c => by simp)
    fun statements c₁ h _ => ?_
  exact (h.toReach.next.form .staticBlock (by simp)).toReach

/-- Marks behind the key make nothing. -/
theorem lays_skipMemberMarks : skipMemberMarks.Lays src fun _ => [] := by
  intro ctx c hc
  simp [skipMemberMarks, -ensures_eat?]
  refine ⟨fun _ => ?_, fun _ => hc.reach⟩
  refine hc.reach.then (lays_eat? _) fun _ c₁ h => ⟨fun _ => ?_, fun _ => h⟩
  exact h.then (lays_eat? _) fun _ c₂ h => h

/-- The type and the value of a field, either of which may be missing. -/
theorem ensures_fieldRest (hg : g.Sound src) {ctx : Context} {c c₁ : Cursor} {parts : List Node}
    (h : Pass src c c₁ parts) : (g.fieldRest c.token.start parts).Ensures ctx c₁
      fun n c' => Reach src c c' [n] := by
  simp [fieldRest, -ensures_eat?]
  refine h.then (lays_annotatedType hg) fun type c₂ h => ?_
  refine h.then (lays_eat? _) fun given c₃ h => ?_
  refine h.then ((hg.assignment.within _).optional _) fun value c₄ h => ?_
  exact h.then lays_endStatement fun _ c₅ h => (h.form .other (by simp)).toReach

/-- A block, an index, a method or a field, with the decorators before it. -/
theorem lays_classMember (hg : g.Sound src) : g.classMember.Lays src ([·]) := by
  intro ctx c hc
  simp [classMember]
  refine hc.reach.then (lays_decorators hg) fun decorators c₁ h => ?_
  refine h.then lays_memberModifiers fun isStatic c₂ h => ⟨fun _ _ => ?_, fun _ => ?_⟩
  · exact h.drop.then (lays_staticBlock hg) fun n c₃ h => h
  refine stays_atIndexSignature.ensures fun isIndex => ⟨fun _ _ => ?_, fun _ => ?_⟩
  · refine h.drop.then (lays_indexSignature hg) fun index c₃ h => ?_
    exact h.then lays_endTypeMember fun _ c₄ h => h
  refine h.then lays_methodHead fun flavour c₃ h => ?_
  refine h.then (lays_classKey hg) fun key c₄ h _ _ => ?_
  refine h.then lays_skipMemberMarks fun _ c₅ h => ⟨fun _ => ?_, fun _ _ _ _ _ _ => ?_⟩
  · refine h.then (lays_method hg flavour) fun function c₆ h => ?_
    exact ((h.pass (by simp)).form .other (by simp)).toReach
  · have hparts : Pass src c c₅ (decorators ++ [key.1]) := by simpa using (h.pass (by simp))
    exact ensures_fieldRest hg hparts

/-- A semicolon between members makes nothing. -/
theorem lays_classEntry (hg : g.Sound src) : g.classEntry.Lays src id := by
  intro ctx c hc
  simp [classEntry]
  exact ⟨fun _ => hc.pass.toReach, fun _ => (lays_classMember hg).one ctx c hc⟩

/-- The trees of all entries, each of which is one member or none. -/
theorem lays_classMembers (hg : g.Sound src) :
    (until? (at? .rcurly) g.classEntry).Lays src List.flatten :=
  (lays_classEntry hg).until? (fun ctx c => by simp) rfl fun _ _ => rfl

/-- Members in braces. -/
theorem lays_classBody (hg : g.Sound src) : g.classBody.Lays src id := by
  intro ctx c hc
  simp [classBody]
  exact fun _ => hc.pass.then (lays_classMembers hg) fun members c₁ h _ => h.next.toReach

/-- The decorators before a class lie in the room of the class. -/
theorem ensures_classRule (hg : g.Sound src) (anonymous : Bool) {ctx : Context} {c c₁ : Cursor}
    {decorators : List Node} (h : Reach src c c₁ decorators) :
    (g.classRule anonymous decorators).Ensures ctx c₁
      fun n c' => Reach src c c' [n] ∧ c₁.token.start ≤ n.span.start := by
  simp [classRule]
  refine fun _ _ => h.on.pass.then (lays_binding.optional _) fun name c₂ h' => ?_
  refine h'.then (lays_typeParameters hg) fun types c₃ h' => ?_
  refine h'.then (lays_classHeritage hg) fun bases c₄ h' => ?_
  refine h'.then (lays_classBody hg) fun members c₅ h' => ?_
  have hparts : Pass src c c₅ (decorators ++ (name ++ (types ++ (bases ++ members)))) := by
    simpa using h.appendPass h'
  have hclass : Pass src c c₅ [.form .classDeclaration ⟨c₁.token.start, c₅.lastStop⟩
      (name ++ (decorators ++ (types ++ (bases ++ members))))] := by
    refine hparts.around (fun _ _ => rfl) ⟨h.start_le, h'.passed, Nat.le_refl _,
      h.on.start_isBoundary, h'.on.last_isBoundary, trivial⟩ ?_
    show List.Perm _ (_ ++ [])
    rw [List.append_nil]
    exact List.perm_append_comm_assoc ..
  exact ⟨hclass.toReach, Nat.le_refl _⟩

end VueSetup.Script.Grammar
