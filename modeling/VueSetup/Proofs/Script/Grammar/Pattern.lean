import VueSetup.Proofs.Script.Parse
import VueSetup.Script.Grammar.Pattern

/-!
# VueSetup.Proofs.Script.Grammar.Pattern

Patterns and parameters are laid in the text.

A pattern declares names, and each of these is a node that covers its name. What is written around a
pattern, a type or a decorator, is added to its parts (`addParts`) without making its stretch
longer, so that some patterns reach beyond what they cover (`Node.room`).
-/

namespace VueSetup.Script.Grammar

open Parse

variable {src : List Char} {g : Grammar}

/-! ### Types and keys

These two are used by patterns, objects and classes alike. -/

/-- A type behind a colon, if there is one. -/
theorem lays_annotatedType (hg : g.Sound src) : g.typeAnnotation.Lays src id := by
  intro ctx c hc
  simp [ typeAnnotation]
  refine ⟨fun _ _ => ?_, fun _ => hc.reach⟩
  exact hc.pass.then (hg.type.within _).one fun type c₁ h => h.toReach

/-- A computed key has its brackets read but not covered. -/
theorem lays_propertyKey (hg : g.Sound src) : g.propertyKey.Lays src fun key => [key.2] := by
  intro ctx c hc
  simp [propertyKey]
  split
  · simp
    exact lays_plainName ctx c hc
  · simp
    exact lays_string ctx c hc
  · simp
    exact (pass_leaf hc rfl rfl rfl).toReach
  · simp
    exact (pass_leaf hc rfl rfl rfl).toReach
  · simp
    exact hc.pass.then hg.assignment fun key c₁ h _ => h.next.toReach
  · simp

/-! ### Patterns

An object or an array to be taken apart. The lists are those of `Parse.listTo`, with a place of an
array that is empty, and with a rest that has to come last. -/

/-- The value to fall back on makes a node around the target, which ends behind the target then. -/
theorem ensures_withFallback (hg : g.Sound src) {ctx : Context} {c c₁ : Cursor} {target : Node}
    (h : Reach src c c₁ [target]) : (g.withFallback c.token.start target).Ensures ctx c₁
      fun n c' => Reach src c c' [n] ∧ c₁.lastStop ≤ c'.lastStop := by
  simp [withFallback]
  refine ⟨fun _ => ?_, fun _ => h⟩
  refine (hg.assignment _ _ h.on.next).imp fun value c₂ h₂ => ⟨?_, ?_⟩
  · exact ((h.next.append h₂).form .fallback (by simp)).toReach
  · exact Nat.le_trans (Nat.le_trans h.on.last_le h.on.start_le) h₂.last_le

/-- An element is a pattern with or without such a value. -/
theorem lays_patternElement (hg : g.Sound src) : g.patternElement.Lays src ([·]) := by
  intro ctx c hc
  simp [patternElement]
  exact hc.reach.then hg.pattern fun target c₁ h =>
    (ensures_withFallback hg h).imp fun _ _ h => h.1

/-- What takes the rest starts at the three dots, and the list must end behind it. -/
theorem lays_patternRest {target : Parse Node} (htarget : target.Lays src ([·])) (close : Punct) :
    (patternRest target close).Lays src ([·]) := by
  intro ctx c hc
  simp [patternRest]
  exact hc.pass.then htarget fun n c₁ h _ => (h.form .rest (by simp)).toReach

/-- An empty place is laid once the comma behind it is passed. -/
theorem laysElement_hole {ctx : Context} {c : Cursor} (hc : c.On src)
    (hcomma : c.token.isPunct .comma = true) : hole.Ensures ctx c fun n c' =>
      Reach src c c' [n] ∨ (c'.token.isPunct .comma = true ∧ Reach src c c'.next [n]) := by
  simp only [hole, ensures_bind, ensures_start, ensures_pure]
  refine .inr ⟨hcomma, { hc.pass with
    fit := fun lo hi hlo hhi hle => ?_, moved := fun _ => hc.pass.left }⟩
  have hs : Node.Sits src lo hi (.form .hole ⟨c.token.start, c.token.start⟩ []) :=
    ⟨hlo, Nat.le_refl _, Nat.le_trans hc.start_le hhi, hc.start_isBoundary, hc.start_isBoundary,
      trivial⟩
  exact Laid.singleton_iff.mpr ⟨[], [], hs, ⟨rfl, rfl⟩, .nil (Nat.le_refl _), by simp, by simp⟩

/-- An empty place is laid with its comma. -/
theorem laysElement_arrayPatternElement (hg : g.Sound src) :
    g.arrayPatternElement.LaysElement src ([·]) := by
  intro ctx c hc
  simp [arrayPatternElement]
  refine ⟨laysElement_hole hc, fun _ => ⟨fun _ => ?_, fun _ => ?_⟩⟩
  · exact (lays_patternRest hg.pattern .rbrack).element ctx c hc
  · exact (lays_patternElement hg).element ctx c hc

/-- A member that is only a name: the key lies over the value, which starts with the same name. -/
theorem pass_shorthand {c c₁ : Cursor} (hc : c.On src) (name : String) {value : Node}
    (h : Reach src c c₁ [value]) (hstop : c.token.stop ≤ c₁.lastStop) :
    Pass src c c₁ [.property ⟨c.token.start, c₁.lastStop⟩ false
      (.plainName ⟨c.token.start, c.token.stop⟩ name) value] := by
  have hkey : Fit src c.token.start c₁.lastStop
      [.plainName ⟨c.token.start, c.token.stop⟩ name] :=
    (pass_leaf hc rfl rfl rfl).fit.weaken (Nat.le_refl _) hstop
  exact (h.pass (by simp)).comprise rfl rfl (.inr ⟨rfl, rfl⟩) (by simp [Node.parts])
    (by simpa using hkey)

/-- A key with a pattern behind the colon, or a name that is both. -/
theorem lays_objectPatternMember (hg : g.Sound src) : g.objectPatternMember.Lays src ([·]) := by
  intro ctx c hc
  simp [objectPatternMember]
  refine ⟨fun _ => lays_patternRest lays_binding .rcurly ctx c hc,
    fun _ => ⟨fun _ _ => ensures_identifier fun name _ hkind => ?_, fun _ => ?_⟩⟩
  · refine (ensures_withFallback hg (pass_binding hc hkind).toReach).imp fun value c₁ h => ?_
    exact (pass_shorthand hc name h.1 h.2).toReach
  · refine hc.reach.then (lays_propertyKey hg) fun key c₁ h _ => ?_
    exact h.next.then (lays_patternElement hg) fun value c₂ h =>
      (h.node rfl rfl (by simp [Node.parts])).toReach

/-- A name, or a list of members or of elements in brackets. -/
theorem lays_patternRule (hg : g.Sound src) : g.patternRule.Lays src ([·]) := by
  intro ctx c hc
  simp [patternRule]
  refine ⟨fun _ => ?_, fun _ => ⟨fun _ => ?_, fun _ => lays_binding ctx c hc⟩⟩
  · exact hc.pass.then ((lays_objectPatternMember hg).nodesTo .rcurly) fun members c₁ h =>
      (h.form .pattern (by simp)).toReach
  · exact hc.pass.then ((laysElement_arrayPatternElement hg).nodesTo .rbrack) fun elements c₁ h =>
      (h.form .pattern (by simp)).toReach

/-- A pattern with what is written around it, which is added to it. -/
theorem fit_addParts {a b : Nat} {before behind : List Node} {pattern : Node}
    (h : Fit src a b (before ++ [pattern] ++ behind)) :
    Fit src a b [addParts pattern (behind ++ before)] := by
  intro lo hi hlo hhi hle
  have hlaid := h lo hi hlo hhi hle
  have hsits := (hlaid.of_mem (n := pattern) (by simp)).sits
  unfold addParts
  split
  · next heq =>
    obtain ⟨rfl, rfl⟩ := List.append_eq_nil_iff.mp heq
    exact hlaid
  · next span name ps _ =>
    -- the parts that the name has already lie between the others
    obtain ⟨mid, hfront, hbehind⟩ := Laid.append_iff.mp hlaid
    obtain ⟨at_, hbefore, hname⟩ := Laid.append_iff.mp hfront
    obtain ⟨qs, ls, hs, hc, hqs, hleaf, hls⟩ := Laid.singleton_iff.mp hname
    refine Laid.singleton_iff.mpr ⟨before ++ qs ++ behind, ls,
      { hsits with proper := hsits.proper }, ?_,
      (hbefore.append hqs).append hbehind, hleaf,
      fun l hl => (hls l hl).weaken hbefore.le hbehind.le⟩
    calc List.Perm (ps ++ (behind ++ before)) (qs ++ ls ++ (behind ++ before)) :=
          hc.append_right _
      List.Perm _ (before ++ (qs ++ ls ++ behind)) := by
        rw [← List.append_assoc]
        exact List.perm_append_comm
      List.Perm _ (before ++ qs ++ behind ++ ls) := by
        rw [List.append_assoc, List.append_assoc, List.append_assoc]
        exact (List.perm_append_comm.append_left qs).append_left before
  · next pattern _ _ _ _ =>
    refine Laid.singleton_iff.mpr ⟨before ++ [pattern] ++ behind, [], ?_, ?_, hlaid, by simp, by
      simp⟩
    · exact ⟨hsits.lo_le, hsits.start_le_stop, hsits.le_hi, hsits.start_isBoundary,
        hsits.stop_isBoundary, trivial⟩
    · calc List.Perm (pattern :: behind ++ before) (before ++ pattern :: behind) :=
            List.perm_append_comm
        List.Perm _ (before ++ [pattern] ++ behind ++ []) := by
          rw [List.append_nil, List.append_assoc, List.singleton_append]

/-! ### Parameters

A parameter is a pattern with a type and decorators, which lie around it and are added to it. -/

/-- Decorators are operands behind an at sign. -/
theorem lays_decorators (hg : g.Sound src) : g.decorators.Lays src id := by
  refine Lays.nodesUntil (fun ctx c hc => ?_) fun ctx c => by simp
  simp
  exact hc.pass.then hg.access fun value c₁ h => (h.form .other (by simp)).toReach

/-- Words that make a parameter a field. -/
theorem lays_skipParameterModifiers : skipParameterModifiers.Lays src fun _ => [] := by
  intro ctx c hc
  simp [skipParameterModifiers]
  refine ⟨fun _ => ?_, fun _ => hc.reach⟩
  exact lays_advance.skipUntil (fun ctx c => by simp) ctx c hc

/-- The question mark behind a parameter. -/
theorem lays_skipOptionalMark : skipOptionalMark.Lays src fun _ => [] := by
  intro ctx c hc
  simp only [skipOptionalMark, ensures_bind, ensures_hasTypes, ensures_ite, ensures_discard,
    ensures_pure]
  exact ⟨fun _ => lays_eat? .question ctx c hc, fun _ => hc.reach⟩

/-- Decorators, the pattern, its type and a value to fall back on. -/
theorem lays_parameter (hg : g.Sound src) : g.parameter.Lays src ([·]) := by
  intro ctx c hc
  simp [parameter]
  refine hc.reach.then (lays_decorators hg) fun decorators c₁ h => ?_
  refine h.then lays_skipParameterModifiers fun _ c₂ h => ?_
  refine h.then hg.pattern fun pattern c₃ h => ?_
  refine h.then lays_skipOptionalMark fun _ c₄ h => ?_
  refine h.then (lays_annotatedType hg) fun type c₅ h => ?_
  have hparts : Reach src c c₅ [addParts pattern (type ++ decorators)] :=
    { h with fit := fit_addParts (by simpa using h.fit), moved := fun _ => h.moved (by simp) }
  exact (ensures_withFallback hg hparts).imp fun _ _ h => h.1

/-- The last parameter, behind three dots. -/
theorem lays_restParameter (hg : g.Sound src) : g.restParameter.Lays src ([·]) := by
  intro ctx c hc
  simp [restParameter]
  refine hc.pass.then hg.pattern fun pattern c₁ h => ?_
  refine h.then lays_skipOptionalMark fun _ c₂ h => ?_
  refine h.then (lays_annotatedType hg) fun type c₃ h => ?_
  have hparts : Pass src c c₃ [addParts pattern (type ++ [])] :=
    { h with fit := fit_addParts (by simpa using h.fit), moved := fun _ => h.left }
  exact (hparts.form .rest (by simp)).toReach

/-- By induction on the number of parameters. The rest parameter ends them. -/
theorem lays_parametersFuel (hg : g.Sound src) (n : Nat) :
    (g.parametersFuel n).Lays src fun params => params.items ++ params.rest := by
  induction n with
  | zero => exact lays_reject
  | succ n ih =>
    intro ctx c hc
    simp [parametersFuel]
    refine ⟨fun _ => hc.reach, fun _ => ⟨fun _ => ?_, fun _ => ?_⟩⟩
    · exact hc.reach.then (lays_restParameter hg) fun rest c₁ h _ => h
    · refine hc.reach.then (lays_parameter hg) fun item c₁ h => ⟨fun _ => ?_, fun _ => h⟩
      exact h.next.then ih fun others c₂ h => by simpa using h.toReach

/-- The parameter `this` only has a type. -/
theorem lays_receiverParameter (hg : g.Sound src) : g.receiverParameter.Lays src id := by
  intro ctx c hc
  simp [receiverParameter]
  refine ⟨fun _ _ => ?_, fun _ => hc.reach⟩
  refine hc.pass.then (lays_annotatedType hg) fun type c₁ h => ?_
  exact ⟨fun _ => h.toReach, fun _ _ => h.next.toReach⟩

/-- The receiver stands first, and the rest last. -/
theorem laysPast_parameters (hg : g.Sound src) :
    g.parameters.LaysPast src fun params => params.receiver ++ params.items ++ params.rest := by
  intro ctx c hc
  simp [parameters]
  intro _
  refine hc.pass.then (lays_receiverParameter hg) fun receiver c₁ h => ?_
  refine h.then (lays_parametersFuel hg c₁.bound) fun params c₂ h _ => ?_
  simpa using h.next

end VueSetup.Script.Grammar
