import VueSetup.Proofs.Script.Grammar.Type
import VueSetup.Script.Grammar.Function

/-!
# VueSetup.Proofs.Script.Grammar.Function

Functions are laid in the text, and the statements of their bodies come in order between the braces.

The type parameters, the receiver and the type of the result are kept in one list with the name, in
another order than that of the text (`Node.Comprises`). A block is asked more than other nodes:
nothing but blanks and comments stands between its statements (`Chained`), which is what later
allows to take a statement out or to move it.
-/

namespace VueSetup.Script.Grammar

open Parse

variable {src : List Char} {g : Grammar}

/-- Directives are the first statements, and are read as such. -/
theorem lays_directivesAndStatements (hg : g.Sound src) {stop : Parse Bool} (hstop : stop.Stays) :
    (g.directivesAndStatements stop).Lays src fun body => body.1 ++ body.2 := by
  intro ctx c hc
  simp [directivesAndStatements]
  exact (hg.statement false).nodesUntil hstop ctx c hc

/-- Nothing but blanks and comments stands between statements: each of them starts at the first
token behind the one before or later, and ends where the last token of it does. -/
theorem ensures_chained_untilFuel (hg : g.Sound src) {stop : Parse Bool} (hstop : stop.Stays)
    (n : Nat)
    {ctx : Context} {c : Cursor} (hc : c.On src) :
    (untilFuel stop (g.statement false) n).Ensures ctx c
      fun statements c' => Chained src c'.token.start c.lastStop statements := by
  induction n generalizing c with
  | zero => exact ensures_reject
  | succ n ih =>
    simp only [Parse.untilFuel, ensures_bind, ensures_ite, ensures_pure]
    refine hstop.ensures fun b => ⟨fun _ => hc.gap.symm, fun _ => ?_⟩
    intro first c₁ hfirst
    have hreach := hg.statement false ctx c hc first c₁ hfirst
    have hstop := hg.statement_ends false ctx c first c₁ hfirst
    have hsolid := hc.solid_of_not_isMissing fun hmissing =>
      hg.balks.statement false ctx c hmissing first c₁ hfirst
    refine (ih hreach.on).imp fun others c₂ hothers => ⟨?_, ?_, ?_⟩
    · rw [← hc.gap]
      exact hreach.start_le_span
    · rw [← hc.gap, hstop]
      exact hreach.moved rfl hsolid
    · rw [hstop]
      exact hothers

/-- The statements start behind the last token, and the last of them ends before the next one. -/
theorem ensures_chained_directivesAndStatements (hg : g.Sound src) {stop : Parse Bool}
    (hstop : stop.Stays) {ctx : Context} {c : Cursor} (hc : c.On src) :
    (g.directivesAndStatements stop).Ensures ctx c
      fun body c' => Chained src c'.token.start c.lastStop (body.1 ++ body.2) := by
  simp [directivesAndStatements, until?]
  exact ensures_chained_untilFuel hg hstop c.bound hc

/-- A brace takes one byte. -/
theorem stop_of_isBrace {c : Cursor} (hc : c.On src) {p : Punct} (h : c.token.isPunct p = true)
    (hp : p = .lcurly ∨ p = .rcurly) : c.token.stop = c.token.start + 1 := by
  have hsized := hc.sized
  have hle := hc.start_le
  rw [beq_iff_eq.mp h] at hsized
  have := hsized.2 hp
  omega

/-- A block around statements: they lie between the braces. -/
theorem pass_block {c c₁ : Cursor} {directives statements : List Node} (hc : c.On src)
    (hopen : c.token.isPunct .lcurly = true) (hclose : c₁.token.isPunct .rcurly = true)
    (h : Reach src c.next c₁ (directives ++ statements))
    (hchained : Chained src c₁.token.start c.next.lastStop (directives ++ statements)) :
    Pass src c c₁.next [.block ⟨c.token.start, c₁.token.stop⟩ directives statements] := by
  have hpass := (hc.pass.append h).toReach.next
  have hfirst := stop_of_isBrace hc hopen (.inl rfl)
  have hlast := stop_of_isBrace h.on hclose (.inr rfl)
  have hnext := hc.next.last_le
  have hlastStop := h.last_le
  have hstart := h.on.last_le
  rw [Cursor.next_lastStop] at hnext hlastStop
  refine { hpass with fit := fun lo hi hlo hhi hle => ?_, moved := fun _ => hpass.left }
  rw [Cursor.next_lastStop] at hhi
  have hbehind : Text.IsBoundary src c₁.token.stop := h.on.next.last_isBoundary
  have hinside : Text.IsBoundary src c.token.stop := hc.next.last_isBoundary
  refine Laid.singleton_iff.mpr ⟨directives ++ statements, [],
    ⟨hlo, by simp only [Node.span]; omega, hhi, hc.start_isBoundary, hbehind, ?_, ?_, ?_⟩,
    ⟨rfl, rfl⟩, ?_, by simp, by simp⟩
  · rwa [← hfirst]
  · rw [hlast, Nat.add_sub_cancel]
    exact h.on.start_isBoundary
  · rw [hlast, Nat.add_sub_cancel, ← hfirst]
    exact hchained
  · refine h.fit _ _ ?_ ?_ ?_ <;> simp only [Node.room] <;> omega

/-- A body is a block. -/
theorem lays_functionBody (hg : g.Sound src) (f : Flavour) :
    (g.functionBody f).Lays src ([·]) := by
  intro ctx c hc
  simp [functionBody]
  intro hopen
  have hstays : (at? .rcurly).Stays := fun ctx c => by simp
  have hlays := lays_directivesAndStatements hg hstays (f.bodyContext ctx) c.next hc.next
  refine (hlays.and (ensures_chained_directivesAndStatements hg hstays hc.next)).imp
    fun body c₁ ⟨h, hchained⟩ hclose => ?_
  exact (pass_block hc hopen hclose h hchained).toReach

/-- The parts of a function that are listed together stand before and behind its parameters. -/
theorem pass_function {c c₁ : Cursor} {before params behind body : List Node} {n : Node}
    (h : Pass src c c₁ (before ++ params ++ behind ++ body))
    (hspan : n.span = ⟨c.token.start, c₁.lastStop⟩) (hplain : n.isPlain = true)
    (hc : ∀ ps, n.Comprises ps [] ↔ n.parts.Perm ps)
    (hparts : n.parts = params ++ (before ++ behind) ++ body) : Pass src c c₁ [n] := by
  refine h.comprise hspan hplain ((hc _).mpr ?_) (by simp) (by simp)
  rw [hparts]
  refine List.Perm.append_right body ?_
  rw [← List.append_assoc]
  exact List.Perm.append_right behind List.perm_append_comm

/-- The name has been read before, or there is none. -/
theorem ensures_functionRest (hg : g.Sound src) (f : Flavour) {ctx : Context} {c c₁ : Cursor}
    {name : List Node} (h : Reach src c c₁ name) : (g.functionRest c.token.start f name).Ensures ctx
      c₁ fun n c' => Reach src c c' [n] ∧ c₁.lastStop ≤ c'.lastStop := by
  simp [functionRest]
  refine h.on.reach.then (lays_typeParameters hg) fun types c₂ h' => ?_
  refine h'.thenPast (fun ctx c hc => laysPast_parameters hg _ c hc) fun params c₃ h' => ?_
  refine h'.then (lays_returnType hg _) fun result c₄ h' => ⟨fun _ => ?_, fun _ _ => ?_⟩
  · refine h'.then (lays_functionBody hg f) fun body c₅ h' => ⟨?_, h'.last_le⟩
    have hparts : Pass src c c₅ (name ++ types ++ params.receiver ++
        (params.items ++ params.rest) ++ result ++ [body]) := by simpa using h.appendPass h'
    exact (pass_function hparts rfl rfl (fun ps => by simp [Node.Comprises])
      (by simp [Node.parts])).toReach
  · have hparts : Pass src c c₄ (name ++ types ++ params.receiver ++
        (params.items ++ params.rest) ++ result ++ []) := by simpa using h.appendPass h'
    have hfunction := pass_function hparts (n := .function ⟨c.token.start, c₄.lastStop⟩ params.items
      params.rest (name ++ (types ++ (params.receiver ++ result))) []) rfl rfl
      (fun ps => by simp [Node.Comprises]) (by simp [Node.parts])
    refine (lays_endStatement ctx c₄ h'.on).imp fun _ c₅ hend => ⟨?_, ?_⟩
    · exact (hfunction.append hend).toReach
    · exact Nat.le_trans h'.last_le hend.last_le

/-- The word `async` is looked behind. -/
theorem stays_atFunction : atFunction.Stays := by
  intro ctx c
  simp [atFunction]

/-- The words that open a function are passed. -/
theorem laysPast_functionHead : functionHead.LaysPast src fun _ => [] := by
  intro ctx c hc
  simp [functionHead, -ensures_eatWord?, -ensures_eat?]
  refine hc.reach.then (lays_eatWord? _) fun _ c₁ h _ => ?_
  exact h.next.then (lays_eat? _) fun _ c₂ h => h

/-- The name may be missing, and is a part of the function. -/
theorem lays_functionExpression (hg : g.Sound src) : g.functionExpression.Lays src ([·]) := by
  intro ctx c hc
  simp [functionExpression]
  refine (laysPast_functionHead ctx c hc).imp fun flavour c₁ h => ?_
  refine h.then ((lays_binding.within _).optional _) fun name c₂ h => ?_
  exact (ensures_functionRest hg flavour h.toReach).imp fun _ _ h => h.1

/-- A declared name has no parts where it is read. -/
theorem ensures_optionalBinding {ctx : Context} {c : Cursor} (hc : c.On src) (named : Bool) :
    (optional named binding).Ensures ctx c fun name c' =>
      Reach src c c' name ∧ ∀ l ∈ name, l.parts = [] := by
  simp only [Parse.optional, one, binding, ensures_ite, ensures_bind, ensures_pure]
  refine ⟨fun _ => ensures_identifier fun name _ hkind => ⟨?_, by simp [Node.parts]⟩,
    fun _ => ⟨hc.reach, by simp⟩⟩
  exact (pass_binding hc hkind).toReach

/-- The name of a declared function lies over the function, which starts before it. -/
theorem lays_functionDeclaration (hg : g.Sound src) (anonymous single : Bool) :
    (g.functionDeclaration anonymous single).Lays src ([·]) := by
  intro ctx c hc
  simp [functionDeclaration]
  refine (laysPast_functionHead ctx c hc).imp fun flavour c₁ h _ _ => ?_
  refine (ensures_optionalBinding h.on _).imp fun name c₂ ⟨hname, hleaf⟩ => ?_
  have hnamed : Reach src c c₂ name := h.toReach.append hname
  refine (ensures_functionRest hg flavour hnamed.drop).imp fun function c₃ ⟨hfunction, hle⟩ => ?_
  have hdeclaration : Pass src c c₃
      [.form .functionDeclaration ⟨c.token.start, c₃.lastStop⟩ (name ++ [function])] :=
    (hfunction.pass (by simp)).comprise rfl rfl List.perm_append_comm hleaf fun l hl =>
      (hnamed.fit.of_mem hl).weaken (Nat.le_refl _) hle
  exact hdeclaration.toReach

/-- A method has no name of its own, and starts at its parameters. -/
theorem lays_method (hg : g.Sound src) (f : Flavour) : (g.method f).Lays src ([·]) := by
  intro ctx c hc
  simp [method]
  exact (ensures_functionRest hg f hc.reach).imp fun _ _ h => h.1

end VueSetup.Script.Grammar
