import VueSetup.Proofs.Script.Grammar.Markup
import VueSetup.Proofs.Script.Grammar.Module
import VueSetup.Script.Grammar.Statement

/-!
# VueSetup.Proofs.Script.Grammar.Statement

Statements are laid in the text, with the decorators before them.

A statement passes at least one token and makes one node, the parts of which are the statements and
expressions inside of it. Decorators are read before it is known what they belong to; they go into
the stretch of the class or of the declaration that takes them.
-/

namespace VueSetup.Script.Grammar

open Parse

variable {src : List Char} {g : Grammar}

/-! ### Blocks and conditions

Brackets are passed and belong to the node, but what they enclose is laid on its own. -/

/-- Statements up to the closing brace. -/
theorem lays_block (hg : g.Sound src) : g.block.Lays src ([·]) := by
  intro ctx c hc
  simp [block]
  refine fun _ => hc.pass.then ((hg.statement false).nodesUntil fun ctx c => by simp)
    fun statements c₁ h _ => ?_
  exact (h.toReach.next.form .scope (by simp)).toReach

/-- The parentheses are not part of the condition, but of what is read. -/
theorem lays_condition (hg : g.Sound src) : g.condition.Lays src ([·]) := by
  intro ctx c hc
  simp [condition]
  refine fun _ => hc.pass.then (fun ctx c hc => hg.expression _ c hc) fun value c₁ h _ => ?_
  exact h.toReach.next.toReach

/-- The condition and one or two statements. -/
theorem lays_ifStatement (hg : g.Sound src) : g.ifStatement.Lays src ([·]) := by
  intro ctx c hc
  simp [ifStatement, -ensures_eatWord?]
  refine hc.pass.then (lays_condition hg) fun test c₁ h => ?_
  refine h.then (hg.statement true) fun yes c₂ h => ?_
  refine h.then (lays_eatWord? _) fun hasElse c₃ h => ?_
  exact h.then ((hg.statement true).optional _) fun no c₄ h => (h.form .other (by simp)).toReach

/-- What a case is for, from its word to its colon. -/
theorem laysPast_caseTest (hg : g.Sound src) : g.caseTest.LaysPast src id := by
  intro ctx c hc
  simp [caseTest]
  refine ⟨fun _ => hc.pass, fun _ _ => ?_⟩
  refine hc.pass.then (fun ctx c hc => hg.expression _ c hc) fun value c₁ h => ?_
  exact h.form .other (by simp)

/-- The statements of a case go up to the next one. -/
theorem lays_switchCase (hg : g.Sound src) : g.switchCase.Lays src ([·]) := by
  intro ctx c hc
  simp [switchCase]
  refine hc.reach.thenPast (laysPast_caseTest hg) fun test c₁ h _ => ?_
  refine h.toReach.next.then ((hg.statement false).nodesUntil fun ctx c => by simp)
    fun statements c₂ h => ?_
  exact (h.form .case (by simp)).toReach

/-- Cases in braces behind the value. -/
theorem lays_switchStatement (hg : g.Sound src) : g.switchStatement.Lays src ([·]) := by
  intro ctx c hc
  simp [switchStatement]
  refine hc.pass.then (lays_condition hg) fun subject c₁ h _ => ?_
  refine h.on.pass.then ((lays_switchCase hg).nodesUntil fun ctx c => by simp)
    fun cases c₂ hcases _ => ?_
  have hscope := (hcases.toReach.next.form .scope (List.nil_append cases)).toReach
  exact ((h.append hscope).form .other (by simp)).toReach

/-! ### Loops

What stands first in the parentheses of a `for` is read before it is known which loop it is. From
there on both kinds go on behind the stretch that was read. -/

theorem lays_whileStatement (hg : g.Sound src) : g.whileStatement.Lays src ([·]) := by
  intro ctx c hc
  simp [whileStatement]
  refine hc.pass.then (lays_condition hg) fun test c₁ h => ?_
  exact h.then (hg.statement true) fun body c₂ h => (h.form .other (by simp)).toReach

/-- The condition stands behind the statement. -/
theorem lays_doStatement (hg : g.Sound src) : g.doStatement.Lays src ([·]) := by
  intro ctx c hc
  simp [doStatement, -ensures_eat?]
  refine hc.pass.then (hg.statement true) fun body c₁ h _ => ?_
  refine h.toReach.next.then (lays_condition hg) fun test c₂ h => ?_
  exact h.then (lays_eat? _) fun _ c₃ h => (h.form .other (by simp)).toReach

section

variable {ctx : Context} {c c₁ : Cursor}

/-- Each of the parts may be missing. -/
theorem ensures_countingLoop (hg : g.Sound src) {first : List Node} (h : Pass src c c₁ first) :
    (g.countingLoop c.token.start first).Ensures ctx c₁ fun n c' => Reach src c c' [n] := by
  simp [countingLoop]
  refine fun _ => h.toReach.next.then (hg.expression.bracketed.optional _) fun test c₂ h _ => ?_
  refine h.toReach.next.then (hg.expression.bracketed.optional _) fun step c₃ h _ => ?_
  exact h.toReach.next.then (hg.statement true) fun body c₄ h => (h.form .loop (by simp)).toReach

/-- A loop over elements takes one expression, a loop over keys may take several with commas. -/
theorem lays_loopSubject (hg : g.Sound src) (isOf : Bool) :
    (if isOf then g.assignment else g.expression).Lays src ([·]) := by
  split
  · exact hg.assignment
  · exact hg.expression

/-- What is gone through, and the statement inside. -/
theorem ensures_walkingLoop (hg : g.Sound src) {first : Node} (h : Pass src c c₁ [first]) :
    (g.walkingLoop c.token.start first).Ensures ctx c₁ fun n c' => Reach src c c' [n] := by
  simp [walkingLoop, -ensures_ite]
  refine h.toReach.next.then (fun ctx c hc => lays_loopSubject hg _ _ c hc) fun subject c₂ h _ => ?_
  exact h.toReach.next.then (hg.statement true) fun body c₃ h => (h.form .loop (by simp)).toReach

end

/-- The first part is missing, a declaration, or an expression that may be turned into a target. -/
theorem lays_forStatement (hg : g.Sound src) : g.forStatement.Lays src ([·]) := by
  intro ctx c hc
  simp [forStatement, -ensures_eatWord?]
  refine hc.pass.then (lays_eatWord? _) fun isAwait c₁ h _ _ => ?_
  have hhead := h.toReach.next
  refine ⟨?_, ?_⟩ <;> intros
  · exact ensures_countingLoop hg hhead
  refine ⟨?_, ?_⟩ <;> intros
  · refine hhead.then (fun ctx c hc => lays_variableDeclaration hg _ c hc) fun first c₂ h => ?_
    exact ⟨fun _ => ensures_walkingLoop hg h, fun _ _ _ => ensures_countingLoop hg h⟩
  · refine hhead.then (hg.expression.within _) fun first c₂ h => ?_
    refine ⟨fun _ _ => ?_, fun _ _ => ensures_countingLoop hg h⟩
    split
    · next target htarget =>
      have htargeted : Pass src c c₂ [target] := { h with
        fit := fun lo hi hlo hhi hle =>
          (Node.replaces_targets src).1 first target htarget lo hi (h.fit lo hi hlo hhi hle) }
      exact ensures_walkingLoop hg htargeted
    · exact ensures_reject

/-! ### Jumps

Statements that leave others, and those that catch what was thrown. -/

/-- A label is a name that is not used anywhere. -/
theorem lays_label : (do
    let t ← token
    require t.isIdentifier
    plainName).Lays src ([·]) := by
  intro ctx c hc
  simp
  exact fun _ => lays_plainName ctx c hc

/-- A label stands on the same line. -/
theorem lays_jumpStatement : jumpStatement.Lays src ([·]) := by
  intro ctx c hc
  simp [jumpStatement]
  refine hc.pass.then (lays_label.optional _) fun label c₁ h => ?_
  exact h.then lays_endStatement fun _ c₂ h => (h.form .other (by simp)).toReach

/-- The value is missing where the statement may end. -/
theorem lays_returnStatement (hg : g.Sound src) : g.returnStatement.Lays src ([·]) := by
  intro ctx c hc
  simp [returnStatement]
  refine fun _ => hc.pass.then (hg.expression.bracketed.optional _) fun value c₁ h => ?_
  exact h.then lays_endStatement fun _ c₂ h => (h.node rfl rfl (by simp [Node.parts])).toReach

/-- The value is never missing. -/
theorem lays_throwStatement (hg : g.Sound src) : g.throwStatement.Lays src ([·]) := by
  intro ctx c hc
  simp [throwStatement]
  refine fun _ => hc.pass.then (fun ctx c hc => hg.expression _ c hc) fun value c₁ h => ?_
  exact h.then lays_endStatement fun _ c₂ h => (h.form .other (by simp)).toReach

/-- What is caught, with its type, in parentheses. -/
theorem lays_catchParam (hg : g.Sound src) : g.catchParam.Lays src id := by
  intro ctx c hc
  simp [catchParam]
  refine ⟨fun _ => ?_, fun _ => hc.reach⟩
  refine hc.pass.then hg.pattern fun pattern c₁ h => ?_
  refine h.then (lays_annotatedType hg) fun type c₂ h _ => ?_
  have hparam : Pass src c c₂ [addParts pattern (type ++ [])] :=
    { h with fit := fit_addParts (by simpa using h.fit) }
  simpa using hparam.toReach.next.toReach

/-- A clause is one node or none. -/
theorem lays_catchClause (hg : g.Sound src) : g.catchClause.Lays src id := by
  intro ctx c hc
  simp [catchClause]
  refine ⟨fun _ => ?_, fun _ => hc.reach⟩
  refine hc.pass.then (lays_catchParam hg) fun param c₁ h => ?_
  exact h.then (lays_block hg) fun body c₂ h => (h.form .scope (by simp)).toReach

/-- The blocks in the order of the text, at least two of them. -/
theorem lays_tryStatement (hg : g.Sound src) : g.tryStatement.Lays src ([·]) := by
  intro ctx c hc
  simp [tryStatement, -ensures_eatWord?]
  refine hc.pass.then (lays_block hg) fun body c₁ h => ?_
  refine h.then (lays_catchClause hg) fun handler c₂ h => ?_
  refine h.then (lays_eatWord? _) fun hasFinal c₃ h => ?_
  refine h.then ((lays_block hg).optional _) fun final c₄ h _ => ?_
  exact (h.form .other (by simp)).toReach

/-! ### All statements

What is no statement of another kind is an expression. The words that are names at other places are
told from those by the tokens behind them. -/

/-- The semicolon belongs to the statement. -/
theorem ensures_expressionStatementRest {ctx : Context} {c c₁ : Cursor} {value : Node}
    (h : Reach src c c₁ [value]) : (expressionStatementRest c.token.start value).Ensures ctx c₁
      fun n c' => Reach src c c' [n] := by
  simp [expressionStatementRest]
  exact (h.pass (by simp)).then lays_endStatement fun _ c₂ h =>
    (h.form .expressionStatement (by simp)).toReach

/-- A name with a colon behind it was a label and no use of a name. -/
theorem lays_expressionOrLabelled (hg : g.Sound src) : g.expressionOrLabelled.Lays src ([·]) := by
  intro ctx c hc
  simp [expressionOrLabelled]
  refine hc.reach.then (fun ctx c hc => hg.expression _ c hc) fun value c₁ h => ?_
  split
  · next span name =>
    simp
    refine ⟨fun _ => ?_, fun _ => ensures_expressionStatementRest h⟩
    have hlabel : Reach src c c₁ [.plainName span name] := h.leaf rfl rfl rfl
    exact hlabel.next.then (hg.statement true) fun body c₂ h => (h.form .other (by simp)).toReach
  · exact ensures_expressionStatementRest h

/-- A declaration or an expression; the tokens behind the word tell. -/
theorem lays_letStatement (hg : g.Sound src) (single : Bool) :
    (g.letStatement single).Lays src ([·]) := by
  intro ctx c hc
  simp [letStatement]
  refine ⟨?_, ?_⟩ <;> intros
  · exact lays_expressionOrLabelled hg ctx c hc
  · exact lays_variableStatement hg single ctx c hc

/-- Whether `using` declares something is found out by looking at the next tokens. -/
theorem stays_atUsing : atUsing.Stays := by
  intro ctx c
  simp [atUsing]

/-- One case for each kind of statement, in the order in which the rule asks for them. -/
theorem lays_statementRule (hg : g.Sound src) (single : Bool) :
    (g.statementRule single).Lays src ([·]) := by
  intro ctx c hc
  simp [statementRule]
  refine hc.reach.then (lays_decorators hg) fun decorators c₁ h => ?_
  -- all but classes, exports and typed declarations stand behind the decorators
  have hbehind : ∀ {p : Parse Node}, p.Lays src ([·]) →
      p.Ensures ctx c₁ fun n c' => Reach src c c' [n] :=
    fun hp => h.drop.then hp fun _ _ h => h
  refine ⟨?_, ?_⟩ <;> intros
  · exact hbehind (lays_block hg)
  refine ⟨?_, ?_⟩ <;> intros
  · exact h.drop.append (h.on.pass.form .other (by simp)).toReach
  refine ⟨?_, ?_⟩ <;> intros
  · exact hbehind (lays_ifStatement hg)
  refine ⟨?_, ?_⟩ <;> intros
  · exact hbehind (lays_forStatement hg)
  refine ⟨?_, ?_⟩ <;> intros
  · exact hbehind (lays_whileStatement hg)
  refine ⟨?_, ?_⟩ <;> intros
  · exact hbehind (lays_doStatement hg)
  refine ⟨?_, ?_⟩ <;> intros
  · exact hbehind lays_jumpStatement
  refine ⟨?_, ?_⟩ <;> intros
  · exact hbehind (lays_whileStatement hg)
  refine ⟨?_, ?_⟩ <;> intros
  · exact hbehind (lays_switchStatement hg)
  refine ⟨?_, ?_⟩ <;> intros
  · exact hbehind (lays_throwStatement hg)
  refine ⟨?_, ?_⟩ <;> intros
  · exact hbehind (lays_tryStatement hg)
  refine ⟨?_, ?_⟩ <;> intros
  · exact h.on.pass.then lays_endStatement fun _ c₂ h' =>
      h.drop.append (h'.form .other (by simp)).toReach
  refine ⟨?_, ?_⟩ <;> intros
  · exact (ensures_classRule hg false h).imp fun _ _ h => h.1
  refine ⟨fun hexport => ?_, ?_⟩ <;> intros
  · exact ensures_exportDeclaration hg h hexport
  refine ⟨?_, ?_⟩ <;> intros
  · exact hbehind (lays_returnStatement hg)
  refine ⟨?_, ?_⟩ <;> intros
  · exact hbehind (lays_variableStatement hg single)
  refine stays_atUsing.ensures fun isUsing => ⟨?_, ?_⟩ <;> intros
  · exact hbehind (lays_variableStatement hg single)
  refine stays_atFunction.ensures fun isFunction => ⟨?_, ?_⟩ <;> intros
  · exact hbehind (lays_functionDeclaration hg false single)
  refine ⟨?_, ?_⟩ <;> intros
  · exact hbehind (lays_letStatement hg single)
  refine ⟨fun himport => ?_, ?_⟩ <;> intros
  · exact (ensures_importDeclaration h.on himport).imp fun _ _ h' => h.drop.append h'
  refine stays_atTypedDeclaration.ensures fun isTyped => ⟨?_, ?_⟩ <;> intros
  · exact (ensures_typedDeclaration hg h).imp fun _ _ h => h.1
  · exact hbehind (lays_expressionOrLabelled hg)

end VueSetup.Script.Grammar
