import VueSetup.Proofs.Script.Parse
import VueSetup.Script.Grammar.Statement

/-!
# VueSetup.Proofs.Script.Grammar.Edges

Where statements start and end. A statement starts at a token that is not empty: the rules refuse
the end of the text and what is no token. It ends where the last token of it does.
-/

namespace VueSetup.Script

open Parse

namespace Token.IsMissing

variable {t : Token}

/-- What is no token is no punctuation. -/
theorem isPunct (h : t.IsMissing) (p : Punct) : t.isPunct p = false := by
  rcases h with h | h <;> simp [Token.isPunct, h]

/-- Nor is it a keyword. -/
theorem isWord (h : t.IsMissing) (w : String) : t.isWord w = false := by
  rcases h with h | h <;> simp [Token.isWord, h]

/-- Nor is it one of several. -/
theorem isOneOf (h : t.IsMissing) (ws : List String) : t.isOneOf ws = false := by
  rcases h with h | h <;> simp [Token.isOneOf, h]

end Token.IsMissing

namespace Node

@[simp] theorem span_form (kind : Form) (s : Span) (parts : List Node) : (form kind s parts).span =
    s :=
  rfl

@[simp] theorem span_returnStatement (s : Span) (parts : List Node) :
    (returnStatement s parts).span = s := rfl

@[simp] theorem span_importDeclaration (s : Span) (specifiers : List ImportSpecifier)
    (parts : List Node) : (importDeclaration s specifiers parts).span = s := rfl

@[simp] theorem span_exportDefault (s : Span) (value : Node) : (exportDefault s value).span = s :=
    rfl

@[simp] theorem span_exportNamed (s : Span) (names : List String) (parts : List Node) :
    (exportNamed s names parts).span = s := rfl

end Node

namespace Parse

/-- Where the parser refuses, anything holds of its outcomes. -/
theorem Balks.ensures {α : Type} {p : Parse α} (hp : p.Balks) {ctx : Context} {c : Cursor}
    (hc : c.token.IsMissing) {Q : α → Cursor → Prop} : p.Ensures ctx c Q :=
  (hp ctx c hc).imp fun _ _ h => h.elim

/-- There is no name where there is no token. -/
theorem balks_reference : reference.Balks := by
  intro ctx c hc
  simp [reference]
  refine ensures_identifier fun name escaped hkind => ?_
  rcases hc with h | h <;> rw [h] at hkind <;> cases hkind

/-- Nothing is repeated where the test holds from the start. -/
theorem ensures_until?_of_stop {α : Type} {item : Parse α} {stop : Parse Bool} {ctx : Context}
    {c : Cursor} (hstop : stop.Ensures ctx c fun b c' => b = true ∧ c' = c)
    {Q : List α → Cursor → Prop} (hnil : Q [] c) : (until? stop item).Ensures ctx c Q := by
  simp only [until?, ensures_bind, ensures_bound]
  cases c.bound with
  | zero => exact ensures_reject
  | succ n =>
    simp only [untilFuel, ensures_bind, ensures_ite, ensures_pure]
    exact hstop.imp fun b c' ⟨hb, hc⟩ => ⟨fun _ => hc ▸ hnil, fun h => absurd hb h⟩

theorem Ensures.of_forall {α : Type} {p : Parse α} {ctx : Context} {c : Cursor}
    {Q : α → Cursor → Prop} (h : ∀ a c', Q a c') : p.Ensures ctx c Q :=
  fun a c' _ => h a c'

@[simp ↓] theorem ensures_true {α : Type} {p : Parse α} {ctx : Context} {c : Cursor} :
    (p.Ensures ctx c fun _ _ => True) ↔ True :=
  iff_true_intro fun _ _ _ => trivial

end Parse

namespace Grammar

variable {g : Grammar}

/-- No decorators stand there, which is an outcome and not a refusal. -/
theorem ensures_decorators_of_isMissing {ctx : Context} {c : Cursor} (hc : c.token.IsMissing)
    {Q : List Node → Cursor → Prop} (hnil : Q [] c) : g.decorators.Ensures ctx c Q := by
  refine ensures_until?_of_stop ?_ hnil
  simp [hc.isPunct]

/-- An operand starts with a token, and what is none starts no operand. -/
theorem balks_primary : g.primary.Balks := by
  intro ctx c hc
  simp [primary, atFunction, hc.isWord]
  rcases hc with h | h
  all_goals
    simp only [h]
    exact balks_reference ctx c (by simp [Token.IsMissing, h])

theorem balks_accessRule : g.accessRule.Balks := by
  intro ctx c hc
  simp [accessRule, hc.isWord]
  exact balks_primary.ensures hc

theorem balks_operandRule (hg : g.Balks) : g.operandRule.Balks := by
  intro ctx c hc
  simp [operandRule, hc.isWord, hc.isPunct, hc.isOneOf]
  exact hg.access.ensures hc

/-- The operand comes first, before any operator. -/
theorem balks_operationRule (hg : g.Balks) (least : Nat) : (g.operationRule least).Balks := by
  intro ctx c hc
  simp [operationRule]
  split
  · next hkind => rcases hc with h | h <;> rw [h] at hkind <;> cases hkind
  · simp
    exact hg.operand.ensures hc

/-- No arrow starts there either, nor parameters in parentheses. -/
theorem balks_assignmentRule (hg : g.Balks) : g.assignmentRule.Balks := by
  intro ctx c hc
  simp [assignmentRule, hc.isWord, parenthesizedArrow?, guessArrow, hc.isPunct, asyncArrow?]
  exact (hg.operation 0).ensures hc

theorem balks_expressionRule (hg : g.Balks) : g.expressionRule.Balks := by
  intro ctx c hc
  simp [expressionRule, separated]
  exact hg.assignment.ensures hc

theorem balks_expressionOrLabelled (hg : g.Balks) : g.expressionOrLabelled.Balks := by
  intro ctx c hc
  simp [expressionOrLabelled]
  exact hg.expression.ensures hc

/-- The words that start a declaration are missing. -/
theorem balks_typedDeclaration (decorators : List Node) :
    (g.typedDeclaration decorators).Balks := by
  intro ctx c hc
  simp [typedDeclaration]
  refine ensures_until?_of_stop (by simp [hc.isOneOf]) ?_
  simp [plainDeclaration, variableStatement, variableDeclaration, atFunction, hc.isWord, hc.isOneOf]

/-- No statement starts at the end of the text: each kind needs its first token, and the last kind
is an expression. -/
theorem balks_statementRule (hg : g.Balks) (single : Bool) : (g.statementRule single).Balks := by
  intro ctx c hc
  simp [statementRule]
  refine ensures_decorators_of_isMissing hc ?_
  simp [hc.isPunct, hc.isWord, hc.isOneOf, atUsing, atFunction]
  refine ensures_sees fun isTyped => ⟨fun _ _ => ?_, fun _ => ?_⟩
  · exact (balks_typedDeclaration _).ensures hc
  · exact (balks_expressionOrLabelled hg).ensures hc

/-! ### Ends

A statement is made with `spanFrom` when its last token has been passed, so its stretch ends with
that token. Where the stretch is changed later on, only its start is. -/

/-- A loop ends with the statement inside of it. -/
theorem ends_walkingLoop (start : Nat) (first : Node) : (g.walkingLoop start first).Ends := by
  intro ctx c
  simp [walkingLoop]

theorem ends_countingLoop (start : Nat) (first : List Node) :
    (g.countingLoop start first).Ends := by
  intro ctx c
  simp [countingLoop]

/-- Both kinds of loops do. -/
theorem ends_forStatement : g.forStatement.Ends := by
  intro ctx c
  simp [forStatement, ends_countingLoop, ends_walkingLoop]
  refine ⟨fun _ _ _ _ _ _ => .of_forall fun _ _ _ => ?_,
    fun _ _ _ _ _ => .of_forall fun _ _ _ _ => ?_⟩
  all_goals
    split
    · exact ends_walkingLoop _ _ ctx _
    · exact ensures_reject

/-- A declaration ends with its semicolon if there is one. -/
theorem ends_variableStatement (single : Bool) : (g.variableStatement single).Ends := by
  intro ctx c
  simp [variableStatement, variableDeclaration]

theorem ends_classRule (anonymous : Bool) (decorators : List Node) :
    (g.classRule anonymous decorators).Ends := by
  intro ctx c
  simp [classRule]

theorem ends_functionDeclaration (anonymous single : Bool) :
    (g.functionDeclaration anonymous single).Ends := by
  intro ctx c
  simp [functionDeclaration]

theorem ends_importEquals (start : Nat) : (importEquals start).Ends := by
  intro ctx c
  simp [importEquals]

/-- Each declaration makes its own stretch. -/
theorem ends_plainDeclaration (start : Nat) (decorators : List Node) :
    (g.plainDeclaration start decorators).Ends := by
  intro ctx c
  simp [plainDeclaration, ends_classRule, ends_functionDeclaration, ends_variableStatement,
    ends_importEquals, enumeration, typeAlias, interface, namespaceDeclaration]

/-- A node that starts earlier still ends where it did. -/
theorem stop_startingAt (n : Node) (start : Nat) : (n.startingAt start).span.stop =
    n.span.stop := by
  cases n <;> rfl

theorem ends_typedDeclaration (decorators : List Node) : (g.typedDeclaration decorators).Ends := by
  intro ctx c
  simp [typedDeclaration, stop_startingAt, ends_plainDeclaration]

/-- An export ends with what is exported, or with its own last token. -/
theorem ends_exportDeclaration (decorators : List Node) :
    (g.exportDeclaration decorators).Ends := by
  intro ctx c
  simp [exportDeclaration, exportDefault, exportAll, exportBraces]

/-- A labelled statement ends with the statement behind its label. -/
theorem ends_expressionOrLabelled : g.expressionOrLabelled.Ends := by
  intro ctx c
  simp [expressionOrLabelled, expressionStatementRest]
  intro a c₁ _
  split
  · simp
  · simp

/-- Every statement ends where the last token of it does, whichever kind it is. -/
theorem ends_statementRule (single : Bool) : (g.statementRule single).Ends := by
  intro ctx c
  simp [statementRule, block, ifStatement, whileStatement, doStatement, switchStatement,
    throwStatement, tryStatement, jumpStatement, returnStatement, importDeclaration,
    ends_importEquals, letStatement, ends_forStatement, ends_variableStatement, ends_classRule,
    ends_functionDeclaration, ends_typedDeclaration, ends_exportDeclaration,
    ends_expressionOrLabelled]

end Grammar

end VueSetup.Script
