import VueSetup.Proofs.Script.Fresh
import VueSetup.Proofs.Script.Program

/-!
# VueSetup.Proofs.Script.Settled

Every statement leaves a fresh cursor, so that imports and default exports start outside of any
closing tag (`Program.standsClear_of_parse?`).

A statement ends with a closing bracket or a semicolon, or without one at the end of a line, of a
block or of the text. Decorators can stand before an export and end with any operand, so operands
are followed up to their last token. An import is followed name by name (`Cursor.Clear`), because
each of its names can be taken out.
-/

namespace VueSetup.Script

open Text Parse

variable {src : List Char} {g : Grammar}

/-- An import and a default export start outside of any closing tag. Each imported name starts and
ends outside of any. -/
def Node.StandsClear (src : List Char) : Node → Prop
  | .importDeclaration span specifiers _ => IsClear src span.start ∧
      ∀ s ∈ specifiers, IsClear src s.span.start ∧ IsClear src s.span.stop
  | .exportDefault span _ => IsClear src span.start
  | _ => True

@[simp] theorem Node.standsClear_form (kind : Form) (span : Span) (parts : List Node) :
    (Node.form kind span parts).StandsClear src :=
  trivial

@[simp] theorem Node.standsClear_returnStatement (span : Span) (value : List Node) :
    (Node.returnStatement span value).StandsClear src :=
  trivial

@[simp] theorem Node.standsClear_exportNamed (span : Span) (names : List String)
    (parts : List Node) :
    (Node.exportNamed span names parts).StandsClear src :=
  trivial

/-- The parser leaves a fresh cursor behind a statement that stands clear. -/
def Parse.Completes (src : List Char) (p : Parse Node) : Prop :=
  ∀ ctx c, c.On src → p.Ensures ctx c fun n c' => c'.Fresh src ∧ n.StandsClear src

/-- That the statement stands clear may be forgotten. -/
theorem Parse.Completes.settles {p : Parse Node} (hp : p.Completes src) : p.Settles src :=
  fun ctx c hc => (hp ctx c hc).imp fun _ _ h => h.1

/-- The rules of a grammar that a statement can end with leave a fresh cursor. -/
structure Grammar.Settled (src : List Char) (g : Grammar) : Prop where
  sound : g.Sound src
  access : g.access.Settles src
  statement : ∀ single, (g.statement single).Settles src

namespace Grammar

/-! ### Functions and classes

A function expression, a class and a block end with a curly bracket, behind which every name starts
a new token. Only a function without a body, as types allow it, ends like a statement. -/

/-- A body ends with its brace. -/
theorem settles_functionBody (hg : g.Sound src) (f : Flavour) : (g.functionBody f).Settles src := by
  intro ctx c hc
  simp [functionBody]
  exact fun _ => hc.next.fresh_behind (lays_directivesAndStatements hg fun ctx c => by simp) rfl

/-- The body comes last, or the end of a declaration that has none. -/
theorem settles_functionRest (hg : g.Sound src) (start : Nat) (f : Flavour) (name : List Node) :
    (g.functionRest start f name).Settles src := by
  intro ctx c hc
  simp [functionRest]
  refine hc.then (lays_typeParameters hg) fun _ c₁ hc₁ => ?_
  refine hc₁.then (fun ctx c hc => (laysPast_parameters hg).lays _ c hc) fun _ c₂ hc₂ => ?_
  refine hc₂.then (lays_returnType hg _) fun _ c₃ hc₃ => ⟨fun _ => ?_, fun _ _ => ?_⟩
  · exact settles_functionBody hg f ctx c₃ hc₃
  · exact settles_endStatement ctx c₃ hc₃

theorem settles_functionExpression (hg : g.Sound src) : g.functionExpression.Settles src := by
  intro ctx c hc
  simp [functionExpression]
  refine hc.then laysPast_functionHead.lays fun flavour c₁ hc₁ => ?_
  refine hc₁.then ((lays_binding.within _).optional _) fun name c₂ hc₂ => ?_
  exact settles_functionRest hg _ flavour name ctx c₂ hc₂

/-- A declared function is neither an import nor a default export, so it stands clear wherever it
is. -/
theorem completes_functionDeclaration (hg : g.Sound src) (anonymous single : Bool) :
    (g.functionDeclaration anonymous single).Completes src := by
  intro ctx c hc
  simp [functionDeclaration]
  refine hc.then laysPast_functionHead.lays fun flavour c₁ hc₁ _ _ => ?_
  refine hc₁.then (lays_binding.optional _) fun _ c₂ hc₂ => ?_
  exact settles_functionRest hg _ flavour [] ctx c₂ hc₂

/-- A class ends with the bracket behind its members. -/
theorem completes_classRule (hg : g.Sound src) (anonymous : Bool) (decorators : List Node) :
    (g.classRule anonymous decorators).Completes src := by
  intro ctx c hc
  simp [classRule, classBody]
  refine fun _ _ => hc.next.then (lays_binding.optional _) fun _ c₁ hc₁ => ?_
  refine hc₁.then (lays_typeParameters hg) fun _ c₂ hc₂ => ?_
  refine hc₂.then (lays_classHeritage hg) fun _ c₃ hc₃ _ => ?_
  exact hc₃.next.fresh_behind (lays_classMembers hg) rfl

/-! ### Single operands

Decorators end with any operand, and an operand ends with a name, a literal or a closing bracket.
None of these lets a name behind it go on with `</`. The one operand that is not scanned as a token
of its kind is the regular expression, which is read again from its slash. -/

theorem settles_array (hg : g.Sound src) : g.array.Settles src := by
  intro ctx c hc
  simp [array]
  exact fun _ => (laysElement_arrayElement hg).settles_listTo rfl ctx _ hc.next

theorem settles_object (hg : g.Sound src) : g.object.Settles src := by
  intro ctx c hc
  simp [object]
  exact fun _ => (lays_objectMember hg).element.settles_listTo rfl ctx _ hc.next

/-- Behind a regular expression no name starts: it would have been read as flags. -/
theorem fresh_regex {ctx : Context} {c : Cursor} (hc : c.On src) {p : Punct}
    (hp : c.token.isPunct p = true) : regex.Ensures ctx c fun _ c' => c'.Fresh src := by
  simp [regex]
  split
  · next body hbody =>
    simp
    obtain ⟨before, htext, hsize⟩ :=
      hc.exists_before_tail (starts_of_isPunct hc hp) (takes_scanRegex? hbody)
    refine (Cursor.on_scanAt hc.bound_eq ⟨before, htext, hsize⟩).fresh_of_isSettled ?_
    exact ⟨before, body.rest, htext, hsize, .inr (startsNoName_scanRegex? hbody)⟩
  · simp

/-- A template ends with its quote, also where it embeds expressions. -/
theorem settles_template (hg : g.Sound src) (tagged : Bool) : (g.template tagged).Settles src := by
  intro ctx c hc
  simp [template]
  refine (ensures_pass_templateRule hg.expression.bracketed _ ctx hc).imp fun _ c₁ h => ?_
  exact h.1.on.fresh_of_isSettled (isSettled_of_isClear (isClear_of_closesAt h.2.closes))

theorem settles_parenthesized (hg : g.Sound src) : g.parenthesized.Settles src := by
  intro ctx c hc
  simp [parenthesized]
  exact fun _ => hc.next.fresh_behind hg.expression rfl

theorem settles_callArguments (hg : g.Sound src) : g.callArguments.Settles src := by
  intro ctx c hc
  simp [callArguments]
  exact fun _ => (lays_argument hg).element.settles_listTo rfl ctx _ hc.next

/-- The number of arguments is asked for only when the bracket has been passed. -/
theorem settles_importArguments (hg : g.Sound src) : g.importArguments.Settles src := by
  intro ctx c hc
  simp [importArguments]
  intro _
  exact (hg.assignment.bracketed.element.settles_listTo rfl ctx _ hc.next).imp fun _ _ h _ => h

/-- Either the word behind the dot is the last token, or the bracket behind the arguments is. -/
theorem settles_importExpression (hg : g.Sound src) : g.importExpression.Settles src := by
  intro ctx c hc
  simp [importExpression, Parse.optional, one]
  refine ⟨fun _ => ?_, fun _ => settles_importArguments hg ctx _ hc.next⟩
  refine ((lays_plainName ctx _ hc.next.next).and (settles_plainName ctx _ hc.next.next)).imp
    fun _ c₁ h => ⟨fun _ => ?_, fun _ => h.2⟩
  exact settles_importArguments hg ctx c₁ h.1.on

/-- One case for each kind of token that an operand can start with. -/
theorem settles_primary (hg : g.Sound src) : g.primary.Settles src := by
  intro ctx c hc
  simp [primary]
  refine stays_atFunction.ensures fun isFunction =>
    ⟨fun _ => settles_functionExpression hg ctx c hc, fun _ => ?_⟩
  split
  · next hkind =>
    simp
    exact hc.fresh_next (by rw [hkind]; rfl)
  · next hkind =>
    simp
    exact hc.fresh_next (by rw [hkind]; rfl)
  · next hkind =>
    simp
    exact hc.fresh_next (by rw [hkind]; rfl)
  · exact settles_template hg false ctx c hc
  · exact settles_array hg ctx c hc
  · exact settles_object hg ctx c hc
  · exact settles_parenthesized hg ctx c hc
  · next hkind => exact fresh_regex hc (beq_iff_eq.mpr hkind)
  · next hkind => exact fresh_regex hc (beq_iff_eq.mpr hkind)
  · simp
    exact hc.then (lays_decorators hg) fun decorators c₁ hc₁ =>
      (completes_classRule hg true decorators).settles ctx c₁ hc₁
  · next hkind =>
    have hnext : c.next.Fresh src := hc.fresh_next (by rw [hkind]; rfl)
    split
    · simpa
    · simpa
    · simpa
    · simpa
    · exact (completes_classRule hg true []).settles ctx c hc
    · simp [superExpression]
      exact fun _ => hnext
    · exact settles_importExpression hg ctx c hc
    · exact settles_reference ctx c hc
  · exact settles_reference ctx c hc

/-! ### Members and calls

Links are read one after the other behind an operand, so the invariant is that the cursor is fresh
behind all that was read so far. A link that is given up leaves the cursor where it was. -/

/-- Type arguments end with a right angle, which stands in no closing tag but at its end. -/
theorem settles_expressionTypeArguments (hg : g.Sound src) :
    g.expressionTypeArguments.Settles src := by
  intro ctx c hc
  simp [expressionTypeArguments]
  refine hc.then lays_splitAngles fun _ c₁ hc₁ _ => ⟨fun _ _ hclose _ => ?_, fun _ => ?_⟩
  · exact hc₁.next.fresh_next_of_isPunct hclose rfl
  · exact hc₁.next.then (hg.type.nodesSeparated _).lays fun _ c₂ hc₂ _ hclose _ =>
      hc₂.fresh_next_of_isPunct hclose rfl

/-- The name of a member is a word, private or not. -/
theorem settles_namedMember (start : Nat) (base : Node) : (namedMember start base).Settles src := by
  intro ctx c hc
  simp [namedMember]
  split
  · simp
    exact settles_privateName ctx c hc
  · simp
    exact settles_anyName ctx c hc

theorem settles_computedMember (hg : g.Sound src) (start : Nat) (base : Node) :
    (g.computedMember start base).Settles src := by
  intro ctx c hc
  simp [computedMember]
  exact fun _ => hc.next.fresh_behind hg.expression rfl

theorem settles_callRest (hg : g.Sound src) (start : Nat) (callee : Node) (types : List Node) :
    (g.callRest start callee types).Settles src := by
  intro ctx c hc
  simp [callRest]
  exact settles_callArguments hg ctx c hc

/-- What follows `?.` is a call, a member in brackets, or a name. -/
theorem settles_optionalLink (hg : g.Sound src) (start : Nat) (base : Node) :
    (g.optionalLink start base).Settles src := by
  intro ctx c hc
  simp [optionalLink]
  refine ⟨fun _ => settles_callRest hg start base [] ctx c hc, fun _ => ?_⟩
  refine ⟨fun _ => settles_computedMember hg start base ctx c hc, fun _ => ?_⟩
  refine ⟨fun _ _ => ?_, fun _ => settles_namedMember start base ctx c hc⟩
  refine hc.then lays_splitAngles fun _ c₁ hc₁ => ?_
  exact hc₁.then (lays_typeArguments hg) fun types c₂ hc₂ =>
    settles_callRest hg start base types ctx c₂ hc₂

/-- By induction on the number of links that may be read. -/
theorem fresh_links (hg : g.Sound src) (calls : Bool) {ctx : Context} {c : Cursor} (n : Nat)
    (chained : Bool) {c₁ : Cursor} {base : Node} (h : Reach src c c₁ [base])
    (hfresh : c₁.Fresh src) :
    (g.links c.token.start calls n chained base).Ensures ctx c₁ fun _ c' => c'.Fresh src := by
  induction n generalizing c₁ base chained with
  | zero => exact ensures_reject
  | succ n ih =>
    -- a link lays its node and settles
    have hlink : ∀ {p : Parse Node} {d : Cursor} (linked : Bool), d.On src →
        p.Ensures ctx d (fun m c' => Reach src c c' [m]) → p.Settles src →
        p.Ensures ctx d fun m c' => (g.links c.token.start calls n linked m).Ensures ctx c'
          fun _ c'' => c''.Fresh src := fun linked hd hp hsettles =>
      (hp.and (hsettles ctx _ hd)).imp fun _ _ hm => ih linked hm.1 hm.2
    have hnext := h.next.toReach
    simp [links]
    refine ⟨fun _ => ?_, fun _ => ?_⟩
    · exact hlink chained hnext.on (ensures_namedMember hnext) (settles_namedMember _ _)
    refine ⟨fun _ _ => ?_, fun _ => ?_⟩
    · exact hlink true hnext.on (ensures_optionalLink hg hnext) (settles_optionalLink hg _ _)
    refine ⟨fun _ _ => ?_, fun _ => ?_⟩
    · exact hlink chained h.on (ensures_computedMember hg h) (settles_computedMember hg _ _)
    refine ⟨fun hbang _ _ => ?_, fun _ => ?_⟩
    · exact ih chained (h.next.form .nonNull rfl).toReach (h.on.fresh_next_of_isPunct hbang rfl)
    refine ⟨fun _ _ => ?_, fun _ => ?_⟩
    · refine ((lays_template hg true ctx _ h.on).and (settles_template hg true ctx _ h.on)).imp
        fun text c₂ htext => ih chained ?_ htext.2
      exact (((h.append htext.1).pass (by simp)).form .other rfl).toReach
    have hcall : ∀ {types : List Node} {d : Cursor}, Reach src c d (base :: types) →
        (g.callRest c.token.start base types).Ensures ctx d fun m c' =>
          (g.links c.token.start calls n chained m).Ensures ctx c' fun _ c'' => c''.Fresh src :=
      fun hd => hlink chained hd.on (ensures_callRest hg hd) (settles_callRest hg _ _ _)
    refine ⟨fun _ _ => hcall h, fun _ => ?_⟩
    refine ⟨fun _ _ => ensures_attempt ?_ ?_, fun _ => hfresh⟩
    · simp
      refine ((lays_expressionTypeArguments hg ctx _ h.on).and
        (settles_expressionTypeArguments hg ctx _ h.on)).imp fun types c₂ htypes => ?_
      have h' := h.append htypes.1
      refine ⟨fun _ _ => hcall h', fun _ => ?_⟩
      exact ih chained ((h'.pass (by simp)).form .other rfl).toReach htypes.2
    · simpa

/-- Behind `new` and its operand come type arguments and arguments, or nothing. -/
theorem fresh_newRest (hg : g.Sound src) (start : Nat) {ctx : Context} {c c₁ : Cursor} {base : Node}
    (h : Reach src c c₁ [base]) (hfresh : c₁.Fresh src) :
    (g.newRest start c.token.start base).Ensures ctx c₁ fun _ c' => c'.Fresh src := by
  simp [newRest]
  refine ((ensures_links hg false c₁.bound false h).and
    (fresh_links hg false c₁.bound false h hfresh)).imp fun callee c₂ hcallee => ?_
  exact ⟨fun _ => settles_callArguments hg ctx c₂ hcallee.1.on, fun _ => hcallee.2⟩

/-- By induction on how often `new` is written. -/
theorem settles_newExpression (hg : g.Sound src) (n : Nat) : (g.newExpression n).Settles src := by
  induction n with
  | zero => exact settles_reject
  | succ n ih =>
    intro ctx c hc
    simp [newExpression]
    refine fun _ => ⟨fun _ => settles_plainName ctx _ hc.next.next, fun _ => ?_⟩
    refine ⟨fun _ => ?_, fun _ _ => ?_⟩
    · refine ((lays_newExpression hg n ctx _ hc.next).and (ih ctx _ hc.next)).imp fun base c₁ h =>
        ?_
      exact fresh_newRest hg _ h.1 h.2
    · refine ((lays_primary hg ctx _ hc.next).and (settles_primary hg ctx _ hc.next)).imp
        fun base c₁ h => ?_
      exact fresh_newRest hg _ h.1 h.2

/-- An operand with all of its links. -/
theorem settles_accessRule (hg : g.Sound src) : g.accessRule.Settles src := by
  intro ctx c hc
  simp [accessRule]
  have hlinks : ∀ {base : Node} {c₁ : Cursor}, Reach src c c₁ [base] ∧ c₁.Fresh src →
      (g.links c.token.start true c₁.bound false base).Ensures ctx c₁ fun found c' =>
        (found.2 = true → c'.Fresh src) ∧ (found.2 = false → c'.Fresh src) := fun h =>
    (fresh_links hg true _ false h.1 h.2).imp fun _ _ h => ⟨fun _ => h, fun _ => h⟩
  refine ⟨fun _ => ?_, fun _ => ?_⟩
  · exact ((lays_newExpression hg _ ctx c hc).and (settles_newExpression hg _ ctx c hc)).imp
      fun _ _ => hlinks
  · exact ((lays_primary hg ctx c hc).and (settles_primary hg ctx c hc)).imp fun _ _ => hlinks

/-! ### Statements

A statement with statements inside of it ends where the last of these does, with a closing bracket
if it is a block, and so `Grammar.Settled` is used for the nested ones. -/

/-- Each decorator ends with an operand. Without any the cursor is the one from before. -/
theorem fresh_decorators (hg : g.Settled src) {ctx : Context} {c : Cursor} (hc : c.On src)
    (hfresh : c.Fresh src) : g.decorators.Ensures ctx c fun _ c' => c'.Fresh src := by
  have hitem : ∀ c, c.On src ∧ c.Fresh src → (do
      let start ← Parse.start
      advance
      let value ← within ({ · with inDecorator := true }) g.access
      return Node.form .other (← spanFrom start) [value]).Ensures ctx c
        fun _ c' => (c'.On src ∧ c'.Fresh src) ∧ True := by
    rintro c ⟨hc, -⟩
    simp
    exact ((hg.sound.access _ _ hc.next).and (hg.access _ _ hc.next)).imp fun _ _ h => ⟨h.1.on, h.2⟩
  exact (ensures_until? hitem (fun ctx c => by simp) ⟨hc, hfresh⟩).imp fun _ _ h => h.1.2

theorem completes_block (hg : g.Sound src) : g.block.Completes src := by
  intro ctx c hc
  simp [block]
  exact fun _ => hc.next.fresh_behind ((hg.statement false).nodesUntil fun ctx c => by simp) rfl

/-- A condition stands in parentheses. -/
theorem settles_condition (hg : g.Sound src) : g.condition.Settles src := by
  intro ctx c hc
  simp [condition]
  exact fun _ => hc.next.fresh_behind hg.expression rfl

/-- The last statement inside is the one behind `else`, or else the first one. -/
theorem completes_ifStatement (hg : g.Settled src) : g.ifStatement.Completes src := by
  intro ctx c hc
  simp [ifStatement, Parse.optional, one]
  refine hc.next.then (lays_condition hg.sound) fun _ c₁ hc₁ => ?_
  refine ((hg.sound.statement true ctx c₁ hc₁).and (hg.statement true ctx c₁ hc₁)).imp
    fun _ c₂ h => ⟨fun _ => ?_, fun _ => h.2⟩
  exact hg.statement true ctx _ h.1.on.next

theorem completes_switchStatement (hg : g.Sound src) : g.switchStatement.Completes src := by
  intro ctx c hc
  simp [switchStatement]
  refine hc.next.then (lays_condition hg) fun _ c₁ hc₁ _ => ?_
  exact hc₁.next.fresh_behind ((lays_switchCase hg).nodesUntil fun ctx c => by simp) rfl

theorem completes_whileStatement (hg : g.Settled src) : g.whileStatement.Completes src := by
  intro ctx c hc
  simp [whileStatement]
  exact hc.next.then (lays_condition hg.sound) fun _ c₁ hc₁ => hg.statement true ctx c₁ hc₁

/-- The semicolon behind the condition may be left out even within a line. -/
theorem completes_doStatement (hg : g.Sound src) : g.doStatement.Completes src := by
  intro ctx c hc
  simp [doStatement]
  refine hc.next.then (hg.statement true) fun _ c₁ hc₁ _ => ?_
  refine ((lays_condition hg ctx _ hc₁.next).and (settles_condition hg ctx _ hc₁.next)).imp
    fun _ c₂ h => ⟨fun hsemicolon => ?_, fun _ => h.2⟩
  exact h.1.on.fresh_next_of_isPunct hsemicolon rfl

/-- A loop with a semicolon between its parts. -/
theorem completes_countingLoop (hg : g.Settled src) (start : Nat) (first : List Node) :
    (g.countingLoop start first).Completes src := by
  intro ctx c hc
  simp [countingLoop]
  refine fun _ => hc.next.then (hg.sound.expression.bracketed.optional _) fun _ c₁ hc₁ _ => ?_
  refine hc₁.next.then (hg.sound.expression.bracketed.optional _) fun _ c₂ hc₂ _ => ?_
  exact hg.statement true ctx _ hc₂.next

/-- A loop over the members or the elements of a value. -/
theorem completes_walkingLoop (hg : g.Settled src) (start : Nat) (first : Node) :
    (g.walkingLoop start first).Completes src := by
  intro ctx c hc
  simp [walkingLoop, -ensures_ite]
  refine hc.next.then (fun ctx c hc => lays_loopSubject hg.sound _ _ c hc) fun _ c₁ hc₁ _ => ?_
  exact hg.statement true ctx _ hc₁.next

/-- Which loop it is shows behind the first part, and where there is none it is one that counts. -/
theorem completes_forStatement (hg : g.Settled src) : g.forStatement.Completes src := by
  intro ctx c hc
  simp [forStatement, -ensures_eatWord?]
  refine hc.next.then (lays_eatWord? _) fun isAwait c₁ hc₁ _ _ => ?_
  refine ⟨?_, ?_⟩ <;> intros
  · exact completes_countingLoop hg _ _ ctx _ hc₁.next
  refine ⟨?_, ?_⟩ <;> intros
  · refine hc₁.next.then (fun ctx c hc => lays_variableDeclaration hg.sound _ c hc)
      fun first c₂ hc₂ => ?_
    exact ⟨fun _ => completes_walkingLoop hg _ _ ctx c₂ hc₂,
      fun _ _ _ => completes_countingLoop hg _ _ ctx c₂ hc₂⟩
  · refine hc₁.next.then (hg.sound.expression.within _) fun first c₂ hc₂ => ?_
    refine ⟨fun _ _ => ?_, fun _ _ => completes_countingLoop hg _ _ ctx c₂ hc₂⟩
    split
    · exact completes_walkingLoop hg _ _ ctx c₂ hc₂
    · exact ensures_reject

/-- Without a clause the block before it is what was read last. -/
theorem fresh_catchClause (hg : g.Sound src) {ctx : Context} {c : Cursor} (hc : c.On src)
    (hfresh : c.Fresh src) : g.catchClause.Ensures ctx c fun _ c' => c'.Fresh src := by
  simp [catchClause]
  refine ⟨fun _ => ?_, fun _ => hfresh⟩
  exact hc.next.then (lays_catchParam hg) fun _ c₁ hc₁ => (completes_block hg).settles ctx c₁ hc₁

/-- The last block is the one of `finally`, of `catch` or the first one. -/
theorem completes_tryStatement (hg : g.Sound src) : g.tryStatement.Completes src := by
  intro ctx c hc
  simp [tryStatement, Parse.optional, one]
  refine ((lays_block hg ctx _ hc.next).and ((completes_block hg).settles ctx _ hc.next)).imp
    fun _ c₁ hbody => ?_
  refine ((lays_catchClause hg ctx c₁ hbody.1.on).and (fresh_catchClause hg hbody.1.on hbody.2)).imp
    fun _ c₂ hhandler => ⟨fun _ => ?_, fun _ _ => hhandler.2⟩
  exact (completes_block hg).settles ctx _ hhandler.1.on.next

/-! ### Statements that end at a semicolon or a line

Here a name may stand right behind the statement, and what parts it from the last token is the
semicolon, the end of the line or the end of the block around (`settles_endStatement`). -/

theorem completes_jumpStatement : jumpStatement.Completes src := by
  intro ctx c hc
  simp [jumpStatement]
  exact hc.next.then (lays_label.optional _) fun _ c₁ hc₁ => settles_endStatement ctx c₁ hc₁

theorem completes_returnStatement (hg : g.Sound src) : g.returnStatement.Completes src := by
  intro ctx c hc
  simp [returnStatement]
  exact fun _ => hc.next.then (hg.expression.bracketed.optional _) fun _ c₁ hc₁ =>
    settles_endStatement ctx c₁ hc₁

theorem completes_throwStatement (hg : g.Sound src) : g.throwStatement.Completes src := by
  intro ctx c hc
  simp [throwStatement]
  exact fun _ => hc.next.then hg.expression fun _ c₁ hc₁ => settles_endStatement ctx c₁ hc₁

theorem completes_expressionStatementRest (start : Nat) (value : Node) :
    (expressionStatementRest start value).Completes src := by
  intro ctx c hc
  simp [expressionStatementRest]
  exact settles_endStatement ctx c hc

/-- A label makes way for the statement behind it. Any other expression is a statement up to its
end. -/
theorem completes_expressionOrLabelled (hg : g.Settled src) :
    g.expressionOrLabelled.Completes src := by
  intro ctx c hc
  simp [expressionOrLabelled]
  refine hc.then (fun ctx c hc => hg.sound.expression _ c hc) fun value c₁ hc₁ => ?_
  split
  · simp
    refine ⟨fun _ => hg.statement true ctx _ hc₁.next, fun _ => ?_⟩
    exact completes_expressionStatementRest _ _ ctx c₁ hc₁
  · exact completes_expressionStatementRest _ _ ctx c₁ hc₁

theorem completes_variableStatement (hg : g.Sound src) (single : Bool) :
    (g.variableStatement single).Completes src := by
  intro ctx c hc
  simp [variableStatement]
  intro _
  refine (ensures_variableDeclaration hg hc).imp ?_
  rintro ⟨_, isMissing⟩ c₁ ⟨ps, rfl, h⟩ _
  refine (settles_endStatement ctx c₁ h.on).imp fun _ c₂ hfresh => ?_
  simpa

/-- The word `let` can be a name, which then starts an expression. -/
theorem completes_letStatement (hg : g.Settled src) (single : Bool) :
    (g.letStatement single).Completes src := by
  intro ctx c hc
  simp [letStatement]
  refine ⟨?_, ?_⟩ <;> intros
  · exact completes_expressionOrLabelled hg ctx c hc
  · exact completes_variableStatement hg.sound single ctx c hc

/-! ### Declarations of scripts with types

Aliases and assignments of modules end like expressions. Interfaces, enumerations and namespaces end
with a curly bracket. -/

theorem completes_typeAlias (hg : g.Sound src) (start : Nat) :
    (g.typeAlias start).Completes src := by
  intro ctx c hc
  simp [typeAlias]
  refine fun _ => hc.next.then lays_binding fun _ c₁ hc₁ => ?_
  refine hc₁.then (lays_typeParameters hg) fun _ c₂ hc₂ _ => ?_
  exact hc₂.next.then (hg.type.within _) fun _ c₃ hc₃ => settles_endStatement ctx c₃ hc₃

theorem completes_interface (hg : g.Sound src) (start : Nat) :
    (g.interface start).Completes src := by
  intro ctx c hc
  have hmembers : g.typeMembers.Settles src := by
    intro ctx c hc
    simp [typeMembers]
    exact fun _ => hc.next.fresh_behind ((lays_typeMember hg).nodesUntil fun ctx c => by simp) rfl
  simp [interface]
  refine fun _ => hc.next.then lays_binding fun _ c₁ hc₁ => ?_
  refine hc₁.then (lays_typeParameters hg) fun _ c₂ hc₂ => ⟨fun _ => ?_, fun _ => ?_⟩
  · exact hc₂.next.then ((lays_heritage hg).nodesSeparated _).lays fun _ c₃ hc₃ =>
      hmembers ctx c₃ hc₃
  · exact hmembers ctx c₂ hc₂

theorem completes_enumeration (hg : g.Sound src) (start : Nat) :
    (g.enumeration start).Completes src := by
  intro ctx c hc
  simp [enumeration, -ensures_eatWord?]
  refine hc.then (lays_eatWord? _) fun _ c₁ hc₁ _ => ?_
  refine hc₁.next.then lays_binding fun _ c₂ hc₂ _ => ?_
  exact (lays_enumMember hg).element.settles_listTo rfl ctx _ hc₂.next

/-- A namespace that is only declared has no block. -/
theorem settles_namespaceBody (hg : g.Sound src) : g.namespaceBody.Settles src := by
  intro ctx c hc
  simp [namespaceBody]
  exact fun _ => hc.next.fresh_behind ((hg.statement false).nodesUntil fun ctx c => by simp) rfl

theorem completes_namespaceDeclaration (hg : g.Sound src) (start : Nat) :
    (g.namespaceDeclaration start).Completes src := by
  intro ctx c hc
  simp [namespaceDeclaration]
  refine ⟨fun _ => settles_namespaceBody hg ctx _ hc.next, fun _ => ⟨fun _ => ?_, fun _ => ?_⟩⟩
  · refine hc.next.then lays_string fun _ c₁ hc₁ => ⟨fun _ => ?_, fun _ => ?_⟩
    · exact settles_namespaceBody hg ctx c₁ hc₁
    · exact settles_endStatement ctx c₁ hc₁
  · refine hc.next.then lays_binding fun _ c₁ hc₁ => ?_
    exact hc₁.then lays_dottedNames fun _ c₂ hc₂ => settles_namespaceBody hg ctx c₂ hc₂

theorem completes_importEquals (start : Nat) : (importEquals start).Completes src := by
  intro ctx c hc
  simp [importEquals]
  refine hc.then lays_skipAliasWord fun _ c₁ hc₁ => ?_
  refine hc₁.then lays_binding fun _ c₂ hc₂ _ => ⟨fun _ _ => ?_, fun _ => ?_⟩
  · exact hc₂.next.next.next.then lays_string fun _ c₃ hc₃ _ => settles_endStatement ctx _ hc₃.next
  · exact hc₂.next.then lays_typeName fun _ c₃ hc₃ => settles_endStatement ctx c₃ hc₃

/-- Which declaration it is shows at its first words. -/
theorem completes_plainDeclaration (hg : g.Sound src) (start : Nat) (decorators : List Node) :
    (g.plainDeclaration start decorators).Completes src := by
  intro ctx c hc
  simp [plainDeclaration]
  refine ⟨?_, ?_⟩ <;> intros
  · exact completes_classRule hg false decorators ctx c hc
  refine stays_atFunction.ensures fun isFunction => ⟨?_, ?_⟩ <;> intros
  · exact completes_functionDeclaration hg false false ctx c hc
  have hvariables := completes_variableStatement hg false ctx c hc
  refine ⟨fun _ => ?_, fun _ => hvariables⟩
  refine ⟨?_, ?_⟩ <;> intros
  · exact completes_enumeration hg start ctx c hc
  refine ⟨?_, ?_⟩ <;> intros
  · exact completes_typeAlias hg start ctx c hc
  refine ⟨?_, ?_⟩ <;> intros
  · exact completes_interface hg start ctx c hc
  refine ⟨?_, ?_⟩ <;> intros
  · exact completes_namespaceDeclaration hg start ctx c hc
  refine ⟨?_, ?_⟩ <;> intros
  · exact completes_importEquals start ctx _ hc.next
  exact hvariables

/-- Words before a declaration change its start, and nothing at its end. -/
theorem completes_typedDeclaration (hg : g.Sound src) (decorators : List Node) :
    (g.typedDeclaration decorators).Completes src := by
  intro ctx c hc
  simp [typedDeclaration]
  refine hc.then (lays_skippedWords fun ctx c => by simp) fun words c₁ hc₁ => ?_
  refine (completes_plainDeclaration hg _ decorators _ c₁ hc₁).imp fun n c₂ h => ⟨h.1, ?_⟩
  cases n
  case form => trivial
  all_goals exact h.2

/-! ### Exports

Of the exports only the default one is asked where it starts, and it starts at its own word or at
the decorators before it. -/

/-- An export of a whole module ends like a statement, behind the attributes if there are any. -/
theorem completes_exportAll (start : Nat) (typesOnly : Bool) :
    (exportAll start typesOnly).Completes src := by
  intro ctx c hc
  simp [exportAll, -ensures_eatWord?]
  refine fun _ => hc.next.then (lays_eatWord? _) fun _ c₁ hc₁ => ?_
  refine hc₁.then (lays_exportName.optional _) fun _ c₂ hc₂ _ => ?_
  exact hc₂.next.then lays_moduleSource fun _ c₃ hc₃ => settles_endStatement ctx c₃ hc₃

/-- An export of names may go on with the module that they come from. -/
theorem completes_exportBraces (start : Nat) (typesOnly : Bool) :
    (exportBraces start typesOnly).Completes src := by
  intro ctx c hc
  have hspecifiers : (listTo .rcurly exportSpecifier).Lays src
      (List.flatMap fun s => s.own :: s.renamed) :=
    lays_exportSpecifier.element.listTo _ rfl fun _ _ => rfl
  simp [exportBraces]
  refine fun _ => hc.next.then hspecifiers fun _ c₁ hc₁ => ⟨fun _ => ?_, fun _ _ => ?_⟩
  · exact hc₁.next.then lays_moduleSource fun _ c₂ hc₂ => settles_endStatement ctx c₂ hc₂
  · exact settles_endStatement ctx c₁ hc₁

/-- A default export stands clear if it starts where it may. -/
theorem ensures_clear_exportDefault (hg : g.Sound src) {ctx : Context} {c : Cursor} (hc : c.On src)
    {start : Nat} {P : Prop} (hstart : P → IsClear src start) :
    (g.exportDefault start).Ensures ctx c fun n c' => c'.Fresh src ∧ (P → n.StandsClear src) := by
  simp [exportDefault]
  refine hc.then (lays_decorators hg) fun decorators c₁ hc₁ => ?_
  refine stays_atFunction.ensures fun isFunction => ⟨?_, ?_⟩ <;> intros
  · exact (completes_classRule hg true decorators ctx c₁ hc₁).imp fun _ _ h => ⟨h.1, hstart⟩
  refine ⟨?_, ?_⟩ <;> intros
  · exact (completes_classRule hg true decorators ctx _ hc₁.next).imp fun _ _ h => ⟨h.1, hstart⟩
  refine ⟨?_, ?_⟩ <;> intros
  · exact (completes_interface hg _ ctx c₁ hc₁).imp fun _ _ h => ⟨h.1, hstart⟩
  refine ⟨?_, ?_⟩ <;> intros
  · exact (completes_functionDeclaration hg true false ctx c₁ hc₁).imp fun _ _ h => ⟨h.1, hstart⟩
  refine hc₁.then hg.assignment fun _ c₂ hc₂ => ?_
  exact (settles_endStatement ctx c₂ hc₂).imp fun _ _ h => ⟨h, hstart⟩

/-- An export that is not the default one stands clear anyway. -/
theorem ensures_clear_exportDeclaration (hg : g.Sound src) {ctx : Context} {c : Cursor}
    (hc : c.On src) (decorators : List Node) (hword : c.token.isWord "export" = true) :
    (g.exportDeclaration decorators).Ensures ctx c
      fun n c' => c'.Fresh src ∧ (c.Fresh src → n.StandsClear src) := by
  have hclear : ∀ (n : Node) (c' : Cursor), c'.Fresh src ∧ n.StandsClear src →
      c'.Fresh src ∧ (c.Fresh src → n.StandsClear src) := fun _ _ h => ⟨h.1, fun _ => h.2⟩
  simp [exportDeclaration]
  refine ⟨?_, ?_⟩ <;> intros
  · exact ensures_clear_exportDefault hg hc.next.next fun hfresh =>
      hc.isClear_of_isWord hfresh hword
  refine ⟨?_, ?_⟩ <;> intros
  · exact (completes_exportAll _ false ctx _ hc.next).imp hclear
  refine ⟨?_, ?_⟩ <;> intros
  · exact (completes_exportBraces _ false ctx _ hc.next).imp hclear
  refine ⟨?_, ?_⟩ <;> intros
  · exact (completes_exportBraces _ true ctx _ hc.next.next).imp hclear
  refine ⟨?_, ?_⟩ <;> intros
  · exact (completes_exportAll _ true ctx _ hc.next.next).imp hclear
  refine ⟨?_, ?_⟩ <;> intros
  · exact hc.next.next.then hg.expression fun _ c₁ hc₁ => settles_endStatement ctx c₁ hc₁
  refine ⟨?_, ?_⟩ <;> intros
  · exact hc.next.next.next.then lays_plainName fun _ c₁ hc₁ => settles_endStatement ctx c₁ hc₁
  refine hc.next.then (lays_decorators hg) fun own c₁ hc₁ => ⟨fun _ => ?_, fun _ => ?_⟩
  · exact (completes_typedDeclaration hg _).settles ctx c₁ hc₁
  · exact (completes_plainDeclaration hg _ _).settles ctx c₁ hc₁

/-! ### Imports

Names can be taken out of an import one by one, so that each has to start and end outside of closing
tags. That is carried from one token to the next: a word has no `<` in it, and behind punctuation
and strings no tag is open (`Cursor.Clear`). -/

section

variable {ctx : Context} {c : Cursor}

/-- A word starts and ends clear where the text before it does. -/
theorem clear_identifier (h : c.Clear src) :
    identifier.Ensures ctx c fun _ c' => c' = c.next ∧ IsClear src c.token.start ∧ c'.Clear src :=
  ensures_identifier fun _ _ hkind => ⟨rfl, h.of_word hkind⟩

/-- The same of a name that may be a string. -/
theorem clear_exportName (h : c.Clear src) :
    exportName.Ensures ctx c fun _ c' => c' = c.next ∧ IsClear src c.token.start ∧
      c'.Clear src := by
  simp [exportName, string, plainName]
  refine ⟨fun _ => ?_, fun _ => ensures_anyName fun _ _ hkind => ⟨rfl, h.of_word hkind⟩⟩
  split
  · next hkind =>
    simp
    exact ⟨h.isClear_start (by rw [hkind]; exact fun _ h => h), h.on.clear_next_of_string hkind⟩
  · exact ensures_reject

/-- The word `type` is passed, or it is the name itself and stays. -/
theorem clear_eatTypeWord (h : c.Clear src) : eatTypeWord.Ensures ctx c fun _ c' =>
    c' = c ∨ (IsClear src c.token.start ∧ c'.Clear src) := by
  simp [eatTypeWord]
  intro _ hword
  exact fun _ => .inr (h.of_isWord hword)

/-- The name behind a first word or string starts there, or with the word `type` before. -/
theorem clear_importSpecifier (ctx : Context) (c : Cursor) (h : c.Clear src) :
    importSpecifier.Ensures ctx c fun s c' => c'.Clear src ∧
      (IsClear src s.1.span.start ∧ IsClear src s.1.span.stop) := by
  simp [importSpecifier]
  refine (clear_eatTypeWord h).imp fun _ c₁ hword => ?_
  have hclear : c₁.Clear src := by
    rcases hword with rfl | hword
    · exact h
    · exact hword.2
  have hstart : IsClear src c₁.token.start → IsClear src c.token.start := by
    rcases hword with rfl | hword
    · exact id
    · exact fun _ => hword.1
  refine ⟨fun has => ?_, fun _ => ?_⟩
  · refine (clear_exportName hclear).imp ?_
    rintro _ c₂ ⟨rfl, hfirst, hnext⟩
    refine (clear_identifier (hnext.of_isWord has).2).imp fun _ c₃ hname => ?_
    obtain ⟨-, -, hlast⟩ := hname
    exact ⟨hlast, hstart hfirst, hlast.last⟩
  · refine (clear_identifier hclear).imp fun _ c₂ hname => ?_
    obtain ⟨-, hfirst, hlast⟩ := hname
    exact ⟨hlast, hstart hfirst, hlast.last⟩

/-- All imported names of what has been read start and end clear. -/
def SpecifiersClear (src : List Char) (found : List ImportSpecifier × List Node) : Prop :=
  ∀ s ∈ found.1, IsClear src s.span.start ∧ IsClear src s.span.stop

/-- The names but for that of the default export: one for the whole module, or several in braces. -/
theorem clear_otherSpecifiers (h : c.Clear src) :
    otherSpecifiers.Ensures ctx c fun found _ => SpecifiersClear src found := by
  simp [otherSpecifiers, namespaceSpecifier, bracedSpecifiers, SpecifiersClear]
  refine ⟨fun hstar has => ?_, fun _ hopen => ?_⟩
  · have hstart := h.isClear_start (by rw [beq_iff_eq.mp hstar]; exact fun _ h => h.1)
    have hbehind := (h.on.clear_next_of_isPunct hstar rfl).of_isWord has
    exact (clear_identifier hbehind.2).imp fun _ _ hname => ⟨hstart, hname.2.2.last⟩
  · refine (ensures_listTo (clear_importSpecifier ctx) (fun _ h hcomma => ?_) .rcurly
      (h.on.clear_next_of_isPunct hopen rfl)).imp fun named _ hnamed => ?_
    · exact h.on.clear_next_of_isPunct hcomma rfl
    · simpa using fun s parts hs => hnamed (s, parts) hs

/-- The name of the default export comes first, if there is one. -/
theorem clear_importClause (h : c.Clear src) :
    importClause.Ensures ctx c fun found _ => SpecifiersClear src found := by
  simp [importClause, importSpecifiers]
  refine ⟨fun _ => by simp [SpecifiersClear], fun _ => ⟨fun _ => ?_, fun _ => ?_⟩⟩
  · refine (clear_identifier h).imp fun _ c₁ hname => ?_
    obtain ⟨-, hstart, hlast⟩ := hname
    refine ⟨fun hcomma => ?_, fun _ _ => ?_⟩
    · have hbehind := hlast.on.clear_next_of_isPunct hcomma rfl
      refine (clear_otherSpecifiers hbehind).imp fun found _ hfound _ => ?_
      simpa [SpecifiersClear] using ⟨⟨hstart, hlast.last⟩, hfound⟩
    · simpa [SpecifiersClear] using ⟨hstart, hlast.last⟩
  · exact (clear_otherSpecifiers h).imp fun _ _ hfound _ => hfound

/-- The word `type` before all names. -/
theorem clear_skipImportWord (h : c.Clear src) :
    skipImportWord.Ensures ctx c fun _ c' => c'.Clear src := by
  have hnext : ∀ {w : String}, c.token.isWord w = true → c.next.Clear src :=
    fun hword => (h.of_isWord hword).2
  simp [skipImportWord]
  refine ⟨fun _ hword => by simp [hnext hword, h], fun _ =>
    ⟨fun hword _ _ => hnext hword, fun _ => ?_⟩⟩
  exact ⟨fun hword _ => hnext hword, fun _ => h⟩

/-- The last token is the module, the bracket behind the attributes, or a semicolon. -/
theorem settles_importDeclaration : importDeclaration.Settles src := by
  intro ctx c hc
  simp [importDeclaration]
  refine ⟨?_, ?_⟩ <;> intros
  · exact (completes_importEquals _).settles ctx _ hc.next
  refine hc.next.then lays_skipImportWord fun _ c₁ hc₁ => ?_
  refine hc₁.then lays_importClause fun _ c₂ hc₂ => ?_
  exact hc₂.then lays_moduleSource fun _ c₃ hc₃ => settles_endStatement ctx c₃ hc₃

/-- The word `import` starts clear because the statement before it leaves a fresh cursor, and
everything up to the names follows from there. -/
theorem standsClear_importDeclaration (hc : c.On src) (hfresh : c.Fresh src)
    (hword : c.token.isWord "import" = true) :
    importDeclaration.Ensures ctx c fun n _ => n.StandsClear src := by
  have hstart := hc.isClear_of_isWord hfresh hword
  simp [importDeclaration]
  refine ⟨?_, ?_⟩ <;> intros
  · exact (completes_importEquals _ ctx _ hc.next).imp fun _ _ h => h.2
  refine (clear_skipImportWord (hc.clear_next_of_isWord hword hstart)).imp fun _ c₁ h => ?_
  exact (clear_importClause h).imp fun _ _ hclause _ _ _ _ _ _ => ⟨hstart, hclause⟩

end

/-! ### All statements

Statements at one level of nesting refer to those at the level below, so that the induction is on
the levels (`Grammar.upTo`). -/

/-- A statement leaves a fresh cursor wherever it starts. It stands clear if it starts at a fresh
one. -/
theorem ensures_clear_statementRule (hg : g.Settled src) (single : Bool) {ctx : Context}
    {c : Cursor}
    (hc : c.On src) : (g.statementRule single).Ensures ctx c
      fun n c' => c'.Fresh src ∧ (c.Fresh src → n.StandsClear src) := by
  have hs := hg.sound
  simp [statementRule]
  have hdecorators : g.decorators.Ensures ctx c fun _ c' => c.Fresh src → c'.Fresh src :=
    fun _ _ hrun hfresh => fresh_decorators hg hc hfresh _ _ hrun
  refine ((lays_decorators hs ctx c hc).and hdecorators).imp fun decorators c₁ h => ?_
  obtain ⟨h, hkeeps⟩ := h
  have hc₁ := h.on
  -- all but imports and exports stand clear wherever they are
  have hclear : ∀ {p : Parse Node}, p.Completes src → p.Ensures ctx c₁
      fun n c' => c'.Fresh src ∧ (c.Fresh src → n.StandsClear src) :=
    fun hp => (hp ctx c₁ hc₁).imp fun _ _ h => ⟨h.1, fun _ => h.2⟩
  refine ⟨?_, ?_⟩ <;> intros
  · exact hclear (completes_block hs)
  refine ⟨fun hsemicolon => ?_, ?_⟩ <;> intros
  · exact hc₁.fresh_next_of_isPunct hsemicolon rfl
  refine ⟨?_, ?_⟩ <;> intros
  · exact hclear (completes_ifStatement hg)
  refine ⟨?_, ?_⟩ <;> intros
  · exact hclear (completes_forStatement hg)
  refine ⟨?_, ?_⟩ <;> intros
  · exact hclear (completes_whileStatement hg)
  refine ⟨?_, ?_⟩ <;> intros
  · exact hclear (completes_doStatement hs)
  refine ⟨?_, ?_⟩ <;> intros
  · exact hclear completes_jumpStatement
  refine ⟨?_, ?_⟩ <;> intros
  · exact hclear (completes_whileStatement hg)
  refine ⟨?_, ?_⟩ <;> intros
  · exact hclear (completes_switchStatement hs)
  refine ⟨?_, ?_⟩ <;> intros
  · exact hclear (completes_throwStatement hs)
  refine ⟨?_, ?_⟩ <;> intros
  · exact hclear (completes_tryStatement hs)
  refine ⟨?_, ?_⟩ <;> intros
  · exact settles_endStatement ctx _ hc₁.next
  refine ⟨?_, ?_⟩ <;> intros
  · exact hclear (completes_classRule hs false decorators)
  refine ⟨fun hexport => ?_, ?_⟩ <;> intros
  · exact (ensures_clear_exportDeclaration hs hc₁ decorators hexport).imp
      fun _ _ h => ⟨h.1, fun hfresh => h.2 (hkeeps hfresh)⟩
  refine ⟨?_, ?_⟩ <;> intros
  · exact hclear (completes_returnStatement hs)
  refine ⟨?_, ?_⟩ <;> intros
  · exact hclear (completes_variableStatement hs single)
  refine stays_atUsing.ensures fun isUsing => ⟨?_, ?_⟩ <;> intros
  · exact hclear (completes_variableStatement hs single)
  refine stays_atFunction.ensures fun isFunction => ⟨?_, ?_⟩ <;> intros
  · exact hclear (completes_functionDeclaration hs false single)
  refine ⟨?_, ?_⟩ <;> intros
  · exact hclear (completes_letStatement hg single)
  refine ⟨fun himport => ?_, ?_⟩ <;> intros
  · refine (settles_importDeclaration ctx c₁ hc₁).and fun n c' hrun hfresh => ?_
    exact standsClear_importDeclaration hc₁ (hkeeps hfresh) himport n c' hrun
  refine stays_atTypedDeclaration.ensures fun isTyped => ⟨?_, ?_⟩ <;> intros
  · exact hclear (completes_typedDeclaration hs decorators)
  · exact hclear (completes_expressionOrLabelled hg)

theorem settled_exhausted : exhausted.Settled src :=
  ⟨sound_exhausted, settles_reject, fun _ => settles_reject⟩

/-- The rules at one level settle if those they refer to do. -/
theorem Settled.unfold (hg : g.Settled src) : g.unfold.Settled src where
  sound := hg.sound.unfold
  access := settles_accessRule hg.sound
  statement single _ _ hc := (ensures_clear_statementRule hg single hc).imp fun _ _ h => h.1

/-- Rules at all levels settle. -/
theorem settled_upTo (n : Nat) : (upTo n).Settled src := by
  induction n with
  | zero => exact settled_exhausted
  | succ n ih => exact ih.unfold

end Grammar

namespace Program

/-- A script may start behind the line that names a program to run it. No name stands where that
ends. -/
theorem isSettled_skipRunLine (cs : List Char) : IsSettled cs (skipRunLine cs).1 := by
  obtain ⟨before, htext, hsize⟩ := exists_before_skipRunLine cs
  refine ⟨before, (skipRunLine cs).2, htext, hsize, ?_⟩
  clear htext
  unfold skipRunLine at hsize ⊢
  split at hsize
  · next rest =>
    right
    intro c hc
    have hend := List.head?_dropWhile_not (fun c => !isLineEnd c) rest
    rw [hc] at hend
    exact isIdentifierStart_of_isLineEnd (by simpa using hend)
  · left
    rw [eq_nil_of_byteSize_eq_zero hsize]
    exact (sealed_of_lt_notMem List.not_mem_nil).ends

/-- The imports and the default exports of a script stand clear. -/
theorem standsClear_of_parse? {dialect : Dialect} {source : String} {program : Program}
    (h : parse? dialect source = some program) {n : Node} (hn : n ∈ program.statements) :
    n.StandsClear source.toList := by
  obtain ⟨c', hrun⟩ := rule_of_parse? h
  have hitem : ∀ (m : Nat) (ctx : Context) c, c.On source.toList ∧ c.Fresh source.toList →
      ((Grammar.upTo (m + 1)).statement false).Ensures ctx c fun n c' =>
        (c'.On source.toList ∧ c'.Fresh source.toList) ∧ n.StandsClear source.toList := by
    rintro m ctx c ⟨hc, hfresh⟩
    refine (((Grammar.sound_upTo (m + 1)).statement false ctx c hc).and
      (Grammar.ensures_clear_statementRule (Grammar.settled_upTo m) false hc)).imp fun n c' hn => ?_
    exact ⟨⟨hn.1.on, hn.2.1⟩, hn.2.2 hfresh⟩
  have hstart := on_firstCursor source
  have hrule : ∀ (m : Nat) (ctx : Context) c, c.On source.toList ∧ c.Fresh source.toList →
      (rule (Grammar.upTo (m + 1))).Ensures ctx c fun program _ =>
        ∀ n ∈ program.statements, n.StandsClear source.toList := by
    intro m ctx c hc
    simp [rule, Grammar.directivesAndStatements]
    refine (ensures_until? (hitem m ctx) (fun ctx c => by simp) hc).imp fun statements _ hall n
      hn => ?_
    exact hall.2 n ((List.dropWhile_suffix _).subset hn)
  exact hrule _ _ _ ⟨hstart, hstart.fresh_of_isSettled (isSettled_skipRunLine _)⟩ _ _ hrun n hn

end Program

end VueSetup.Script
