import VueSetup.Proofs.Script.Grammar.Class
import VueSetup.Script.Grammar.Expression

/-!
# VueSetup.Proofs.Script.Grammar.Expression

Expressions are laid in the text.

The rules for expressions follow the precedence of the operators from the operands up. What was read
first is often made into a node only when more of it is known, as with a call or an operator: the
rule then goes on behind the stretch from its first token on (`Reach`), and puts a node around it
(`Pass.node`). The parts of that node are what the stretch holds, in the order of the text.
-/

namespace VueSetup.Script.Grammar

open Parse

variable {src : List Char} {g : Grammar}

/-! ### Objects and arrays

A list of elements or members in brackets. A place of an array may be empty, and a member of an
object may be only a name, which is key and value in one. -/

/-- What is spread out is read without commas. -/
theorem lays_spread (hg : g.Sound src) : g.spread.Lays src ([·]) := by
  intro ctx c hc
  simp [spread]
  exact fun _ => hc.pass.then hg.assignment fun operand c₁ h =>
    (h.node rfl rfl (by simp [Node.parts])).toReach

/-- An empty place is laid with its comma. -/
theorem laysElement_arrayElement (hg : g.Sound src) : g.arrayElement.LaysElement src ([·]) := by
  intro ctx c hc
  simp [arrayElement]
  refine ⟨laysElement_hole hc, fun _ => ⟨fun _ => ?_, fun _ => ?_⟩⟩
  · exact (lays_spread hg).element ctx c hc
  · exact hg.assignment.element _ c hc

theorem lays_array (hg : g.Sound src) : g.array.Lays src ([·]) := by
  intro ctx c hc
  simp [array]
  exact fun _ => hc.pass.then ((laysElement_arrayElement hg).nodesTo .rbrack) fun elements c₁ h =>
    (h.node rfl rfl (by simp [Node.parts])).toReach

/-- The key lies over the value, or the member is a target with a value to fall back on. -/
theorem lays_shorthand (hg : g.Sound src) : g.shorthand.Lays src ([·]) := by
  intro ctx c hc
  simp [shorthand]
  refine ensures_identifier fun name _ hkind => ?_
  have hname := pass_reference hc hkind
  refine ⟨fun _ => ?_, fun _ => (pass_shorthand hc name hname.toReach (Nat.le_refl _)).toReach⟩
  exact hname.toReach.next.then hg.assignment fun value c₁ h =>
    (h.form .coverDefault (by simp)).toReach

/-- A method is a function behind the key, any other value stands behind a colon. -/
theorem lays_objectMember (hg : g.Sound src) : g.objectMember.Lays src ([·]) := by
  intro ctx c hc
  simp [objectMember]
  refine ⟨fun _ => lays_spread hg ctx c hc, fun _ => ⟨fun _ _ => lays_shorthand hg ctx c hc,
    fun _ => ?_⟩⟩
  refine hc.reach.then lays_methodHead fun flavour c₁ h => ?_
  refine h.then (lays_propertyKey hg) fun key c₂ h => ⟨fun _ => ?_, ?_⟩
  · exact h.then (lays_method hg flavour) fun value c₃ h =>
      ((h.pass (by simp)).node rfl rfl (by simp [Node.parts])).toReach
  · intros
    exact h.next.then hg.assignment fun value c₃ h =>
      (h.node rfl rfl (by simp [Node.parts])).toReach

theorem lays_object (hg : g.Sound src) : g.object.Lays src ([·]) := by
  intro ctx c hc
  simp [object]
  exact fun _ => hc.pass.then ((lays_objectMember hg).nodesTo .rcurly) fun members c₁ h =>
    (h.node rfl rfl (by simp [Node.parts])).toReach

/-! ### Single operands

What an operand starts with is one token, and for the most part that token is the operand. A slash
is read again as a regular expression, which moves the scanner by hand (`Reach.moveTo`). -/

/-- A slash takes one byte, and what is scanned behind it lies in the text. -/
theorem ensures_regex {ctx : Context} {c : Cursor} (hc : c.On src) {p : Punct}
    (hp : c.token.isPunct p = true) : regex.Ensures ctx c fun n c' => Reach src c c' [n] := by
  simp [regex]
  split
  · next body hbody =>
    have hrest := hc.exists_before_tail (starts_of_isPunct hc hp) (takes_scanRegex? hbody)
    have hmoved := hc.reach.moveTo (by omega) hrest
    simp
    exact (hmoved.node rfl rfl (by simp [Node.parts])).toReach
  · simp

/-- What is embedded is read as an expression with commas. -/
theorem lays_template (hg : g.Sound src) (tagged : Bool) : (g.template tagged).Lays src ([·]) := by
  intro ctx c hc
  simp [template]
  exact (ensures_pass_templateRule hg.expression.bracketed _ ctx hc).imp fun embedded c₁ h =>
    (h.1.template h.2).toReach

/-- Parentheses are a node of their own. -/
theorem lays_parenthesized (hg : g.Sound src) : g.parenthesized.Lays src ([·]) := by
  intro ctx c hc
  simp [parenthesized]
  exact fun _ => hc.pass.then hg.expression fun inner c₁ h _ =>
    (h.toReach.next.node rfl rfl (by simp [Node.parts])).toReach

theorem lays_argument (hg : g.Sound src) : g.argument.Lays src ([·]) := by
  intro ctx c hc
  simp [argument]
  exact ⟨fun _ => lays_spread hg ctx c hc, fun _ => hg.assignment _ c hc⟩

theorem lays_callArguments (hg : g.Sound src) : g.callArguments.Lays src id := by
  intro ctx c hc
  simp [callArguments]
  exact fun _ => hc.pass.then ((lays_argument hg).nodesTo .rparen) fun arguments c₁ h => h.toReach

/-- That there are one or two arguments is asked behind the bracket. -/
theorem lays_importArguments (hg : g.Sound src) : g.importArguments.Lays src id := by
  intro ctx c hc
  simp [importArguments]
  exact fun _ => hc.pass.then (hg.assignment.bracketed.nodesTo .rparen) fun arguments c₁ h _ =>
    h.toReach

/-- The word `import` is passed in any case, so what follows is behind it. -/
theorem lays_importExpression (hg : g.Sound src) : g.importExpression.Lays src ([·]) := by
  intro ctx c hc
  simp [importExpression, -ensures_eat?]
  refine hc.pass.then (lays_eat? _) fun dotted c₁ h => ?_
  refine h.then (lays_plainName.optional _) fun word c₂ h => ⟨fun _ => ?_, fun _ _ => ?_⟩
  · exact h.then (lays_importArguments hg) fun arguments c₃ h => (h.form .other (by simp)).toReach
  · exact (h.form .other (by simp)).toReach

/-- It covers its word, and what must follow it is only looked at. -/
theorem lays_superExpression : superExpression.Lays src ([·]) := by
  intro ctx c hc
  simp [superExpression]
  exact fun _ => (hc.pass.form .other (by simp)).toReach

/-- By the kind of the first token, as the rule goes. Every case passes at least this token. -/
theorem lays_primary (hg : g.Sound src) : g.primary.Lays src ([·]) := by
  intro ctx c hc
  have hleaf : ∀ {n : Node}, n.parts = [] → n.span = ⟨c.token.start, c.token.stop⟩ →
      n.isPlain = true → Reach src c c.next [n] := fun hparts hspan hplain =>
    (pass_leaf hc hparts hspan hplain).toReach
  simp [primary]
  -- One case for each token that an operand can start with.
  refine stays_atFunction.ensures fun isFunction =>
    ⟨fun _ => lays_functionExpression hg ctx c hc, fun _ => ?_⟩
  split
  · simp
    exact hleaf rfl rfl rfl
  · simp
    exact hleaf rfl rfl rfl
  · next hkind =>
    simp
    exact (pass_string hc hkind).toReach
  · exact lays_template hg false ctx c hc
  · exact lays_array hg ctx c hc
  · exact lays_object hg ctx c hc
  · exact lays_parenthesized hg ctx c hc
  · next hkind => exact ensures_regex hc (beq_iff_eq.mpr hkind)
  · next hkind => exact ensures_regex hc (beq_iff_eq.mpr hkind)
  · simp
    exact hc.reach.then (lays_decorators hg) fun decorators c₁ h =>
      (ensures_classRule hg true h).imp fun _ _ h => h.1
  · split
    · simp
      exact hleaf rfl rfl rfl
    · simp
      exact hleaf rfl rfl rfl
    · simp
      exact hleaf rfl rfl rfl
    · simp
      exact hleaf rfl rfl rfl
    · exact (ensures_classRule hg true hc.reach).imp fun _ _ h => h.1
    · exact lays_superExpression ctx c hc
    · exact lays_importExpression hg ctx c hc
    · exact lays_reference ctx c hc
  · exact lays_reference ctx c hc

/-! ### Members and calls

A link behind an operand puts a node around the operand. The lemmas go on behind the stretch of the
operand, from its first token `c` to the cursor `c₁` behind it. -/

/-- Type arguments of an expression are read on trial, since `<` may be an operator. -/
theorem lays_expressionTypeArguments (hg : g.Sound src) :
    g.expressionTypeArguments.Lays src id := by
  intro ctx c hc
  simp [expressionTypeArguments]
  refine hc.reach.then lays_splitAngles fun _ c₁ h _ => ⟨fun _ _ _ _ => ?_, fun _ => ?_⟩
  · exact h.next.toReach.next.toReach
  · exact h.next.then (hg.type.nodesSeparated _).lays fun types c₂ h _ _ _ => h.toReach.next.toReach

/-- The name of a member is no node, unless it is private. -/
theorem ensures_namedMember {ctx : Context} {c c₁ : Cursor} {base : Node}
    (h : Reach src c c₁ [base]) : (namedMember c.token.start base).Ensures ctx c₁
      fun n c' => Reach src c c' [n] := by
  simp [namedMember]
  split
  · simp
    exact h.then lays_privateName fun name c₂ h =>
      ((h.pass (by simp)).form .index (by simp)).toReach
  · simp only [ensures_bind, anyName, ensures_token]
    split
    · next name escaped hkind =>
      simp
      -- the name takes some room
      have hsized := h.on.sized
      rw [hkind] at hsized
      have hproper : c.token.start < c₁.token.stop := by
        have hpos : 0 < c₁.token.stop - c₁.token.start := hsized
        have hstart := h.start_le
        omega
      have hmember : Pass src c c₁.next [.member ⟨c.token.start, c₁.token.stop⟩ base name] :=
        h.next.enclose rfl hproper (fun _ _ => .inl rfl) (Node.comprises_parts _) (by simp)
          (by simp)
      exact hmember.toReach
    · exact ensures_reject

/-- The key stands in brackets behind the operand. -/
theorem ensures_computedMember (hg : g.Sound src) {ctx : Context} {c c₁ : Cursor} {base : Node}
    (h : Reach src c c₁ [base]) : (g.computedMember c.token.start base).Ensures ctx c₁
      fun n c' => Reach src c c' [n] := by
  simp [computedMember]
  exact fun _ => h.next.then hg.expression fun key c₂ h _ =>
    (h.toReach.next.form .index (by simp)).toReach

/-- The callee, the type arguments and the arguments come in this order. -/
theorem ensures_callRest (hg : g.Sound src) {ctx : Context} {c c₁ : Cursor} {callee : Node}
    {types : List Node} (h : Reach src c c₁ (callee :: types)) :
    (g.callRest c.token.start callee types).Ensures ctx c₁ fun n c' => Reach src c c' [n] := by
  simp [callRest]
  exact h.then (lays_callArguments hg) fun arguments c₂ h =>
    ((h.pass (by simp)).node rfl rfl (by simp [Node.parts])).toReach

/-- A link behind `?.`, whichever of the kinds. -/
theorem ensures_optionalLink (hg : g.Sound src) {ctx : Context} {c c₁ : Cursor} {base : Node}
    (h : Reach src c c₁ [base]) : (g.optionalLink c.token.start base).Ensures ctx c₁
      fun n c' => Reach src c c' [n] := by
  simp [optionalLink]
  refine ⟨fun _ => ensures_callRest hg h, fun _ => ?_⟩
  refine ⟨fun _ => ensures_computedMember hg h, fun _ => ?_⟩
  refine ⟨fun _ _ => ?_, fun _ => ensures_namedMember h⟩
  refine h.then lays_splitAngles fun _ c₂ h => ?_
  exact h.then (lays_typeArguments hg) fun types c₃ h => ensures_callRest hg (by simpa using h)

/-- By induction on the number of links. The last step stops and gives back what was read so far. -/
theorem ensures_links (hg : g.Sound src) (calls : Bool) {ctx : Context} {c : Cursor} (n : Nat)
    (chained : Bool) {c₁ : Cursor} {base : Node} (h : Reach src c c₁ [base]) :
    (g.links c.token.start calls n chained base).Ensures ctx c₁
      fun found c' => Reach src c c' [found.1] := by
  induction n generalizing c₁ base chained with
  | zero => exact ensures_reject
  | succ n ih =>
    simp [links]
    refine ⟨fun _ => ?_, fun _ => ?_⟩
    · exact (ensures_namedMember h.next.toReach).imp fun n c₂ h => ih chained h
    refine ⟨fun _ _ => ?_, fun _ => ?_⟩
    · exact (ensures_optionalLink hg h.next.toReach).imp fun n c₂ h => ih true h
    refine ⟨fun _ _ => ?_, fun _ => ?_⟩
    · exact (ensures_computedMember hg h).imp fun n c₂ h => ih chained h
    refine ⟨fun _ _ _ => ih chained (h.next.form .nonNull rfl).toReach, fun _ => ?_⟩
    refine ⟨fun _ _ => ?_, fun _ => ?_⟩
    · exact h.then (lays_template hg true) fun text c₂ h =>
        ih chained ((h.pass (by simp)).form .other rfl).toReach
    refine ⟨fun _ _ => ?_, fun _ => ?_⟩
    · exact (ensures_callRest hg h).imp fun n c₂ h => ih chained h
    refine ⟨fun _ _ => ensures_attempt ?_ ?_, fun _ => h⟩
    · simp
      refine h.then (lays_expressionTypeArguments hg) fun types c₂ h => ⟨fun _ _ => ?_, fun _ => ?_⟩
      · exact (ensures_callRest hg h).imp fun n c₃ h => ih chained h
      · exact ih chained ((h.pass (by simp)).form .other rfl).toReach
    · simp
      exact h

/-- The callee of `new` starts at a cursor of its own. -/
theorem ensures_newRest (hg : g.Sound src) {ctx : Context} {c d c₁ : Cursor} {base : Node}
    (hd : Reach src c d []) (h : Reach src d c₁ [base]) :
    (g.newRest c.token.start d.token.start base).Ensures ctx c₁ fun n c' => Reach src c c' [n] := by
  simp [newRest]
  refine (ensures_links hg false c₁.bound false h).imp fun callee c₂ h => ?_
  have h' : Reach src c c₂ [callee.1] := hd.append h
  refine ⟨fun _ => ?_, fun _ => ((h'.pass (by simp)).form .other (by simp)).toReach⟩
  exact h'.then (lays_callArguments hg) fun arguments c₃ h =>
    ((h.pass (by simp)).form .other (by simp)).toReach

/-- By induction on how often `new` is written, with the operand at the inside. -/
theorem lays_newExpression (hg : g.Sound src) (n : Nat) : (g.newExpression n).Lays src ([·]) := by
  induction n with
  | zero => exact lays_reject
  | succ n ih =>
    intro ctx c hc
    simp [newExpression]
    refine fun _ => ⟨fun _ => ?_, fun _ => ⟨fun _ => ?_, fun _ _ => ?_⟩⟩
    · exact hc.pass.toReach.next.then lays_plainName fun word c₁ h =>
        (h.form .other (by simp)).toReach
    · exact (ih ctx c.next hc.next).imp fun base c₁ h => ensures_newRest hg hc.pass.toReach h
    · exact (lays_primary hg ctx c.next hc.next).imp fun base c₁ h =>
        ensures_newRest hg hc.pass.toReach h

/-- All links belong to one operand. -/
theorem lays_accessRule (hg : g.Sound src) : g.accessRule.Lays src ([·]) := by
  intro ctx c hc
  simp [accessRule]
  refine ⟨fun _ => (lays_newExpression hg _ ctx c hc).imp fun base c₁ h => ?_,
    fun _ => (lays_primary hg ctx c hc).imp fun base c₁ h => ?_⟩
  all_goals
    refine (ensures_links hg true c₁.bound false h).imp fun found c₂ h => ?_
    exact ⟨fun _ => ((h.pass (by simp)).form .other (by simp)).toReach, fun _ => h⟩

/-! ### Operators before and behind an operand

A target that is changed keeps the place of the operand that it was read as
(`Node.replaces_targets`). -/

/-- What an update changes is read as an operand and turned into a target in its place. -/
theorem ensures_simpleTarget {ctx : Context} {c c₁ : Cursor} {node : Node}
    (h : Pass src c c₁ [node]) :
    (simpleTarget node).Ensures ctx c₁ fun target c' => Pass src c c' [target] := by
  simp only [simpleTarget]
  split
  · next target htarget =>
    simp only [ensures_pure]
    exact { h with fit := fun lo hi hlo hhi hle =>
      Node.replaces_toSimpleTarget? htarget lo hi (h.fit lo hi hlo hhi hle) }
  · exact ensures_reject

/-- The operator before an operand is the first token of the node, and one behind it the last. -/
theorem lays_operandRule (hg : g.Sound src) : g.operandRule.Lays src ([·]) := by
  intro ctx c hc
  simp [operandRule]
  refine ⟨?_, ?_⟩ <;> intros
  · refine hc.pass.then hg.operand fun operand c₁ h => ?_
    exact (ensures_simpleTarget h).imp fun target c₂ h => (h.form .other (by simp)).toReach
  refine ⟨?_, ?_⟩ <;> intros
  · exact hc.pass.then hg.operand fun operand c₁ h =>
      (h.node rfl rfl (by simp [Node.parts])).toReach
  refine ⟨?_, ?_⟩ <;> intros
  · exact (hg.element ctx c hc).imp fun element c₁ h => h.2.toReach
  refine ⟨?_, ?_⟩ <;> intros
  · refine hc.pass.then hg.type fun type c₁ h _ => ?_
    exact h.next.then hg.operand fun operand c₂ h => (h.form .assertion (by simp)).toReach
  refine ⟨?_, ?_⟩ <;> intros
  · exact hc.pass.then hg.operand fun operand c₁ h => (h.form .await (by simp)).toReach
  refine hc.reach.then hg.access fun operand c₁ h => ⟨?_, fun _ => h⟩
  intros
  exact (ensures_simpleTarget h.next).imp fun target c₂ h => (h.form .other (by simp)).toReach

/-! ### Operators between operands

Right angles may have to be joined to see which operator comes next. Where none does, what was
joined stays so, and the stretch is the same. -/

/-- By induction on the number of operators. Each makes a node of the left side so far and of a
right side that binds tighter. -/
theorem ensures_operationRest (hg : g.Sound src) (least : Nat) {ctx : Context} {c : Cursor}
    (n : Nat)
    {c₁ : Cursor} {left : Node} (h : Reach src c c₁ [left]) :
    (g.operationRest c.token.start least n left).Ensures ctx c₁ fun n c' => Reach src c c' [n] := by
  induction n generalizing c₁ left with
  | zero => exact ensures_reject
  | succ n ih =>
    simp [operationRest]
    refine h.then lays_joinAngles fun _ c₂ h => ?_
    refine ⟨?_, ?_⟩ <;> intros
    · refine h.next.then hg.type fun type c₃ h => ih ?_
      split
      · exact (h.node rfl rfl (by simp [Node.parts])).toReach
      · exact (h.node rfl rfl (by simp [Node.parts])).toReach
    · split
      · simp
        exact h
      · simp
        refine ⟨fun _ => h, ?_⟩
        intros
        refine h.next.then (hg.operation _) fun right c₃ h => ?_
        constructor <;> intros <;> exact ih (h.form _ rfl).toReach

/-- A private name may stand on the left, to ask whether an object has it. -/
theorem lays_operationRule (hg : g.Sound src) (least : Nat) :
    (g.operationRule least).Lays src ([·]) := by
  intro ctx c hc
  simp [operationRule]
  split
  · simp
    refine fun _ => hc.reach.then lays_privateName fun name c₁ h _ => ?_
    refine h.next.then (hg.operation 8) fun right c₂ h => ?_
    exact ensures_operationRest hg least _ (h.form .other rfl).toReach
  · simp
    exact hc.reach.then hg.operand fun left c₁ h => ensures_operationRest hg least _ h

/-! ### Functions by an arrow

Parentheses can hold parameters or an expression, and only the arrow behind them tells. The parser
looks through the first tokens for a guess, and goes back where it was wrong. -/

/-- The guess moves nothing. -/
theorem stays_guessArrow : guessArrow.Stays := by
  intro ctx c
  simp [guessArrow]
  intros
  exact ensures_ahead fun _ => rfl

/-- The parts of a function by an arrow that are listed together stand before and behind its
parameters. -/
theorem ensures_arrowBody (hg : g.Sound src) {ctx : Context} {c c₁ : Cursor} {head : ArrowHead}
    {before behind : List Node} (hstart : head.start = c.token.start)
    (hparts : head.parts = before ++ behind)
    (h : Reach src c c₁ (before ++ (head.params.items ++ head.params.rest) ++ behind)) :
    (g.arrowBody head).Ensures ctx c₁ fun n c' => Reach src c c' [n] := by
  simp [arrowBody, hstart]
  refine ⟨fun _ => h.then (lays_functionBody hg _) fun body c₂ h => ?_,
    fun _ => h.then (hg.assignment.within _) fun body c₂ h => ?_⟩
  all_goals
    exact (pass_function (h.pass (by simp)) rfl rfl (fun ps => by simp [Node.Comprises])
      (by simp [Node.parts, hparts])).toReach

/-- The head starts at the cursor. The parts that are not parameters stand before and behind them.
-/
theorem ensures_arrowHead (hg : g.Sound src) {ctx : Context} {c : Cursor} (hc : c.On src) :
    g.arrowHead.Ensures ctx c fun head c' => head.start = c.token.start ∧
      ∃ before behind, head.parts = before ++ behind ∧
        Reach src c c' (before ++ (head.params.items ++ head.params.rest) ++ behind) := by
  simp [arrowHead, -ensures_eatWord?]
  refine hc.reach.then (lays_eatWord? _) fun isAsync c₁ h => ?_
  refine h.then (lays_typeParameters hg) fun types c₂ h => ?_
  refine h.then (fun ctx c hc => (laysPast_parameters hg).lays _ c hc) fun params c₃ h hreceiver =>
    ?_
  refine h.then (lays_returnType hg _) fun result c₄ h _ _ => ?_
  exact ⟨types, result, rfl, by simpa [hreceiver] using h.next.toReach⟩

/-- Where no arrow is found the cursor is the one from before, from which an expression is read
then. -/
theorem ensures_parenthesizedArrow? (hg : g.Sound src) {ctx : Context} {c : Cursor}
    (hc : c.On src) :
    g.parenthesizedArrow?.Ensures ctx c fun found c' =>
      (∀ n, found = some n → Reach src c c' [n]) ∧ (found = none → c' = c) := by
  simp [parenthesizedArrow?]
  refine stays_guessArrow.ensures fun guess => ?_
  split
  · simp
  · simp
    refine (ensures_arrowHead hg hc).imp fun head c₁ ⟨hstart, _, _, hparts, h⟩ => ?_
    exact ensures_arrowBody hg hstart hparts h
  · simp
    refine ensures_attempt ?_ (by simp)
    refine (ensures_arrowHead hg hc).imp fun head c₁ ⟨hstart, _, _, hparts, h⟩ => ?_
    simp
    exact ensures_arrowBody hg hstart hparts h

/-- The same with the word `async` before the parameters. -/
theorem ensures_asyncArrow? (hg : g.Sound src) {ctx : Context} {c : Cursor} (hc : c.On src) :
    g.asyncArrow?.Ensures ctx c fun found c' =>
      (∀ n, found = some n → Reach src c c' [n]) ∧ (found = none → c' = c) := by
  simp [asyncArrow?]
  intros
  refine hc.pass.then lays_binding fun param c₁ h _ => ?_
  have hparam : Reach src c c₁.next ([] ++ ([param] ++ []) ++ []) := by
    simpa using h.toReach.next.toReach
  exact ensures_arrowBody hg rfl rfl hparam

/-! ### Whole expressions

The alternatives are tried in the order of the rule. A trial that fails leaves the cursor alone, so
that each alternative starts at the first token. -/

/-- Its value may be missing. -/
theorem lays_yieldExpression (hg : g.Sound src) : g.yieldExpression.Lays src ([·]) := by
  intro ctx c hc
  simp [yieldExpression, -ensures_eat?]
  refine ⟨fun _ => (hc.pass.form .other (by simp)).toReach, fun _ => ?_⟩
  refine hc.pass.then (lays_eat? _) fun delegates c₁ h => ?_
  exact h.then (hg.assignment.optional _) fun value c₂ h => (h.form .other (by simp)).toReach

/-- Without a question mark nothing is put around the condition. -/
theorem ensures_choiceRest (hg : g.Sound src) {ctx : Context} {c c₁ : Cursor} {condition : Node}
    (h : Reach src c c₁ [condition]) : (g.choiceRest c.token.start condition).Ensures ctx c₁
      fun n c' => Reach src c c' [n] := by
  simp [choiceRest]
  refine ⟨fun _ => ?_, fun _ => h⟩
  refine h.next.then hg.assignment fun yes c₂ h _ => ?_
  exact h.next.then hg.assignment fun no c₃ h => (h.form .other (by simp)).toReach

/-- What is assigned to is turned into a target in its place. -/
theorem ensures_assignmentRest (hg : g.Sound src) {ctx : Context} {c c₁ : Cursor} {left : Node}
    (h : Reach src c c₁ [left]) : (g.assignmentRest c.token.start left).Ensures ctx c₁
      fun n c' => Reach src c c' [n] := by
  simp [assignmentRest]
  split
  · simp
  · next target htarget =>
    have hreplaces : target.Replaces src left := by
      split at htarget
      · exact (Node.replaces_targets src).1 left target htarget
      · exact Node.replaces_toSimpleTarget? htarget
    have h' : Reach src c c₁ [target] :=
      { h with fit := fun lo hi hlo hhi hle => hreplaces lo hi (h.fit lo hi hlo hhi hle) }
    simp
    exact h'.next.then hg.assignment fun value c₂ h => (h.form _ (by simp)).toReach

/-- A single name before an arrow is a parameter, which is made of the name that was read. -/
theorem lays_assignmentRule (hg : g.Sound src) : g.assignmentRule.Lays src ([·]) := by
  intro ctx c hc
  simp [assignmentRule]
  refine ⟨fun _ _ => lays_yieldExpression hg ctx c hc, fun _ => ?_⟩
  refine (ensures_parenthesizedArrow? hg hc).imp fun found d ⟨hsome, hnone⟩ => ?_
  split
  · simp
    exact hsome _ rfl
  obtain rfl := hnone rfl
  rw [ensures_bind]
  refine (ensures_asyncArrow? hg hc).imp fun found c ⟨hsome, hnone⟩ => ?_
  split
  · simp
    exact hsome _ rfl
  obtain rfl := hnone rfl
  simp
  refine hc.reach.then (hg.operation 0) fun left c₁ h => ?_
  split
  · next span name =>
    simp
    refine ⟨fun _ _ => ?_, fun _ => ?_⟩
    · have hparam : Reach src c c₁.next ([] ++ ([.binding span name []] ++ []) ++ []) :=
        (h.leaf (m := .binding span name []) rfl rfl (Node.isPlain_binding h.proper span
          [])).next.toReach
      exact ensures_arrowBody hg rfl rfl hparam
    · exact ⟨fun _ => ensures_assignmentRest hg h, fun _ => ensures_choiceRest hg h⟩
  · simp
    exact ⟨fun _ => ensures_assignmentRest hg h, fun _ => ensures_choiceRest hg h⟩

/-- Expressions with commas between them are parts of one node, and a single one stands for itself.
-/
theorem lays_expressionRule (hg : g.Sound src) : g.expressionRule.Lays src ([·]) := by
  intro ctx c hc
  simp [expressionRule]
  refine (hg.assignment.nodesSeparated _ ctx c hc).imp fun several c₁ h => ?_
  split
  · simp
    exact h.toReach
  · simp
    exact (h.form .other (by simp)).toReach

end VueSetup.Script.Grammar
