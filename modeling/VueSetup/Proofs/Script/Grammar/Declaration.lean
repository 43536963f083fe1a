import VueSetup.Proofs.Script.Grammar.Expression
import VueSetup.Script.Grammar.Declaration

/-!
# VueSetup.Proofs.Script.Grammar.Declaration

Declarations are laid in the text, with the words before them.

A declaration with words before it starts at the first of these. Its own rule runs behind them and
is handed the start, so that the lemmas are stated from the cursor `c` at which the declaration
starts to the cursor `c₁` behind the words.
-/

namespace VueSetup.Script.Grammar

open Parse

variable {src : List Char} {g : Grammar}

/-! ### Variables

A declaration starts with its keyword and lists what is declared, with commas between. -/

/-- The mark of a variable that is given a value elsewhere. -/
theorem lays_skipDeclaratorMarks : skipDeclaratorMarks.Lays src fun _ => [] := by
  intro ctx c hc
  simp [skipDeclaratorMarks, -ensures_eat?]
  refine ⟨fun _ => ⟨fun _ => ?_, fun _ => ?_⟩, fun _ => hc.reach⟩
  · exact hc.reach.then (lays_eat? _) fun _ c₁ h => h.then (lays_eat? _) fun _ c₂ h => h
  · exact lays_eat? _ ctx c hc

/-- What is declared is a pattern, with its type and its value. The outcome also tells whether a
value is missing. -/
theorem lays_declarator (hg : g.Sound src) (isConstant : Bool) :
    (g.declarator isConstant).Lays src fun d => [d.1] := by
  intro ctx c hc
  simp [declarator, -ensures_eat?]
  refine hc.reach.then hg.pattern fun pattern c₁ h => ?_
  refine (h.pass (by simp)).then lays_skipDeclaratorMarks fun _ c₂ h => ?_
  refine h.then (lays_annotatedType hg) fun type c₃ h => ?_
  refine h.then (lays_eat? _) fun given c₄ h => ?_
  exact h.then (hg.assignment.optional _) fun value c₅ h => (h.form .declarator (by simp)).toReach

/-- A declaration of variables covers its keyword and what is declared. -/
theorem ensures_variableDeclaration (hg : g.Sound src) {ctx : Context} {c : Cursor}
    (hc : c.On src) : g.variableDeclaration.Ensures ctx c fun d c' =>
      ∃ ps, d.1 = .form (.variableDeclaration (c.token.isWord "var"))
        ⟨c.token.start, c'.lastStop⟩ ps ∧ Pass src c c' ps := by
  simp [variableDeclaration]
  intro _
  have hdeclarators : (separated .comma (g.declarator (c.token.isWord "const"))).LaysPast src
      (List.map Prod.fst) :=
    (lays_declarator hg _).separated _ rfl (fun _ _ => rfl) fun _ => List.cons_ne_nil _ _
  exact hc.pass.then hdeclarators.lays fun ds c₁ h => h

/-- The declared variables are parts of one node. -/
theorem lays_variableDeclaration (hg : g.Sound src) :
    g.variableDeclaration.Lays src fun d => [d.1] := by
  intro ctx c hc
  refine (ensures_variableDeclaration hg hc).imp ?_
  rintro ⟨_, isMissing⟩ c₁ ⟨ps, rfl, h⟩
  exact (h.form (.variableDeclaration _) (by simp)).toReach

/-- A declaration that is a statement ends like one. -/
theorem lays_variableStatement (hg : g.Sound src) (single : Bool) :
    (g.variableStatement single).Lays src ([·]) := by
  intro ctx c hc
  simp [variableStatement]
  intro _
  refine (ensures_variableDeclaration hg hc).imp ?_
  rintro ⟨_, isMissing⟩ c₁ ⟨ps, rfl, h⟩ _
  refine h.then lays_endStatement fun _ c₂ h => ?_
  simp
  exact (h.form (.variableDeclaration _) (by simp)).toReach

/-! ### Types

Words may stand before such a declaration: it starts at a cursor of its own. -/

section

variable {ctx : Context} {c c₁ : Cursor}

/-- The name, its parameters, and the type behind the equals sign. -/
theorem ensures_typeAlias (hg : g.Sound src) (h : Reach src c c₁ []) :
    (g.typeAlias c.token.start).Ensures ctx c₁ fun n c' => Reach src c c' [n] := by
  simp [typeAlias]
  refine fun _ => h.next.then lays_binding fun name c₂ h => ?_
  refine h.then (lays_typeParameters hg) fun types c₃ h _ => ?_
  refine h.toReach.next.then (hg.type.within _) fun type c₄ h => ?_
  exact h.then lays_endStatement fun _ c₅ h => (h.form .other (by simp)).toReach

/-- The name, its parameters, what it extends, and the members. -/
theorem ensures_interface (hg : g.Sound src) (h : Reach src c c₁ []) :
    (g.interface c.token.start).Ensures ctx c₁ fun n c' => Reach src c c' [n] := by
  simp [interface]
  refine fun _ => h.next.then lays_binding fun name c₂ h => ?_
  refine h.then (lays_typeParameters hg) fun types c₃ h => ⟨fun _ => ?_, fun _ => ?_⟩
  · refine h.toReach.next.then ((lays_heritage hg).nodesSeparated _).lays fun bases c₄ h => ?_
    exact h.then (laysPast_typeMembers hg).lays fun members c₅ h =>
      (h.form .other (by simp)).toReach
  · exact h.then (laysPast_typeMembers hg).lays fun members c₄ h =>
      (h.form .other (by simp)).toReach

/-- A key, and a value if one is given. -/
theorem lays_enumMember (hg : g.Sound src) : g.enumMember.Lays src ([·]) := by
  intro ctx c hc
  simp [enumMember, -ensures_eat?]
  refine hc.reach.then (lays_propertyKey hg) fun key c₁ h => ?_
  refine (h.pass (by simp)).then (lays_eat? _) fun given c₂ h => ?_
  exact h.then (hg.assignment.bracketed.optional _) fun value c₃ h =>
    (h.form .other (by simp)).toReach

/-- The name and the members in braces. -/
theorem ensures_enumeration (hg : g.Sound src) (h : Reach src c c₁ []) :
    (g.enumeration c.token.start).Ensures ctx c₁ fun n c' => Reach src c c' [n] := by
  simp [enumeration, -ensures_eatWord?]
  refine h.then (lays_eatWord? _) fun _ c₂ h _ => ?_
  refine h.next.then lays_binding fun name c₃ h _ => ?_
  refine h.toReach.next.then ((lays_enumMember hg).nodesTo _) fun members c₄ h => ?_
  exact (h.form .enumeration (by simp)).toReach

/-- Statements in braces, from which no `return` leads out. -/
theorem laysPast_namespaceBody (hg : g.Sound src) : g.namespaceBody.LaysPast src id := by
  intro ctx c hc
  simp [namespaceBody]
  refine fun _ => hc.pass.then ((hg.statement false).nodesUntil fun ctx c => by simp)
    fun statements c₁ h _ => ?_
  exact h.toReach.next

/-- The name of a module may be a string, and a body may be missing. -/
theorem ensures_namespaceDeclaration (hg : g.Sound src) (h : Reach src c c₁ []) :
    (g.namespaceDeclaration c.token.start).Ensures ctx c₁ fun n c' => Reach src c c' [n] := by
  simp [namespaceDeclaration]
  refine ⟨fun _ => ?_, fun _ => ⟨fun _ => ?_, fun _ => ?_⟩⟩
  · exact h.next.then (laysPast_namespaceBody hg).lays fun body c₂ h =>
      (h.form .namespace (by simp)).toReach
  · refine h.next.then lays_string fun name c₂ h => ⟨fun _ => ?_, fun _ => ?_⟩
    · exact h.then (laysPast_namespaceBody hg).lays fun body c₃ h =>
        (h.form .namespace (by simp)).toReach
    · exact h.then lays_endStatement fun _ c₃ h => (h.form .namespace (by simp)).toReach
  · refine h.next.then lays_binding fun name c₂ h => ?_
    refine h.then lays_dottedNames fun path c₃ h => ?_
    exact h.then (laysPast_namespaceBody hg).lays fun body c₄ h =>
      (h.form .namespace (by simp)).toReach

/-- The word `type` is passed unless it is the name. -/
theorem lays_skipAliasWord : skipAliasWord.Lays src fun _ => [] := by
  intro ctx c hc
  simp [skipAliasWord]
  exact ⟨fun _ _ => hc.pass.toReach, fun _ => hc.reach⟩

/-- A name for a module, or for a name with dots. -/
theorem ensures_importEquals (h : Reach src c c₁ []) :
    (importEquals c.token.start).Ensures ctx c₁ fun n c' => Reach src c c' [n] := by
  simp [importEquals]
  refine h.then lays_skipAliasWord fun _ c₂ h => ?_
  refine h.then lays_binding fun name c₃ h _ => ⟨fun _ _ => ?_, fun _ => ?_⟩
  · refine h.next.toReach.next.toReach.next.then lays_string fun source c₄ h _ => ?_
    exact h.toReach.next.then lays_endStatement fun _ c₅ h =>
      (h.form .moduleAlias (by simp)).toReach
  · refine h.next.then lays_typeName fun target c₄ h => ?_
    exact h.then lays_endStatement fun _ c₅ h => (h.form .moduleAlias (by simp)).toReach

end

/-! ### Declarations with words before them

The words are passed over, and the node of the declaration is then moved to the start of the first
one. Decorators before the words belong to a class and lie in its room. -/

/-- Whether a declaration comes next is found out by looking through the words before it. -/
theorem stays_atTypedDeclaration : atTypedDeclaration.Stays := by
  intro ctx c
  simp only [atTypedDeclaration]
  exact ensures_sees fun _ => rfl

/-- A declaration that starts at `c`, behind decorators that start at `c₀`, with its words passed at
`c₁`. -/
theorem ensures_plainDeclaration (hg : g.Sound src) {ctx : Context} {c₀ c c₁ : Cursor}
    {decorators : List Node} (hbase : Reach src c₀ c []) (h : Reach src c c₁ [])
    (hdecorators : Reach src c₀ c₁ decorators) :
    (g.plainDeclaration c.token.start decorators).Ensures ctx c₁
      fun n c' => Reach src c₀ c' [n] ∧ c.token.start ≤ n.span.start := by
  -- all but a class stands behind the decorators
  have hbehind : ∀ n c', Reach src c c' [n] → Reach src c₀ c' [n] ∧ c.token.start ≤ n.span.start :=
    fun n c' h => ⟨hbase.append h, h.start_le_span⟩
  simp [plainDeclaration]
  refine ⟨?_, ?_⟩ <;> intros
  · exact (ensures_classRule hg false hdecorators).imp fun n c' hn =>
      ⟨hn.1, Nat.le_trans h.start_le hn.2⟩
  refine stays_atFunction.ensures fun isFunction => ⟨?_, ?_⟩ <;> intros
  · exact h.then (lays_functionDeclaration hg false false) hbehind
  have hvariables : (g.variableStatement false).Ensures ctx c₁
      fun n c' => Reach src c₀ c' [n] ∧ c.token.start ≤ n.span.start :=
    h.then (lays_variableStatement hg false) hbehind
  refine ⟨fun _ => ?_, fun _ => hvariables⟩
  refine ⟨?_, ?_⟩ <;> intros
  · exact (ensures_enumeration hg h).imp hbehind
  refine ⟨?_, ?_⟩ <;> intros
  · exact (ensures_typeAlias hg h).imp hbehind
  refine ⟨?_, ?_⟩ <;> intros
  · exact (ensures_interface hg h).imp hbehind
  refine ⟨?_, ?_⟩ <;> intros
  · exact (ensures_namespaceDeclaration hg h).imp hbehind
  refine ⟨?_, ?_⟩ <;> intros
  · exact (ensures_importEquals h.next.toReach).imp hbehind
  exact hvariables

/-- Moving the start of a node keeps it behind what stands before. -/
theorem le_span_startingAt {n : Node} {start : Nat} (h : start ≤ n.span.start) :
    start ≤ (n.startingAt start).span.start := by
  cases n
  case form => exact Nat.le_refl _
  all_goals exact h

/-- The node starts at the first word, and the decorators lie before it in the room of the class. -/
theorem ensures_typedDeclaration (hg : g.Sound src) {ctx : Context} {c₀ c : Cursor}
    {decorators : List Node} (h : Reach src c₀ c decorators) :
    (g.typedDeclaration decorators).Ensures ctx c
      fun n c' => Reach src c₀ c' [n] ∧ c.token.start ≤ n.span.start := by
  simp [typedDeclaration]
  refine h.on.reach.then (lays_skippedWords fun ctx c => by simp) fun words c₁ hwords => ?_
  refine (ensures_plainDeclaration hg h.drop hwords (by simpa using h.append hwords)).imp
    fun n c₂ ⟨hn, hstart⟩ => ⟨{ hn with fit := fun lo hi hlo hhi hle => ?_ }, ?_⟩
  · exact (hn.fit lo hi hlo hhi hle).startingAt (Nat.le_trans hlo h.start_le) hstart
      h.on.start_isBoundary
  · exact le_span_startingAt hstart

end VueSetup.Script.Grammar
