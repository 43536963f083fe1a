import VueSetup.Proofs.Script.Grammar.Pattern
import VueSetup.Script.Grammar.Type

/-!
# VueSetup.Proofs.Script.Grammar.Type

Types are laid in the text.

Nothing is asked of types later on but that their names are uses of names and lie where they are
written: an import is used if a type names it, and the text of a prop's type is cut out by the
stretch of its node. The lemmas follow the rules one by one. A rule that makes one node and starts
at the cursor lays it (`Parse.Lays`); a rule that goes on behind something that was read before is
stated for the stretch so far (`Reach`), from the cursor `c` at which that stretch starts.
-/

namespace VueSetup.Script.Grammar

open Parse

variable {src : List Char} {g : Grammar}

/-! ### Names, parameters and arguments

Names, and what stands in angle brackets or parentheses behind them. Each of these is a list that
may be missing. -/

/-- By induction on the number of dots: the name so far grows by one part. -/
theorem ensures_qualify {ctx : Context} {c : Cursor} (n : Nat) {c₁ : Cursor} {left : Node}
    (h : Reach src c c₁ [left]) : (typeName.qualify c.token.start n left).Ensures ctx c₁
      fun name c' => Reach src c c' [name] := by
  induction n generalizing c₁ left with
  | zero => exact ensures_reject
  | succ n ih =>
    simp [typeName.qualify]
    refine ⟨fun _ => ?_, fun _ => h⟩
    exact h.next.then lays_plainName fun right c₂ h => ih (h.form .other (by simp)).toReach

/-- A qualified name starts with the use of a name. -/
theorem lays_typeName : typeName.Lays src ([·]) := by
  intro ctx c hc
  simp [typeName]
  exact ensures_anyName fun name _ hkind =>
    ensures_qualify c.next.bound (pass_reference hc hkind).toReach

theorem lays_dottedNames : dottedNames.Lays src id := by
  refine Lays.nodesUntil (fun ctx c hc => ?_) fun ctx c => by simp
  simp
  exact hc.pass.then lays_plainName fun name c₁ h => h.toReach

theorem lays_typeArguments (hg : g.Sound src) : g.typeArguments.Lays src id := by
  intro ctx c hc
  simp [typeArguments]
  exact fun _ => hc.pass.then ((hg.type.within _).nodesTo .gt) fun types c₁ h => h.toReach

/-- Arguments on the next line belong to another statement. -/
theorem lays_typeArgumentsHere (hg : g.Sound src) : g.typeArgumentsHere.Lays src id := by
  intro ctx c hc
  simp [typeArgumentsHere]
  refine hc.reach.then lays_splitAngles fun _ c₁ h => ⟨fun _ _ => ?_, fun _ => h⟩
  exact h.then (lays_typeArguments hg) fun types c₂ h => h

/-- The name comes first, and then its arguments. -/
theorem lays_typeReference (hg : g.Sound src) : g.typeReference.Lays src ([·]) := by
  intro ctx c hc
  simp [typeReference]
  refine hc.reach.then lays_typeName fun name c₁ h => ?_
  exact (h.pass (by simp)).then (lays_typeArgumentsHere hg) fun types c₂ h =>
    (h.node rfl rfl (by simp [Node.parts])).toReach

/-- Words before the name and the bounds behind it are parts of the parameter. -/
theorem lays_typeParameter (hg : g.Sound src) : g.typeParameter.Lays src ([·]) := by
  intro ctx c hc
  simp [typeParameter, -ensures_eatWord?, -ensures_eat?]
  refine hc.reach.then (lays_advance.skipUntil fun ctx c => by simp) fun _ c₁ h => ?_
  refine h.then lays_binding fun name c₂ h => ?_
  refine (h.pass (by simp)).then (lays_eatWord? _) fun extended c₃ h => ?_
  refine h.then (hg.type.optional _) fun bound c₄ h => ?_
  refine h.then (lays_eat? _) fun given c₅ h => ?_
  exact h.then (hg.type.optional _) fun default c₆ h => (h.form .other (by simp)).toReach

theorem lays_typeParameters (hg : g.Sound src) : g.typeParameters.Lays src id := by
  intro ctx c hc
  simp [typeParameters]
  refine ⟨fun _ _ => ?_, fun _ => hc.reach⟩
  exact hc.pass.then (((lays_typeParameter hg).within _).nodesTo .gt) fun types c₁ h => h.toReach

/-- A claim about a parameter is tried before a type is read. -/
theorem lays_typeOrPredicate (hg : g.Sound src) : g.typeOrPredicate.Lays src ([·]) := by
  intro ctx c hc
  simp [typeOrPredicate]
  refine ensures_attempt ?_ (hg.type ctx c hc)
  simp
  intro _
  refine hc.reach.then lays_plainName fun name c₁ h _ _ => ?_
  exact h.next.then hg.type fun type c₂ h => (h.form .other (by simp)).toReach

/-- Behind a colon in a signature, behind an arrow in the type of a function. -/
theorem lays_returnType (hg : g.Sound src) (mark : Punct) : (g.returnType mark).Lays src id := by
  intro ctx c hc
  simp [returnType]
  refine ⟨fun _ _ => ?_, fun _ => hc.reach⟩
  exact hc.pass.then ((lays_typeOrPredicate hg).within _).one fun type c₁ h => h.toReach

/-- The receiver, the parameters and the rest, in this order. -/
theorem laysPast_signatureParameters (hg : g.Sound src) :
    g.signatureParameters.LaysPast src id := by
  intro ctx c hc
  simp [signatureParameters]
  exact (laysPast_parameters hg ctx c hc).imp fun params c₁ h => by simpa using h

/-! ### Members of object types

A member is told from the others by its first tokens: a signature by its parenthesis, an index by
its brackets, an accessor by its word, and everything else is named. -/

/-- What parts the members makes no tree. -/
theorem lays_endTypeMember : endTypeMember.Lays src fun _ => [] := by
  intro ctx c hc
  simp [endTypeMember]
  exact ⟨fun _ => hc.pass.toReach, fun _ => lays_endStatement ctx c hc⟩

/-- A signature may have words before it, so that it goes on behind what was read. -/
theorem ensures_signature (hg : g.Sound src) {ctx : Context} {c c₁ : Cursor}
    (h : Reach src c c₁ []) : (g.signature c.token.start).Ensures ctx c₁
      fun n c' => Reach src c c' [n] := by
  simp [signature]
  refine h.then (lays_typeParameters hg) fun types c₂ h => ?_
  refine h.thenPast (laysPast_signatureParameters hg) fun params c₃ h => ?_
  exact h.then (lays_returnType hg _) fun result c₄ h => (h.form .other (by simp)).toReach

/-- Whether an index comes next is found out by looking at the tokens behind the bracket. -/
theorem stays_atIndexSignature : atIndexSignature.Stays := by
  intro ctx c
  simp [atIndexSignature]

theorem lays_indexSignature (hg : g.Sound src) : g.indexSignature.Lays src ([·]) := by
  intro ctx c hc
  simp [indexSignature, -ensures_eat?]
  intro _
  refine hc.pass.then lays_plainName fun name c₁ h => ?_
  refine h.then (lays_annotatedType hg) fun key c₂ h => ?_
  refine h.then (lays_eat? _) fun _ c₃ h _ => ?_
  exact h.next.then (lays_annotatedType hg) fun type c₄ h => (h.form .other (by simp)).toReach

/-- The word is passed unless it is the name of the member. -/
theorem lays_skipMemberWord (words : List String) :
    (skipMemberWord words).Lays src fun _ => [] := by
  intro ctx c hc
  simp [skipMemberWord]
  exact ⟨fun _ _ _ => hc.pass.toReach, fun _ => hc.reach⟩

/-- With parentheses behind its name it is a method, else a property. -/
theorem lays_namedTypeMember (hg : g.Sound src) : g.namedTypeMember.Lays src ([·]) := by
  intro ctx c hc
  simp [namedTypeMember, -ensures_eat?]
  refine hc.reach.then (lays_skipMemberWord _) fun _ c₁ h => ?_
  refine stays_atIndexSignature.ensures fun isIndex => ⟨fun _ => ?_, fun _ => ?_⟩
  · exact h.then (lays_indexSignature hg) fun index c₂ h => h
  · refine h.then (lays_skipMemberWord _) fun _ c₂ h => ?_
    refine h.then (lays_propertyKey hg) fun key c₃ h => ?_
    refine (h.pass (by simp)).then (lays_eat? _) fun _ c₄ h => ⟨fun _ => ?_, fun _ _ => ?_⟩
    · refine (ensures_signature hg h.on.reach).imp fun rest c₅ h' => ?_
      exact ((h.append h').form .other (by simp)).toReach
    · exact h.then (lays_annotatedType hg) fun type c₅ h => (h.form .other (by simp)).toReach

theorem lays_typeMember (hg : g.Sound src) : g.typeMember.Lays src ([·]) := by
  intro ctx c hc
  simp [typeMember]
  have hend : ∀ {c₁ n}, Reach src c c₁ [n] → endTypeMember.Ensures ctx c₁
      fun _ c' => Reach src c c' [n] := fun h => h.then lays_endTypeMember fun _ c' h => by
        simpa using h
  refine ⟨fun _ => ?_, fun _ _ => ⟨fun _ _ => ?_, fun _ => ?_⟩⟩
  · exact (ensures_signature hg hc.reach).imp fun n c₁ h => hend h
  · exact (ensures_signature hg hc.pass.toReach).imp fun n c₁ h => hend h
  · exact (lays_namedTypeMember hg ctx c hc).imp fun n c₁ h => hend h

/-- Members in braces, the first of which may come right away. -/
theorem laysPast_typeMembers (hg : g.Sound src) : g.typeMembers.LaysPast src id := by
  intro ctx c hc
  simp [typeMembers]
  intro _
  exact hc.pass.then ((lays_typeMember hg).nodesUntil fun ctx c => by simp) fun members c₁ h _ =>
    h.next

/-- A mark with a sign before it, or without. -/
theorem lays_mappedMark {mark : Parse Bool} (hmark : mark.Lays src fun _ => []) :
    (mappedMark mark).Lays src fun _ => [] := by
  intro ctx c hc
  simp [mappedMark]
  refine ⟨fun _ => ?_, fun _ _ => hmark ctx c hc⟩
  exact hc.pass.then hmark fun _ c₁ h _ => h.toReach

/-- The parameter, what it goes through, the type that it is renamed to, and the type of the
members. -/
theorem lays_mappedType (hg : g.Sound src) : g.mappedType.Lays src ([·]) := by
  intro ctx c hc
  simp [mappedType, -ensures_eat?, -ensures_eatWord?]
  intro _
  refine hc.pass.then (lays_mappedMark (lays_eatWord? _)) fun _ c₁ h _ => ?_
  refine h.next.then lays_binding fun name c₂ h _ => ?_
  refine h.next.then hg.type fun keys c₃ h => ?_
  refine h.then (lays_eatWord? _) fun renamed c₄ h => ?_
  refine h.then (hg.type.optional _) fun rename c₅ h _ => ?_
  refine h.next.then (lays_mappedMark (lays_eat? _)) fun _ c₆ h => ?_
  refine h.then (lays_annotatedType hg) fun type c₇ h => ?_
  refine h.then (lays_eat? _) fun _ c₈ h => ?_
  refine h.then (lays_eat? _) fun _ c₉ h _ => ?_
  exact (h.next.form .other (by simp)).toReach

/-! ### Single types

Templates stand here because types can be templates as well; the rule for them takes the parser for
what is embedded as an argument and is used for expressions, too. -/

/-- By induction on the number of parts: what is embedded, and the next stretch of the template up
to its quote or up to the next part. -/
theorem lays_templateParts {embedded : Parse Node} (hembedded : embedded.Lays src ([·]))
    (strict : Bool) (n : Nat) : (templateParts embedded strict n).Lays src id := by
  induction n with
  | zero => exact lays_reject
  | succ n ih =>
    intro ctx c hc
    simp [templateParts]
    refine hc.reach.then hembedded fun first c₁ h hbrace => ?_
    split
    · next whole proper size rest hscan =>
      have hrest := h.on.exists_before_tail (starts_of_isPunct h.on hbrace)
        (takes_scanTemplate? hscan)
      have hmoved := h.moveTo (by omega) hrest
      simp
      refine fun _ => ⟨fun _ => hmoved.toReach, fun _ => ?_⟩
      exact hmoved.then ih fun others c₂ h => h.toReach
    · simp

/-- A template without embedded parts is one token. -/
theorem laysPast_templateRule {embedded : Parse Node} (hembedded : embedded.Lays src ([·]))
    (strict : Bool) : (templateRule embedded strict).LaysPast src id := by
  intro ctx c hc
  simp [templateRule]
  split
  · simp
    refine fun _ => ⟨fun _ => hc.pass, fun _ => ?_⟩
    exact hc.pass.then (lays_templateParts hembedded strict _) fun parts c₁ h => h
  · simp

/-- The last part of a template closes it. -/
theorem ensures_closesAt_templateParts {embedded : Parse Node} (hembedded : embedded.Lays src ([·]))
    (strict : Bool) (n : Nat) (ctx : Context) {c : Cursor} (hc : c.On src) :
    (templateParts embedded strict n).Ensures ctx c fun _ c' => ClosesAt src c'.lastStop := by
  induction n generalizing c with
  | zero => exact ensures_reject
  | succ n ih =>
    simp [templateParts]
    refine hc.reach.then hembedded fun first c₁ h hbrace => ?_
    split
    · next whole proper size rest hscan =>
      have hrest := h.on.exists_before_tail (starts_of_isPunct h.on hbrace)
        (takes_scanTemplate? hscan)
      simp
      refine fun _ => ⟨fun hwhole => ?_, fun _ => ih (h.moveTo (by omega) hrest).on⟩
      subst hwhole
      obtain ⟨before, htext, -⟩ := h.on.here
      obtain ⟨d, tail, hhere, -⟩ := starts_of_isPunct h.on hbrace
      obtain ⟨front, hfront⟩ := closes_scanTemplate? hscan rfl
      rw [hhere, List.tail_cons] at hfront
      have hquoted : src = before ++ d :: front ++ '\x60' :: rest := by
        rw [htext, hhere, hfront]
        simp
      exact Cursor.On.closesAt ⟨_, _, hquoted, rfl⟩ hrest
    · simp

/-- A template is quoted. -/
theorem ensures_quoted_templateRule {embedded : Parse Node} (hembedded : embedded.Lays src ([·]))
    (strict : Bool) (ctx : Context) {c : Cursor} (hc : c.On src) :
    (templateRule embedded strict).Ensures ctx c fun _ c' =>
      Node.Quoted src ⟨c.token.start, c'.lastStop⟩ := by
  simp [templateRule]
  split
  · next whole proper hkind =>
    have hstarts := hc.starts
    rw [hkind] at hstarts
    simp
    refine fun _ => ⟨fun hwhole => ?_, fun _ => ?_⟩
    · subst hwhole
      exact hc.quoted_template hkind
    · exact (ensures_closesAt_templateParts hembedded strict _ ctx hc.next).imp fun _ _ hcloses =>
        ⟨hc.opens hstarts, hcloses⟩
  · simp

/-- A template around its embedded parts. -/
theorem ensures_pass_templateRule {embedded : Parse Node} (hembedded : embedded.Lays src ([·]))
    (strict : Bool) (ctx : Context) {c : Cursor} (hc : c.On src) :
    (templateRule embedded strict).Ensures ctx c fun parts c' =>
      Pass src c c' parts ∧ Node.Quoted src ⟨c.token.start, c'.lastStop⟩ :=
  (laysPast_templateRule hembedded strict ctx c hc).and
    (ensures_quoted_templateRule hembedded strict ctx hc)

/-- An element with a name or without, and with marks on either side. -/
theorem lays_tupleElement (hg : g.Sound src) : g.tupleElement.Lays src ([·]) := by
  intro ctx c hc
  simp [tupleElement, -ensures_eat?]
  refine hc.reach.then (lays_eat? _) fun _ c₁ h => ⟨fun _ _ => ?_, fun _ => ?_⟩
  · refine h.then lays_plainName fun name c₂ h => ?_
    refine h.then (lays_eat? _) fun _ c₃ h _ => ?_
    exact h.next.then hg.type fun type c₄ h => (h.form .other (by simp)).toReach
  · refine h.then hg.type fun type c₂ h => ?_
    exact (h.pass (by simp)).then (lays_eat? _) fun _ c₃ h => (h.form .other (by simp)).toReach

theorem lays_importSettings (hg : g.Sound src) : g.importSettings.Lays src id := by
  intro ctx c hc
  simp [importSettings]
  refine ⟨fun _ => ⟨fun _ => hc.pass.toReach, fun _ => ?_⟩, fun _ => hc.reach⟩
  exact hc.pass.then hg.assignment.one fun settings c₁ h => h.toReach

/-- The module, what is taken from it, and the arguments of that. -/
theorem lays_importType (hg : g.Sound src) : g.importType.Lays src ([·]) := by
  intro ctx c hc
  simp [importType, -ensures_eatWord?, -ensures_eat?]
  refine hc.reach.then (lays_eatWord? _) fun _ c₁ h _ _ => ?_
  refine h.next.toReach.next.then hg.type fun source c₂ h => ?_
  refine h.then (lays_importSettings hg) fun settings c₃ h => ?_
  refine h.then (lays_eat? _) fun _ c₄ h _ => ?_
  refine h.next.then lays_dottedNames fun path c₅ h => ?_
  exact h.then (lays_typeArgumentsHere hg) fun types c₆ h => (h.form .other (by simp)).toReach

/-- The name of a value, with arguments if there are any. -/
theorem lays_typeQuery (hg : g.Sound src) : g.typeQuery.Lays src ([·]) := by
  intro ctx c hc
  simp [typeQuery]
  intro _
  refine hc.pass.then lays_typeName fun name c₁ h => ?_
  exact h.then (lays_typeArgumentsHere hg) fun types c₂ h => (h.form .other (by simp)).toReach

theorem stays_atMappedType : atMappedType.Stays :=
  fun _ _ => ensures_sees fun _ => rfl

/-- One case for each kind of token that a type can start with. -/
theorem lays_simpleType (hg : g.Sound src) : g.simpleType.Lays src ([·]) := by
  intro ctx c hc
  -- Most types of one token are leaves; the cases below follow the tokens.
  have hleaf : Reach src c c.next [.form .other ⟨c.token.start, c.token.stop⟩ []] :=
    (hc.pass.form .other (by simp)).toReach
  simp [simpleType, -ensures_eatWord?]
  split
  all_goals simp [-ensures_eatWord?]
  · exact hleaf
  · exact hleaf
  · simp [one]
    exact hc.reach.then lays_string fun value c₁ h =>
      ((h.pass (by simp)).form .other (by simp)).toReach
  · next whole _ _ =>
    refine (ensures_pass_templateRule hg.type false ctx hc).imp fun parts c₁ h => ?_
    obtain ⟨h, hquoted⟩ := h
    cases whole with
    | true =>
      have htemplate : Pass src c c₁ [.template ⟨c.token.start, c₁.lastStop⟩ []] :=
        h.drop.template hquoted
      exact (htemplate.form .other (by simp)).toReach
    | false => exact (h.form .other (by simp)).toReach
  · exact fun _ => (hc.pass.toReach.next.form .other (by simp)).toReach
  · refine ⟨fun _ => ?_, fun _ => hleaf⟩
    exact hc.pass.then hg.type fun type c₁ h => (h.form .other (by simp)).toReach
  · refine ⟨fun _ => ?_, fun _ => hleaf⟩
    exact hc.pass.then hg.type fun type c₁ h => (h.form .other (by simp)).toReach
  · refine stays_atMappedType.ensures fun isMapped =>
      ⟨fun _ => lays_mappedType hg ctx c hc, fun _ => ?_⟩
    exact (laysPast_typeMembers hg ctx c hc).imp fun members c₁ h =>
      (h.form .other (by simp)).toReach
  · exact hc.pass.then (((lays_tupleElement hg).within _).nodesTo .rbrack) fun elements c₁ h =>
      (h.form .other (by simp)).toReach
  · exact hc.pass.then hg.type fun type c₁ h _ => (h.toReach.next.form .other (by simp)).toReach
  · have hreference := lays_typeReference hg ctx c hc
    refine ⟨fun _ => hreference, fun _ => ?_⟩
    refine ⟨fun _ _ => hleaf, fun _ => ?_⟩
    refine ⟨fun _ => hleaf, fun _ _ _ _ => ?_⟩
    refine ⟨fun _ => ⟨fun _ _ => ?_, fun _ => hleaf⟩, fun _ => ?_⟩
    · exact hc.pass.toReach.next.then hg.type fun type c₁ h => (h.form .other (by simp)).toReach
    refine ⟨fun _ => ?_, fun _ => ?_⟩
    · exact ⟨fun _ => lays_importType hg ctx c hc, fun _ => lays_typeQuery hg ctx c hc⟩
    refine ⟨fun _ => lays_importType hg ctx c hc, fun _ => ?_⟩
    refine ⟨fun _ _ _ => ?_, fun _ => hreference⟩
    refine hc.pass.then lays_plainName fun subject c₁ h => ?_
    refine h.then (lays_eatWord? _) fun claimed c₂ h => ?_
    exact h.then (hg.type.optional _) fun type c₃ h => (h.form .other (by simp)).toReach

/-! ### Operators on types

Types are joined and marked like operands are, so the lemmas have the shape of those for
expressions: a loop behind the first type that puts nodes around what was read. -/

/-- By induction on the number of operators: each one makes a node around the type so far. -/
theorem ensures_postfixType (hg : g.Sound src) {ctx : Context} {c : Cursor} (n : Nat)
    {c₁ : Cursor} {type : Node} (h : Reach src c c₁ [type]) :
    (g.postfixType c.token.start n type).Ensures ctx c₁ fun n c' => Reach src c c' [n] := by
  induction n generalizing c₁ type with
  | zero => exact ensures_reject
  | succ n ih =>
    simp [postfixType]
    refine ⟨fun _ => h, fun _ => ?_⟩
    refine ⟨fun _ => ih (h.next.form .other (by simp)).toReach, fun _ => ?_⟩
    refine ⟨fun _ => ⟨fun _ => h, fun _ => ih (h.next.form .other (by simp)).toReach⟩, fun _ => ?_⟩
    refine ⟨fun _ => ⟨fun _ => ?_, fun _ => ?_⟩, fun _ => h⟩
    · exact ih (h.next.toReach.next.form .other rfl).toReach
    · exact h.next.then (hg.type.within _).one fun index c₂ h _ =>
        ih (h.next.form .other (by simp)).toReach

/-- A bound before a question mark is refused: it was the condition of a type. -/
theorem lays_inferBound (hg : g.Sound src) : g.inferBound.Lays src ([·]) := by
  intro ctx c hc
  simp [inferBound]
  exact fun _ => hc.pass.then hg.type fun bound c₁ h _ => h.toReach

/-- By induction on the number of operators before the type. -/
theorem lays_operatorTypeFuel (hg : g.Sound src) (n : Nat) :
    (g.operatorTypeFuel n).Lays src ([·]) := by
  induction n with
  | zero => exact lays_reject
  | succ n ih =>
    intro ctx c hc
    simp [operatorTypeFuel]
    refine ⟨fun _ => ?_, fun _ => ⟨fun _ => ?_, fun _ => ?_⟩⟩
    · exact hc.pass.then ih fun type c₁ h => (h.form .other (by simp)).toReach
    · refine hc.pass.then lays_binding fun name c₁ h => ?_
      refine ensures_attempt ?_ (h.form .other (by simp)).toReach
      exact h.then (lays_inferBound hg) fun bound c₂ h => (h.form .other (by simp)).toReach
    · exact hc.reach.then (lays_simpleType hg) fun type c₁ h => ensures_postfixType hg _ h

/-- An operator before the first type belongs to the node around all of them. -/
theorem lays_joinedTypes {item : Parse Node} (hitem : item.Lays src ([·])) (operator : Punct) :
    (joinedTypes operator item).Lays src ([·]) := by
  intro ctx c hc
  simp [joinedTypes, -ensures_eat?]
  refine hc.reach.then (lays_eat? _) fun leading c₁ h => ?_
  refine h.thenPast (hitem.nodesSeparated _) fun types c₂ h => ?_
  split
  · simp
    exact h.toReach
  · simp
    exact (h.form .other (by simp)).toReach

/-- A union of intersections of single types. -/
theorem lays_unionType (hg : g.Sound src) : g.unionType.Lays src ([·]) := by
  refine lays_joinedTypes (lays_joinedTypes (fun ctx c hc => ?_) .amp) .pipe
  simp
  exact lays_operatorTypeFuel hg c.bound ctx c hc

/-! ### Types of functions

Whether parentheses hold parameters is found out by looking through them, which moves nothing. -/

/-- The look goes as far as to what tells parameters from a type. -/
theorem stays_atFunctionType : g.atFunctionType.Stays :=
  fun _ _ => ensures_sees fun _ => rfl

/-- A condition is read behind the union where the surroundings allow it: the bound, and the types
for either case. -/
theorem lays_typeRule (hg : g.Sound src) : g.typeRule.Lays src ([·]) := by
  intro ctx c hc
  simp [typeRule, -ensures_eatWord?]
  refine stays_atFunctionType.ensures fun isFunction => ⟨fun _ => ?_, fun _ _ _ _ => ?_⟩
  · refine hc.reach.then (lays_eatWord? _) fun _ c₁ h => ?_
    refine h.then (lays_eatWord? _) fun _ c₂ h => ?_
    refine h.then (lays_typeParameters hg) fun types c₃ h => ?_
    refine h.thenPast (laysPast_signatureParameters hg) fun params c₄ h _ => ?_
    exact h.then (lays_returnType hg _) fun result c₅ h => (h.form .other (by simp)).toReach
  · refine hc.reach.then (lays_unionType hg) fun type c₁ h => ⟨fun _ _ _ => ?_, fun _ => h⟩
    refine h.next.then hg.type fun bound c₂ h _ => ?_
    refine h.next.then hg.type fun yes c₃ h _ => ?_
    exact h.next.then hg.type fun no c₄ h => (h.form .other (by simp)).toReach

end VueSetup.Script.Grammar
