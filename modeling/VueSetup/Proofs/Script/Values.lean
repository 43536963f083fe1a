import VueSetup.Proofs.Script.Fresh
import VueSetup.Proofs.Script.Program

/-!
# VueSetup.Proofs.Script.Values

What the values of an object are read as.

A value behind a colon is an outcome of the rule for expressions without commas, and so is an
argument of a call. A method has no such value: its function starts at its parameters, with no word
before them. An import is an outcome of the rule for imports. `Node.Holds` says this of a node, and
`Grammar.Yields` of the rules that a value is reached through. All of them make a node of what lies
between the first and the last token that they pass (`Node.Yield`), up to a few nodes that nothing
is asked of (`Node.isLoose`).
-/

namespace VueSetup.Script

open Text Parse

variable {dialect : Dialect} {src : List Char}

/-- The cursor is what the scanner gives at some place of the text. -/
def Cursor.IsScan (src : List Char) (c : Cursor) : Prop :=
  ∃ before cs, src = before ++ cs ∧ c = Cursor.scanAt (src.length + 1) (byteSize before) cs

/-- What the scanner gives is a cursor on the text. -/
theorem Cursor.IsScan.on {c : Cursor} (h : c.IsScan src) : c.On src := by
  obtain ⟨before, cs, hsrc, rfl⟩ := h
  exact Cursor.on_scanAt rfl ⟨before, hsrc, rfl⟩

/-- The next cursor is given by the scanner, also if the token was read in another way than scanned.
-/
theorem Cursor.On.isScan_next {c : Cursor} (h : c.On src) : c.next.IsScan src := by
  obtain ⟨before, hsrc, hsize⟩ := h.behind
  exact ⟨before, c.behind, hsrc, by rw [Cursor.next, h.bound_eq, hsize]⟩

/-! ### What opens parameters

A method is read from its parameters or type parameters on, so that its function starts with `(` or
`<`. On a cursor that the scanner gave, the token tells the first character. -/

/-- Only the scan for punctuation makes punctuation. -/
theorem scanPunct?_of_scanKind {bound : Nat} {cs : List Char} {p : Punct}
    (h : (scanKind bound cs).value = .punct p) : ∃ n, scanPunct? cs = some (p, n) := by
  -- no other scan makes punctuation
  have hother : ∀ found : Option (Scanned TokenKind),
      (∀ s, found = some s → s.value ≠ .punct p) →
      (found.getD ⟨.invalid, 0, cs⟩).value ≠ .punct p := by
    intro found hfound
    cases found with
    | none => simp
    | some s => exact hfound s rfl
  cases cs with
  | nil => cases h
  | cons c rest =>
    simp only [scanKind] at h
    split at h
    · refine absurd h (hother _ fun s hs => ?_)
      obtain ⟨w, -, rfl⟩ := Option.map_eq_some_iff.mp hs
      simp
    split at h
    · refine absurd h (hother _ fun s hs => ?_)
      rcases scanNumber?_value hs with hvalue | hvalue
      · simp [hvalue]
      · simp [hvalue]
    split at h
    · refine absurd h (hother _ fun s hs => ?_)
      obtain ⟨body, -, rfl⟩ := Option.map_eq_some_iff.mp hs
      simp
    split at h
    · refine absurd h (hother _ fun s hs => ?_)
      obtain ⟨body, hbody, rfl⟩ := Option.map_eq_some_iff.mp hs
      obtain ⟨whole, proper, hvalue⟩ := scanTemplate?_value hbody
      simp [hvalue]
    split at h
    · refine absurd h (hother _ fun s hs => ?_)
      obtain ⟨w, -, rfl⟩ := Option.map_eq_some_iff.mp hs
      simp
    · cases hp : scanPunct? (c :: rest) with
      | none => simp [hp] at h
      | some found =>
        simp only [hp, Option.map_some, Option.getD_some, TokenKind.punct.injEq] at h
        exact ⟨found.2, by rw [← h]⟩

/-- The text starts with what opens parameters. -/
def opensParams (cs : List Char) : Bool :=
  cs.head? == some '(' || cs.head? == some '<'

/-- Both ways to open parameters are spelled with one character. -/
theorem opensParams_of_scanPunct? {cs : List Char} {p : Punct} {n : Nat}
    (h : scanPunct? cs = some (p, n)) (hp : p = .lparen ∨ p = .lt) : opensParams cs = true := by
  obtain ⟨-, rest, rfl⟩ := scanPunct?_spells h
  rcases hp with rfl | rfl <;> rfl

theorem Cursor.IsScan.opensParams {c : Cursor} (h : c.IsScan src)
    (hopen : c.token.isPunct .lparen = true ∨ c.token.isPunct .lt = true) :
    opensParams c.here = true := by
  obtain ⟨before, cs, -, rfl⟩ := h
  rcases hopen with hopen | hopen
  · obtain ⟨n, hscan⟩ := scanPunct?_of_scanKind (beq_iff_eq.mp hopen)
    exact opensParams_of_scanPunct? hscan (.inl rfl)
  · obtain ⟨n, hscan⟩ := scanPunct?_of_scanKind (beq_iff_eq.mp hopen)
    exact opensParams_of_scanPunct? hscan (.inr rfl)

/-- The text from the token on is what the cursor keeps of it. -/
theorem Cursor.On.suffixFrom_start {c : Cursor} (h : c.On src) :
    suffixFrom src c.token.start = c.here := by
  obtain ⟨before, htext, hsize⟩ := h.here
  rw [htext, ← hsize, suffixFrom_append]

namespace Node

/-! ### Values

What is asked of a node depends on its kind, and most kinds are asked nothing. It goes through
parentheses and types around an object, because that is where the options of a component are looked
for. -/

/-- A semicolon may be read behind the node, or decorators before it. -/
def isLoose : Node → Bool
  | .form .. | .function _ _ _ _ [] => true
  | _ => false

/-- The node is what the rule for expressions without commas makes of a stretch of the text. A
comma is behind it, or what closes the list that it stands in. -/
def IsRead (dialect : Dialect) (src : List Char) (close : Punct) (n : Node) : Prop :=
  ∃ level c c', c.IsScan src ∧ (Grammar.upTo level).assignment { dialect } c = some (n, c') ∧
    (n.isLoose = false → n.span = ⟨c.token.start, c'.lastStop⟩) ∧
    (c'.token.isPunct .comma = true ∨ c'.token.isPunct close = true)

/-- What a member of an object gives its key. -/
inductive IsValue (dialect : Dialect) (src : List Char) : Node → Prop where
  | read {n : Node} : n.IsRead dialect src .rcurly → IsValue dialect src n
  | method {span : Span} {params rest parts body : List Node} :
    opensParams (suffixFrom src span.start) = true →
    IsValue dialect src (.function span params rest parts body)
  | name {span : Span} {name : String} : IsValue dialect src (.reference span name)

/-- A member that has a value has one of those. -/
def HasValue (dialect : Dialect) (src : List Char) : Node → Prop
  | .property _ _ _ value => value.IsValue dialect src
  | _ => True

/-- The node is what the rule for imports makes of the text, from a word on that starts no
expression. -/
def IsImport (dialect : Dialect) (src : List Char) (n : Node) : Prop :=
  ∃ c c', c.On src ∧ c.token.isWord "import" = true ∧ c.next.token.isPunct .dot = false ∧
    c.next.token.isPunct .lparen = false ∧
    Grammar.importDeclaration { dialect } c = some (n, c')

/-- The values of an object and the arguments of a call are read as expressions, also if the object
or the call stands in parentheses or has a type. An import is read as such. -/
def Holds (dialect : Dialect) (src : List Char) : Node → Prop
  | .object _ members => ∀ m ∈ members, m.HasValue dialect src
  | .call _ _ _ arguments => ∀ a ∈ arguments,
      (∃ span operand, a = .spread span operand) ∨ a.IsRead dialect src .rparen
  | .paren _ n | .asType _ n _ | .satisfies _ n _ | .exportDefault _ n => n.Holds dialect src
  | .importDeclaration span specifiers parts =>
    (importDeclaration span specifiers parts).IsImport dialect src
  | _ => True

/-- Nothing is asked of a form. -/
@[simp] theorem holds_form (kind : Form) (span : Span) (parts : List Node) :
    (Node.form kind span parts).Holds dialect src :=
  trivial

/-- The node is made of what was read from the given byte up to the cursor. -/
structure Yield (dialect : Dialect) (src : List Char) (start : Nat) (n : Node) (c' : Cursor) :
    Prop where
  span : n.isLoose = false → n.span = ⟨start, c'.lastStop⟩
  holds : n.Holds dialect src

/-- A form may cover anything. -/
@[simp] theorem yield_form {start : Nat} {kind : Form} {span : Span} {parts : List Node}
    {c' : Cursor} : (Node.form kind span parts).Yield dialect src start c' :=
  ⟨fun h => by simp [isLoose] at h, trivial⟩

/-- The node keeps its stretch while the cursor does not move on. -/
theorem Yield.congr {start : Nat} {n : Node} {c c' : Cursor} (h : n.Yield dialect src start c)
    (hstop : c'.lastStop = c.lastStop) : n.Yield dialect src start c' :=
  ⟨fun hn => by rw [hstop]; exact h.span hn, h.holds⟩

end Node

/-- The parser makes a node of what it reads. -/
def Parse.Yields (dialect : Dialect) (src : List Char) (p : Parse Node) : Prop :=
  ∀ c, c.On src → p.Ensures { dialect } c fun n c' => n.Yield dialect src c.token.start c'

/-- The rules make nodes of what they read, and their values are read by rules of the language. -/
structure Grammar.Yields (dialect : Dialect) (src : List Char) (g : Grammar) : Prop where
  sound : g.Sound src
  level : ∃ n, g = Grammar.upTo n
  expression : g.expression.Yields dialect src
  assignment : g.assignment.Yields dialect src
  operation : ∀ least, (g.operation least).Yields dialect src
  operand : g.operand.Yields dialect src
  access : g.access.Yields dialect src
  element : ∀ ctx c, g.element.Ensures ctx c fun n _ => ∃ kind span parts, n = .form kind span parts

namespace Grammar

variable {g : Grammar} {ctx : Context} {c c₁ : Cursor}

/-- What is read behind a token is read by a rule of the language. -/
theorem Yields.isRead (hg : g.Yields dialect src) (hc : c.IsScan src) (close : Punct) :
    g.assignment.Ensures { dialect } c fun n c' =>
      c'.token.isPunct .comma = true ∨ c'.token.isPunct close = true →
        n.IsRead dialect src close := by
  intro n c' hrun hclose
  obtain ⟨level, hlevel⟩ := hg.level
  exact ⟨level, c, c', hc, hlevel ▸ hrun, (hg.assignment c hc.on n c' hrun).span, hclose⟩

/-! ### Functions

A function with a body covers all of it. One without a body may be followed by a semicolon that
belongs to it, and is therefore loose. -/

/-- A function starts with what opens parameters, if nothing is read before them. -/
theorem opens_functionRest (start : Nat) (f : Flavour) (name : List Node) :
    (g.functionRest start f name).Ensures ctx c fun _ _ =>
      c.token.isPunct .lparen = true ∨ c.token.isPunct .lt = true := by
  have htypes : g.typeParameters.Ensures ctx c fun _ c₁ => c₁ = c ∨ c.token.isPunct .lt = true := by
    simp [typeParameters]
    exact fun _ hlt => ensures_of_forall fun _ _ => .inr hlt
  have hparams : ∀ ctx c, g.parameters.Ensures ctx c fun _ _ => c.token.isPunct .lparen = true := by
    intro ctx c
    rw [parameters, ensures_bind, ensures_expect]
    exact fun hopen => ensures_of_forall fun _ _ => hopen
  rw [functionRest, ensures_bind]
  refine htypes.imp fun types c₁ h => ?_
  rcases h with rfl | hlt
  · rw [ensures_bind, ensures_within]
    exact (hparams _ c₁).imp fun _ _ hopen => ensures_of_forall fun _ _ => .inl hopen
  · exact ensures_of_forall fun _ _ => .inr hlt

/-- A function covers what was read for it, unless it has no body. -/
theorem covers_functionRest (hg : g.Sound src) (hc : c.On src) (start : Nat) (f : Flavour)
    (name : List Node) : (g.functionRest start f name).Ensures ctx c fun n c' =>
      ∃ stop params rest parts body, n = .function ⟨start, stop⟩ params rest parts body ∧
        (body = [] ∨ stop = c'.lastStop) := by
  simp only [functionRest, ensures_bind, ensures_within, ensures_at?, ensures_ite, ensures_spanFrom,
    ensures_hasTypes, ensures_require, ensures_pure]
  refine hc.then (lays_typeParameters hg) fun _ c₁ hc₁ => ?_
  refine hc₁.then (fun ctx c hc => (laysPast_parameters hg).lays _ c hc) fun _ c₂ hc₂ => ?_
  refine hc₂.then (lays_returnType hg _) fun _ c₃ hc₃ => ⟨fun _ => ?_, fun _ _ => ?_⟩
  · exact ensures_of_forall fun _ _ => ⟨_, _, _, _, _, rfl, .inr rfl⟩
  · exact ensures_of_forall fun _ _ => ⟨_, _, _, _, _, rfl, .inl rfl⟩

/-- A function expression covers all that was read of it, from its first word on. -/
theorem yields_functionExpression (hg : g.Sound src) :
    g.functionExpression.Yields dialect src := by
  intro c hc
  simp [functionExpression]
  refine hc.then laysPast_functionHead.lays fun flavour c₁ hc₁ => ?_
  refine hc₁.then ((lays_binding.within _).optional _) fun name c₂ hc₂ => ?_
  refine (covers_functionRest hg hc₂ _ flavour name).imp fun n c₃ h => ?_
  obtain ⟨stop, params, rest, parts, body, rfl, rfl | rfl⟩ := h
  · exact ⟨fun h => by simp [Node.isLoose] at h, trivial⟩
  · exact ⟨fun _ => rfl, trivial⟩

/-! ### Objects and arrays

The values are those of the members, each of which ends at a comma or at the bracket that closes the
object. For arrays nothing is asked of the elements. -/

/-- The scanner goes on behind a key. -/
theorem isScan_propertyKey (hg : g.Sound src) (hc : c.On src) :
    g.propertyKey.Ensures ctx c fun _ c' => c'.IsScan src := by
  have hnext := hc.isScan_next
  have hname : plainName.Ensures ctx c fun _ c' => c'.IsScan src := by
    simp only [plainName, ensures_bind, ensures_pure]
    exact ensures_anyName fun _ _ _ => hnext
  have hstring : string.Ensures ctx c fun _ c' => c'.IsScan src := by
    simp only [string, ensures_bind, ensures_token]
    split
    · simpa
    · exact ensures_reject
  simp [propertyKey]
  split
  · simpa
  · simpa
  · simpa
  · simpa
  · simp
    exact hc.next.then hg.assignment fun _ c₁ hc₁ _ => hc₁.isScan_next
  · simp

/-- A method is read with no word before its parameters: those were the key, or before it. -/
theorem isValue_method (hg : g.Sound src) (hc : c.IsScan src) (f : Flavour) :
    (g.method f).Ensures ctx c fun n _ => n.IsValue dialect src := by
  have hon := hc.on
  simp [method]
  refine ((covers_functionRest hg hon _ f []).and
    (opens_functionRest c.token.start f [])).imp fun n c₁ h => ?_
  obtain ⟨⟨stop, params, rest, parts, body, rfl, -⟩, hopen⟩ := h
  refine .method ?_
  rw [hon.suffixFrom_start]
  exact hc.opensParams hopen

/-- What follows a colon is read as an expression, and ends where the member does. -/
theorem hasValue_objectMember (hg : g.Yields dialect src) (hc : c.On src) :
    g.objectMember.Ensures { dialect } c fun n c' =>
      c'.token.isPunct .comma = true ∨ c'.token.isPunct .rcurly = true →
        n.HasValue dialect src := by
  simp [objectMember]
  refine ⟨fun _ => ?_, fun _ => ⟨fun _ _ => ?_, fun _ => ?_⟩⟩
  · simp [spread]
    exact fun _ => ensures_of_forall fun _ _ _ => trivial
  · simp [shorthand]
    refine ensures_identifier fun name _ hkind => ⟨fun _ => ?_, fun _ _ => .name⟩
    exact ensures_of_forall fun _ _ _ => trivial
  · refine hc.then lays_methodHead fun flavour c₁ hc₁ => ?_
    refine (isScan_propertyKey hg.sound hc₁).imp fun key c₂ hc₂ => ⟨fun _ => ?_, ?_⟩
    · exact (isValue_method hg.sound hc₂ flavour).imp fun _ _ h _ => h
    · intros
      exact (hg.isRead hc₂.on.isScan_next .rcurly).imp fun _ _ h hclose => .read (h hclose)

/-- What is known of each member is known of all. -/
theorem yields_object (hg : g.Yields dialect src) : g.object.Yields dialect src := by
  intro c hc
  have hmember : ∀ c, c.On src → g.objectMember.Ensures { dialect } c fun n c' => c'.On src ∧
      (c'.token.isPunct .comma = true ∨ c'.token.isPunct .rcurly = true →
        n.HasValue dialect src) := fun c hc =>
    ((lays_objectMember hg.sound _ c hc).and (hasValue_objectMember hg hc)).imp
      fun _ _ h => ⟨h.1.on, h.2⟩
  simp [object]
  intro _
  refine (ensures_listTo_closed hmember (fun _ hc _ => hc.next) hc.next).imp fun members c₁ h => ?_
  exact ⟨fun _ => rfl, h⟩

theorem yields_array : g.array.Yields dialect src := by
  intro c hc
  simp [array]
  exact fun _ => ensures_of_forall fun _ _ => ⟨fun _ => rfl, trivial⟩

/-! ### Single operands

Names and literals cover their token, and what has brackets of its own ends with the closing one. -/

theorem yields_regex : regex.Yields dialect src := by
  intro c hc
  simp [regex]
  split
  · simp
    exact ⟨fun _ => rfl, trivial⟩
  · simp

theorem yields_template (tagged : Bool) : (g.template tagged).Yields dialect src := by
  intro c hc
  simp [template]
  exact ensures_of_forall fun _ _ => ⟨fun _ => rfl, trivial⟩

/-- Parentheses cover themselves, and hold what stands inside. -/
theorem yields_parenthesized (hg : g.Yields dialect src) : g.parenthesized.Yields dialect src := by
  intro c hc
  simp [parenthesized]
  exact fun _ => (hg.expression c.next hc.next).imp fun inner c₁ h _ => ⟨fun _ => rfl, h.holds⟩

theorem yields_reference : reference.Yields dialect src := by
  intro c hc
  simp only [reference, ensures_bind, ensures_pure]
  exact ensures_identifier fun _ _ _ => ⟨fun _ => rfl, trivial⟩

/-- An operand that is one token. -/
theorem yield_leaf {n : Node} (hspan : n.span = ⟨c.token.start, c.token.stop⟩)
    (hholds : n.Holds dialect src) : n.Yield dialect src c.token.start c.next :=
  ⟨fun _ => hspan, hholds⟩

/-- One case for each kind of token, as the rule has them. Decorated classes are forms. -/
theorem yields_primary (hg : g.Yields dialect src) : g.primary.Yields dialect src := by
  intro c hc
  simp [primary]
  refine stays_atFunction.ensures fun isFunction =>
    ⟨fun _ => yields_functionExpression hg.sound c hc, fun _ => ?_⟩
  split
  · simp
    exact yield_leaf rfl trivial
  · simp
    exact yield_leaf rfl trivial
  · simp
    exact yield_leaf rfl trivial
  · exact yields_template false c hc
  · exact yields_array c hc
  · exact yields_object hg c hc
  · exact yields_parenthesized hg c hc
  · exact yields_regex c hc
  · exact yields_regex c hc
  · simp [classRule]
  · split
    · simp
      exact yield_leaf rfl trivial
    · simp
      exact yield_leaf rfl trivial
    · simp
      exact yield_leaf rfl trivial
    · simp
    · simp [classRule]
    · simp [superExpression]
    · simp [importExpression]
    · exact yields_reference c hc
  · exact yields_reference c hc

/-! ### Members and calls

A link is made around what was read before it, so that its stretch starts at the first token of the
operand and ends with the link. -/

/-- A private name makes a form, any other name a member. -/
theorem yield_namedMember {start : Nat} {base : Node} (ctx : Context) (c : Cursor) :
    (namedMember start base).Ensures ctx c fun n c' => n.Yield dialect src start c' := by
  simp [namedMember]
  split
  · simp
  · simp
    exact ensures_of_forall fun _ _ => ⟨fun _ => rfl, trivial⟩

/-- An argument starts where the scanner goes on. -/
theorem isRead_argument (hg : g.Yields dialect src) (hc : c.IsScan src) :
    g.argument.Ensures { dialect } c fun n c' =>
      c'.token.isPunct .comma = true ∨ c'.token.isPunct .rparen = true →
        (∃ span operand, n = .spread span operand) ∨ n.IsRead dialect src .rparen := by
  simp [argument]
  refine ⟨fun _ => ?_, fun _ => (hg.isRead hc .rparen).imp fun _ _ h hclose => .inr (h hclose)⟩
  simp [spread]

/-- The arguments of a call are read like the members of an object, up to a parenthesis. -/
theorem yields_callRest (hg : g.Yields dialect src) (start : Nat) (callee : Node)
    (types : List Node) (hc : c.On src) : (g.callRest start callee types).Ensures { dialect } c
      fun n c' => n.Yield dialect src start c' := by
  have hargument : ∀ c, c.IsScan src → g.argument.Ensures { dialect } c fun n c' => c'.On src ∧
      (c'.token.isPunct .comma = true ∨ c'.token.isPunct .rparen = true →
        (∃ span operand, n = .spread span operand) ∨ n.IsRead dialect src .rparen) := fun c hc =>
    ((lays_argument hg.sound _ c hc.on).and (isRead_argument hg hc)).imp fun _ _ h => ⟨h.1.on, h.2⟩
  simp [callRest, callArguments]
  intro _
  refine (ensures_listTo_closed hargument (fun _ hc _ => hc.isScan_next) hc.isScan_next).imp
    fun arguments c₁ h => ?_
  exact ⟨fun _ => rfl, h⟩

/-- A link behind `?.` is one of those, too. -/
theorem yields_optionalLink (hg : g.Yields dialect src) (start : Nat) (base : Node)
    (hc : c.On src) : (g.optionalLink start base).Ensures { dialect } c
      fun n c' => n.Yield dialect src start c' := by
  simp [optionalLink]
  refine ⟨fun _ => yields_callRest hg start base [] hc, fun _ => ?_⟩
  refine ⟨fun _ => by simp [computedMember], fun _ => ?_⟩
  refine ⟨fun _ _ => ?_, fun _ => yield_namedMember _ c⟩
  refine hc.then lays_splitAngles fun _ c₁ hc₁ => ?_
  exact hc₁.then (lays_typeArguments hg.sound) fun types c₂ hc₂ =>
    yields_callRest hg start base types hc₂

/-- By induction on the number of links, with the operand before them as what is extended. -/
theorem yields_links (hg : g.Yields dialect src) (calls : Bool) {c : Cursor} (n : Nat)
    (chained : Bool) {c₁ : Cursor} {base : Node} (h : Reach src c c₁ [base])
    (hyield : base.Yield dialect src c.token.start c₁) :
    (g.links c.token.start calls n chained base).Ensures { dialect } c₁ fun found c' =>
      found.1.Yield dialect src c.token.start c' := by
  induction n generalizing c₁ base chained with
  | zero => exact ensures_reject
  | succ n ih =>
    have hs := hg.sound
    -- a link lays its node and makes it of what it reads
    have hlink : ∀ {p : Parse Node} {d : Cursor} (linked : Bool),
        p.Ensures { dialect } d (fun m c' => Reach src c c' [m]) →
        p.Ensures { dialect } d (fun m c' => m.Yield dialect src c.token.start c') →
        p.Ensures { dialect } d fun m c' => (g.links c.token.start calls n linked m).Ensures
          { dialect } c' fun found c'' => found.1.Yield dialect src c.token.start c'' :=
      fun linked hp hyields => (hp.and hyields).imp fun _ _ hm => ih linked hm.1 hm.2
    have hnext := h.next.toReach
    simp [links]
    refine ⟨fun _ => ?_, fun _ => ?_⟩
    · exact hlink chained (ensures_namedMember hnext) (yield_namedMember _ _)
    refine ⟨fun _ _ => ?_, fun _ => ?_⟩
    · exact hlink true (ensures_optionalLink hs hnext) (yields_optionalLink hg _ _ hnext.on)
    refine ⟨fun _ => ?_, fun _ => ?_⟩
    · exact hlink chained (ensures_computedMember hs h) (by simp [computedMember])
    refine ⟨fun _ _ _ => ?_, fun _ => ?_⟩
    · exact ih chained (h.next.form .nonNull rfl).toReach (by simp)
    refine ⟨fun _ _ => ?_, fun _ => ?_⟩
    · exact h.then (lays_template hs true) fun text c₂ h =>
        ih chained ((h.pass (by simp)).form .other rfl).toReach (by simp)
    have hcall : ∀ {types : List Node} {d : Cursor}, Reach src c d (base :: types) →
        (g.callRest c.token.start base types).Ensures { dialect } d fun m c' =>
          (g.links c.token.start calls n chained m).Ensures { dialect } c' fun found c'' =>
            found.1.Yield dialect src c.token.start c'' :=
      fun hd => hlink chained (ensures_callRest hs hd) (yields_callRest hg _ _ _ hd.on)
    refine ⟨fun _ _ => hcall h, fun _ => ?_⟩
    refine ⟨fun _ _ => ensures_attempt ?_ (by simpa), fun _ => hyield⟩
    simp
    refine h.then (lays_expressionTypeArguments hs) fun types c₂ h =>
      ⟨fun _ _ => hcall h, fun _ => ?_⟩
    exact ih chained ((h.pass (by simp)).form .other rfl).toReach (by simp)

/-- What `new` makes is a form. -/
theorem yields_newExpression (n : Nat) : (g.newExpression n).Yields dialect src := by
  cases n with
  | zero => exact fun _ _ => ensures_reject
  | succ n =>
    intro c hc
    simp [newExpression, newRest]

/-- The links behind `new` or behind an operand. -/
theorem yields_accessRule (hg : g.Yields dialect src) : g.accessRule.Yields dialect src := by
  intro c hc
  simp [accessRule]
  have hlinks : ∀ {base : Node} {c₁ : Cursor}, Reach src c c₁ [base] →
      base.Yield dialect src c.token.start c₁ →
      (g.links c.token.start true c₁.bound false base).Ensures { dialect } c₁ fun found c' =>
        found.2 = false → found.1.Yield dialect src c.token.start c' := fun h hyield =>
    (yields_links hg true _ false h hyield).imp fun _ _ h _ => h
  refine ⟨fun _ => ?_, fun _ => ?_⟩
  · exact ((lays_newExpression hg.sound _ _ c hc).and (yields_newExpression _ c hc)).imp
      fun _ _ h =>
      hlinks h.1 h.2
  · exact ((lays_primary hg.sound _ c hc).and (yields_primary hg c hc)).imp fun _ _ h =>
      hlinks h.1 h.2

/-! ### Operators

Values go through operators only in one way: an object with a type behind it is still that object.
-/

/-- A unary operator covers its operand. Updates and casts are forms. -/
theorem yields_operandRule (hg : g.Yields dialect src) : g.operandRule.Yields dialect src := by
  intro c hc
  simp [operandRule]
  refine fun _ _ => ⟨?_, ?_⟩ <;> intros
  · exact ensures_of_forall fun _ _ => ⟨fun _ => rfl, trivial⟩
  refine ⟨?_, ?_⟩ <;> intros
  · refine (hg.element _ c).imp fun n c₁ h => ?_
    obtain ⟨kind, span, parts, rfl⟩ := h
    exact Node.yield_form
  exact (hg.access c hc).imp fun _ _ h _ => h

/-- The first operand may be read once more with right angles joined, which moves nothing. -/
theorem yields_operationRest (hg : g.Yields dialect src) (least : Nat) {c : Cursor} (n : Nat)
    {c₁ : Cursor} {left : Node} (hc₁ : c₁.On src)
    (hyield : left.Yield dialect src c.token.start c₁) :
    (g.operationRest c.token.start least n left).Ensures { dialect } c₁ fun n c' =>
      n.Yield dialect src c.token.start c' := by
  induction n generalizing c₁ left with
  | zero => exact ensures_reject
  | succ n ih =>
    have hjoin : joinAngles.Ensures { dialect } c₁ fun _ c₂ => c₂.lastStop = c₁.lastStop := by
      simp [joinAngles, Cursor.respell]
    simp [operationRest]
    refine ((lays_joinAngles _ c₁ hc₁).and hjoin).imp fun _ c₂ h => ?_
    have hleft := hyield.congr h.2
    refine ⟨?_, ?_⟩ <;> intros
    · refine h.1.on.next.then hg.sound.type fun type c₃ hc₃ => ih hc₃ ?_
      split
      · exact ⟨fun _ => rfl, hleft.holds⟩
      · exact ⟨fun _ => rfl, hleft.holds⟩
    · split
      · simpa
      · simp
        refine ⟨fun _ => hleft, ?_⟩
        intros
        refine h.1.on.next.then (hg.sound.operation _) fun right c₃ hc₃ => ?_
        constructor <;> intros <;> exact ih hc₃ (by simp)

/-- The left side grows with each operator, and what it grows to is a form, or has a type. -/
theorem yields_operationRule (hg : g.Yields dialect src) (least : Nat) :
    (g.operationRule least).Yields dialect src := by
  intro c hc
  simp [operationRule]
  split
  · simp
    refine hc.then lays_privateName fun name c₁ hc₁ _ => ?_
    exact hc₁.next.then (hg.sound.operation 8) fun right c₂ hc₂ =>
      yields_operationRest hg least _ hc₂ (by simp)
  · simp
    exact ((hg.sound.operand _ c hc).and (hg.operand c hc)).imp fun left c₁ h =>
      yields_operationRest hg least _ h.1.on h.2

/-! ### Functions by an arrow

An arrow covers its head, which was read before it was known to be one. -/

/-- The body is a block or an expression, and comes last. -/
theorem yields_arrowBody (ctx : Context) (c : Cursor) (head : ArrowHead) :
    (g.arrowBody head).Ensures ctx c fun n c' => n.Yield dialect src head.start c' := by
  simp [arrowBody]
  exact ⟨fun _ => ensures_of_forall fun _ _ => ⟨fun _ => rfl, trivial⟩,
    fun _ => ensures_of_forall fun _ _ => ⟨fun _ => rfl, trivial⟩⟩

theorem yields_parenthesizedArrow? (hg : g.Sound src) (hc : c.On src) :
    g.parenthesizedArrow?.Ensures { dialect } c fun found c' =>
      ∀ n, found = some n → n.Yield dialect src c.token.start c' := by
  have hhead : ∀ {c₁ head}, head.start = c.token.start →
      (g.arrowBody head).Ensures { dialect } c₁ fun n c' => n.Yield dialect src c.token.start c' :=
    fun hstart => hstart ▸ yields_arrowBody _ _ _
  simp [parenthesizedArrow?]
  refine stays_guessArrow.ensures fun guess => ?_
  split
  · simp
  · simp
    exact (ensures_arrowHead hg hc).imp fun head c₁ h => hhead h.1
  · simp
    refine ensures_attempt ?_ (by simp)
    refine (ensures_arrowHead hg hc).imp fun head c₁ h => ?_
    simp
    exact hhead h.1

/-- With the word `async` before it the head starts there. -/
theorem yields_asyncArrow? : g.asyncArrow?.Ensures { dialect } c fun found c' =>
    ∀ n, found = some n → n.Yield dialect src c.token.start c' := by
  simp [asyncArrow?]
  intros
  exact ensures_of_forall fun _ _ _ => yields_arrowBody _ _ _

/-! ### Whole expressions

The two ways to start an arrow are tried first, then an operation is read, and what follows it
decides: an arrow again, an assignment, or a choice. -/

/-- Without a question mark the operation is the expression. -/
theorem yields_choiceRest {c : Cursor} {condition : Node} {start : Nat}
    (hyield : condition.Yield dialect src start c) :
    (g.choiceRest start condition).Ensures { dialect } c fun n c' =>
      n.Yield dialect src start c' := by
  simp [choiceRest]
  exact fun _ => hyield

/-- Assignments are forms. -/
theorem yields_assignmentRest {c : Cursor} (start : Nat) (left : Node) :
    (g.assignmentRest start left).Ensures { dialect } c fun n c' =>
      n.Yield dialect src start c' := by
  simp [assignmentRest]
  split
  · simp
  · simp

/-- The arrows were tried from the first token on, and moved nothing if they were none. -/
theorem yields_assignmentRule (hg : g.Yields dialect src) :
    g.assignmentRule.Yields dialect src := by
  intro c hc
  have hs := hg.sound
  simp [assignmentRule]
  refine ((ensures_parenthesizedArrow? hs hc).and (yields_parenthesizedArrow? hs hc)).imp
    fun found d h => ?_
  obtain ⟨⟨-, hnone⟩, hsome⟩ := h
  split
  · simp
    exact hsome _ rfl
  obtain rfl := hnone rfl
  rw [ensures_bind]
  have harrow : g.asyncArrow?.Ensures { dialect } d fun found c' =>
      ∀ n, found = some n → n.Yield dialect src d.token.start c' := yields_asyncArrow?
  refine ((ensures_asyncArrow? hs hc).and harrow).imp fun found c h => ?_
  obtain ⟨⟨-, hnone⟩, hsome⟩ := h
  split
  · simp
    exact hsome _ rfl
  obtain rfl := hnone rfl
  simp
  refine (hg.operation 0 c hc).imp fun left c₁ h => ?_
  split
  · simp
    refine ⟨fun _ _ => yields_arrowBody _ _ _, fun _ => ?_⟩
    exact ⟨fun _ => yields_assignmentRest _ _, fun _ => yields_choiceRest h⟩
  · simp
    exact ⟨fun _ => yields_assignmentRest _ _, fun _ => yields_choiceRest h⟩

/-- A single expression has no commas behind it. -/
theorem yields_expressionRule (hg : g.Yields dialect src) :
    g.expressionRule.Yields dialect src := by
  intro c hc
  simp [expressionRule, separated]
  refine (hg.assignment c hc).imp fun first c₁ h => ?_
  cases c₁.bound with
  | zero => exact ensures_reject
  | succ n =>
    simp [separatedFuel]
    exact fun _ => h

/-- Markup is a form. -/
theorem form_elementRule (ctx : Context) (c : Cursor) :
    g.elementRule.Ensures ctx c fun n _ => ∃ kind span parts, n = .form kind span parts := by
  simp [elementRule, tagEnd]

theorem yields_exhausted : exhausted.Yields dialect src where
  sound := sound_exhausted
  level := ⟨0, rfl⟩
  expression _ _ := ensures_reject
  assignment _ _ := ensures_reject
  operation _ _ _ := ensures_reject
  operand _ _ := ensures_reject
  access _ _ := ensures_reject
  element _ _ := ensures_reject

/-- What the rules at one level make is as said if it is so for those they refer to. -/
theorem Yields.unfold (hg : g.Yields dialect src) : g.unfold.Yields dialect src where
  sound := hg.sound.unfold
  level := by
    obtain ⟨n, hn⟩ := hg.level
    exact ⟨n + 1, by rw [hn, upTo]⟩
  expression := yields_expressionRule hg
  assignment := yields_assignmentRule hg
  operation := yields_operationRule hg
  operand := yields_operandRule hg
  access := yields_accessRule hg
  element := form_elementRule

theorem yields_upTo (n : Nat) : (upTo n).Yields dialect src := by
  induction n with
  | zero => exact yields_exhausted
  | succ n ih => exact ih.unfold

/-! ### Statements

Only a default export holds a value that something is asked of, and only an import is asked
something itself. -/

theorem holds_variableStatement (single : Bool) :
    (g.variableStatement single).Ensures ctx c fun n _ => n.Holds dialect src := by
  simp [variableStatement, variableDeclaration]

/-- Loops are forms, whichever of the two. -/
theorem holds_forStatement : g.forStatement.Ensures ctx c fun n _ => n.Holds dialect src := by
  have hcounting : ∀ start first ctx c,
      (g.countingLoop start first).Ensures ctx c fun n _ => n.Holds dialect src := by
    simp [countingLoop]
  have hwalking : ∀ start first ctx c,
      (g.walkingLoop start first).Ensures ctx c fun n _ => n.Holds dialect src := by
    simp [walkingLoop]
  simp [forStatement, hcounting, hwalking]
  constructor
  all_goals
    intros
    refine ensures_of_forall fun value c₁ => ?_
    intros
    split <;> simp [hwalking]

theorem holds_expressionOrLabelled :
    g.expressionOrLabelled.Ensures ctx c fun n _ => n.Holds dialect src := by
  simp [expressionOrLabelled]
  refine ensures_of_forall fun n _ => ?_
  split <;> simp [expressionStatementRest]

theorem holds_letStatement (single : Bool) :
    (g.letStatement single).Ensures ctx c fun n _ => n.Holds dialect src := by
  simp [letStatement, holds_variableStatement, holds_expressionOrLabelled]

/-- No declaration is a node that anything is asked of. -/
theorem holds_plainDeclaration (start : Nat) (decorators : List Node) :
    (g.plainDeclaration start decorators).Ensures ctx c fun n _ => n.Holds dialect src := by
  simp [plainDeclaration, classRule, functionDeclaration, enumeration, typeAlias, Grammar.interface,
    namespaceDeclaration, importEquals, holds_variableStatement]

/-- Where a node starts is of no concern here. -/
theorem holds_startingAt_iff {n : Node} {start : Nat} :
    (n.startingAt start).Holds dialect src ↔ n.Holds dialect src := by
  cases n <;> rfl

theorem holds_typedDeclaration (decorators : List Node) :
    (g.typedDeclaration decorators).Ensures ctx c fun n _ => n.Holds dialect src := by
  simp [typedDeclaration, holds_startingAt_iff, holds_plainDeclaration]

/-- The rule for imports makes an import or a form. -/
theorem holds_of_isImport {n : Node} (h : n.IsImport dialect src) : n.Holds dialect src := by
  have hnode : ∀ ctx c, importDeclaration.Ensures ctx c fun n _ =>
      (∃ span specifiers parts, n = .importDeclaration span specifiers parts) ∨
        ∃ kind span parts, n = .form kind span parts := by
    simp [importDeclaration, importEquals]
  have himport := h
  obtain ⟨c, c', -, -, -, -, hrun⟩ := himport
  rcases hnode _ _ _ _ hrun with ⟨_, _, _, rfl⟩ | ⟨_, _, _, rfl⟩
  · exact h
  · trivial

/-- The value of a default export is read without commas. -/
theorem holds_exportDefault (hg : g.Yields dialect src) (hc : c.On src) (start : Nat) :
    (g.exportDefault start).Ensures { dialect } c fun n _ => n.Holds dialect src := by
  simp [exportDefault, Node.Holds, classRule, Grammar.interface, functionDeclaration]
  refine hc.then (lays_decorators hg.sound) fun decorators c₁ hc₁ => ?_
  refine stays_atFunction.ensures fun isFunction => ?_
  intros
  exact (hg.assignment c₁ hc₁).imp fun n c₂ h => ensures_of_forall fun _ _ => h.holds

/-- Of the exports only the default one holds a value. -/
theorem holds_exportDeclaration (hg : g.Yields dialect src) (hc : c.On src)
    (decorators : List Node) :
    (g.exportDeclaration decorators).Ensures { dialect } c fun n _ => n.Holds dialect src := by
  simp [exportDeclaration, exportAll, exportBraces, Node.Holds]
  exact fun _ => holds_exportDefault hg hc.next.next _

/-- An import is reached with the word `import` on the cursor and neither a dot nor a parenthesis
behind it, and is then read by its rule. -/
theorem holds_statementRule (hg : g.Yields dialect src) (hc : c.On src) (single : Bool) :
    (g.statementRule single).Ensures { dialect } c fun n _ => n.Holds dialect src := by
  simp [statementRule, block, ifStatement, whileStatement, doStatement, jumpStatement,
    switchStatement, throwStatement, tryStatement, returnStatement, classRule, functionDeclaration,
    holds_forStatement, holds_variableStatement, holds_letStatement, holds_expressionOrLabelled,
    holds_typedDeclaration]
  refine hc.then (lays_decorators hg.sound) fun decorators c₁ hc₁ => ?_
  iterate 13 refine fun _ => ?_
  refine ⟨fun _ => holds_exportDeclaration hg hc₁ decorators, fun _ _ _ _ => ?_⟩
  refine stays_atUsing.ensures fun _ _ => stays_atFunction.ensures fun _ _ _ => ?_
  exact fun himport hdot hparen n c' hrun =>
    holds_of_isImport ⟨c₁, c', hc₁, himport, hdot, hparen, hrun⟩

end Grammar

/-- What the default exports of a script hold is read as expressions, and its imports as imports. -/
theorem Program.holds_of_parse? {source : String} {program : Program}
    (h : parse? dialect source = some program) {n : Node} (hn : n ∈ program.statements) :
    n.Holds dialect source.toList := by
  obtain ⟨c', hrun⟩ := rule_of_parse? h
  have hitem : ∀ m c, c.On source.toList →
      ((Grammar.upTo (m + 1)).statement false).Ensures { dialect } c fun n c' =>
        c'.On source.toList ∧ n.Holds dialect source.toList := fun m c hc =>
    (((Grammar.sound_upTo (m + 1)).statement false _ c hc).and
      (Grammar.holds_statementRule (Grammar.yields_upTo m) hc false)).imp fun _ _ h => ⟨h.1.on, h.2⟩
  have hrule : ∀ m c, c.On source.toList → (rule (Grammar.upTo (m + 1))).Ensures { dialect } c
      fun program _ => ∀ n ∈ program.statements, n.Holds dialect source.toList := by
    intro m c hc
    simp [rule, Grammar.directivesAndStatements]
    refine (ensures_until? (hitem m) (fun ctx c => by simp) hc).imp fun statements _ hall n hn => ?_
    exact hall.2 n ((List.dropWhile_suffix _).subset hn)
  exact hrule _ _ (on_firstCursor source) _ _ hrun n hn

end VueSetup.Script
