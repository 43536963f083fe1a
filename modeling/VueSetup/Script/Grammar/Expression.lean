import VueSetup.Script.Grammar.Class

/-!
# VueSetup.Script.Grammar.Expression

Expressions, from single operands up to lists with commas.

An opening parenthesis may start an expression or the parameters of a function. Where the tokens
behind it do not tell, the parameters are tried first (`parenthesizedArrow?`). In the same way `<`
behind an operand is tried as the start of arguments that are types.
-/

namespace VueSetup.Script.Grammar

open Parse

variable (g : Grammar)

/-! ### Operators -/

/-- How tightly the operator at the cursor binds, if it stands between two operands. -/
def precedence? (t : Token) : Option Nat :=
  match t.kind with
  | .punct p =>
    match p with
    | .coalesce => some 1
    | .pipePipe => some 2
    | .ampAmp => some 3
    | .pipe => some 4
    | .caret => some 5
    | .amp => some 6
    | .eqEq | .notEq | .eqEqEq | .notEqEq => some 7
    | .lt | .gt | .ltEq | .gtEq => some 8
    | .shl | .shr | .ushr => some 9
    | .plus | .minus => some 10
    | .star | .slash | .percent => some 11
    | .power => some 12
    | _ => none
  | .word "in" false | .word "instanceof" false => some 8
  | _ => none

/-- The token can start an expression. -/
def startsExpression (t : Token) : Bool :=
  match t.kind with
  | .word _ _ => t.isIdentifier || t.isOneOf ["this", "super", "null", "true", "false", "new",
      "function", "class", "delete", "typeof", "void", "import", "in", "instanceof"]
  | .number | .bigint | .string _ | .template _ _ | .privateName _ => true
  | .punct p =>
    (precedence? t).isSome ||
      [Punct.lparen, .lbrack, .lcurly, .bang, .tilde, .plusPlus, .minusMinus, .slashEq,
        .atSign].contains p
  | _ => false

/-! ### Objects and arrays -/

/-- Three dots and what they spread. -/
def spread : Parse Node := do
  let start ← start
  expect .ellipsis
  let operand ← bracketed g.assignment
  return .spread (← spanFrom start) operand

/-- An element of an array, which may be left empty. -/
def arrayElement : Parse Node := do
  if ← at? .comma then hole
  else if ← at? .ellipsis then spread g
  else bracketed g.assignment

/-- An array. -/
def array : Parse Node := do
  let start ← start
  expect .lbrack
  let elements ← listTo .rbrack (arrayElement g)
  return .array (← spanFrom start) elements

/-- A member of an object that is only a name, with a value to fall back on in a target. -/
def shorthand : Parse Node := do
  let start ← start
  let (span, name) ← identifier
  let key : Node := .plainName span name
  if ← eat? .eq then
    let value ← bracketed g.assignment
    return .form .coverDefault (← spanFrom start) [.reference span name, value]
  else return .property (← spanFrom start) false key (.reference span name)

/-- A member of an object. -/
def objectMember : Parse Node := do
  let start ← start
  if ← at? .ellipsis then spread g
  else
    let t ← token
    let next ← peek
    if t.isName && (next.isPunct .comma || next.isPunct .rcurly || next.isPunct .eq) then
      shorthand g
    else
      let isAccessor := t.isOneOf ["get", "set"] && next.isMemberStart
      let flavour ← methodHead
      let (computed, key) ← propertyKey g
      if isAccessor || flavour.isAsync || flavour.isGenerator || (← at? .lparen) || (← at? .lt) then
        let value ← method g flavour
        return .property (← spanFrom start) computed key value
      else
        expect .colon
        let value ← bracketed g.assignment
        return .property (← spanFrom start) computed key value

/-- An object. -/
def object : Parse Node := do
  let start ← start
  expect .lcurly
  let members ← listTo .rcurly (objectMember g)
  return .object (← spanFrom start) members

/-! ### Single operands -/

/-- A regular expression, read again from its slash. -/
def regex : Parse Node := do
  let c ← get
  match scanRegex? (c.here.drop 1) with
  | some body =>
    let stop := c.token.start + 1 + body.size
    moveTo stop body.rest
    return .literal ⟨c.token.start, stop⟩ .regex
  | none => reject

/-- A template. Improper escapes are for tagged templates only. -/
def template (tagged : Bool) : Parse Node := do
  let start ← start
  let embedded ← templateRule (bracketed g.expression) (!tagged)
  return .template (← spanFrom start) embedded

/-- An expression in parentheses. -/
def parenthesized : Parse Node := do
  let start ← start
  expect .lparen
  let inner ← bracketed g.expression
  expect .rparen
  return .paren (← spanFrom start) inner

/-- An argument of a call. -/
def argument : Parse Node := do
  if ← at? .ellipsis then spread g else bracketed g.assignment

/-- Arguments of a call, in parentheses. -/
def callArguments : Parse (List Node) := do
  expect .lparen
  listTo .rparen (argument g)

/-- What a module is loaded by, in parentheses: its source, and settings if there are any. -/
def importArguments : Parse (List Node) := do
  expect .lparen
  let arguments ← listTo .rparen (bracketed g.assignment)
  require (arguments.length == 1 || arguments.length == 2)
  return arguments

/-- A module loaded while running, or what the module knows about itself. -/
def importExpression : Parse Node := do
  let start ← start
  advance
  let word ← optional (← eat? .dot) plainName
  let arguments ← if word.isEmpty || (← at? .lparen) then importArguments g else pure []
  return .form .other (← spanFrom start) (word ++ arguments)

/-- The members of a base class. -/
def superExpression : Parse Node := do
  let start ← start
  advance
  let t ← token
  require (t.isPunct .dot || t.isPunct .lbrack || t.isPunct .lparen)
  return .form .other (← spanFrom start) []

/-- An operand without members and calls, `new` apart. -/
def primary : Parse Node := do
  let t ← token
  let span : Span := ⟨t.start, t.stop⟩
  let leaf (node : Node) : Parse Node := do
    advance
    return node
  if ← atFunction then functionExpression g
  else
    match t.kind with
    | .number => leaf (.literal span .number)
    | .bigint => leaf (.literal span .bigint)
    | .string value => leaf (.string span value)
    | .template _ _ => template g false
    | .punct .lbrack => array g
    | .punct .lcurly => object g
    | .punct .lparen => parenthesized g
    | .punct .slash | .punct .slashEq => regex
    | .punct .atSign =>
      let decorators ← decorators g
      classRule g true decorators
    | .word name false =>
      match name with
      | "null" => leaf (.literal span .null)
      | "true" => leaf (.boolean span true)
      | "false" => leaf (.boolean span false)
      | "this" => leaf (.form .other span [])
      | "class" => classRule g true []
      | "super" => superExpression
      | "import" => importExpression g
      | _ => reference
    | _ => reference

/-! ### Members and calls -/

/-- Arguments that are types, behind an operand. What follows must not make them a comparison. -/
def expressionTypeArguments : Parse (List Node) := do
  splitAngles
  expect .lt
  let types ← if ← at? .gt then pure [] else separated .comma g.type
  let c ← get
  require (!(['>', '='].isPrefixOf c.here))
  expect .gt
  let t ← token
  let follows :=
    if t.isPunct .lparen || t.isTemplate then true
    else if [Punct.lt, .gt, .plus, .minus].any t.isPunct then false
    else t.afterLineEnd || (precedence? t).isSome || !startsExpression t
  require follows
  return types

/-- A member by its name, from behind the dot. -/
def namedMember (start : Nat) (base : Node) : Parse Node := do
  match (← token).kind with
  | .privateName _ =>
    let name ← privateName
    return .form .index (← spanFrom start) [base, name]
  | _ =>
    let (_, name) ← anyName
    return .member (← spanFrom start) base name

/-- A member by a computed key. -/
def computedMember (start : Nat) (base : Node) : Parse Node := do
  expect .lbrack
  let key ← bracketed g.expression
  expect .rbrack
  return .form .index (← spanFrom start) [base, key]

/-- A call, with the arguments that are types already read. -/
def callRest (start : Nat) (callee : Node) (types : List Node) : Parse Node := do
  let arguments ← callArguments g
  return .call (← spanFrom start) callee types arguments

/-- What stands behind an optional link: a member or a call. -/
def optionalLink (start : Nat) (base : Node) : Parse Node := do
  let t ← token
  if t.isPunct .lparen then callRest g start base []
  else if t.isPunct .lbrack then computedMember g start base
  else if (← hasTypes) && (t.isPunct .lt || t.isPunct .shl) then
    splitAngles
    let types ← typeArguments g
    callRest g start base types
  else namedMember start base

/-- Members and calls behind an operand, as far as they go. With `calls` off, calls and optional
links are left to the caller. The flag that comes back tells of an optional link. -/
def links (start : Nat) (calls : Bool) : Nat → Bool → Node → Parse (Node × Bool)
  | 0, _, _ => reject
  | n + 1, chained, base => do
    let t ← token
    let ctx ← read
    if t.isPunct .dot then
      advance
      links start calls n chained (← namedMember start base)
    else if t.isPunct .questionDot then
      require calls
      advance
      links start calls n true (← optionalLink g start base)
    else if t.isPunct .lbrack && !ctx.inDecorator then
      links start calls n chained (← computedMember g start base)
    else if t.isPunct .bang && ctx.dialect.types && !t.afterLineEnd then
      advance
      links start calls n chained (.form .nonNull (← spanFrom start) [base])
    else if t.isTemplate then
      require (!chained)
      let text ← template g true
      links start calls n chained (.form .other (← spanFrom start) [base, text])
    else if t.isPunct .lparen && calls then
      links start calls n chained (← callRest g start base [])
    else if ctx.dialect.types && (t.isPunct .lt || t.isPunct .shl) then
      match ← attempt (expressionTypeArguments g) with
      | some types =>
        if (← at? .lparen) && calls then
          links start calls n chained (← callRest g start base types)
        else
          links start calls n chained (.form .other (← spanFrom start) (base :: types))
      | none => return (base, chained)
    else return (base, chained)

/-- An object made by `new`, from behind the operand that its callee starts with. -/
def newRest (start calleeStart : Nat) (base : Node) : Parse Node := do
  let (callee, _) ← links g calleeStart false (← bound) false base
  let arguments ← if ← at? .lparen then callArguments g else pure []
  return .form .other (← spanFrom start) (callee :: arguments)

/-- An object made by `new`. -/
def newExpression : Nat → Parse Node
  | 0 => reject
  | n + 1 => do
    let start ← start
    expectWord "new"
    if ← eat? .dot then
      let word ← plainName
      return .form .other (← spanFrom start) [word]
    else
      let calleeStart ← Parse.start
      if ← atWord? "new" then newRest g start calleeStart (← newExpression n)
      else if ← atWord? "import" then reject
      else newRest g start calleeStart (← primary g)

/-- An operand with its members and calls. One with an optional link is neither a call nor a member
to what stands around it. -/
def accessRule : Parse Node := do
  let start ← start
  let base ← if ← atWord? "new" then newExpression g (← bound) else primary g
  let (node, chained) ← links g start true (← bound) false base
  if chained then return .form .other (← spanFrom start) [node] else return node

/-! ### Operators before and behind an operand -/

/-- Read an expression as a target that is not taken apart. -/
def simpleTarget (node : Node) : Parse Node := do
  match node.toSimpleTarget? with
  | some target => return target
  | none => reject

/-- An operand with the operators before and behind it. -/
def operandRule : Parse Node := do
  let start ← start
  let t ← token
  let ctx ← read
  if t.isPunct .plusPlus || t.isPunct .minusMinus then
    advance
    let target ← simpleTarget (← g.operand)
    return .form .other (← spanFrom start) [target]
  else if [Punct.plus, .minus, .tilde, .bang].any t.isPunct ||
      t.isOneOf ["typeof", "void", "delete"] then
    advance
    let operand ← g.operand
    return .unary (← spanFrom start) (t.isPunct .minus) operand
  else if t.isPunct .lt && ctx.dialect.markup then
    let element ← g.element
    advance
    return element
  else if t.isPunct .lt && ctx.dialect.types then
    advance
    let type ← g.type
    expect .gt
    let operand ← g.operand
    return .form .assertion (← spanFrom start) [type, operand]
  else if t.isWord "await" && ctx.allowsAwait then
    advance
    let operand ← g.operand
    return .form .await (← spanFrom start) [operand]
  else
    let operand ← g.access
    let t ← token
    if (t.isPunct .plusPlus || t.isPunct .minusMinus) && !t.afterLineEnd then
      advance
      let target ← simpleTarget operand
      return .form .other (← spanFrom start) [target]
    else return operand

/-! ### Operators between operands -/

/-- The operand of a power must not start with an operator of its own. -/
def isPrefixed : Node → Bool
  | .unary _ _ _ => true
  | .form .await _ _ => true
  | .form .assertion _ _ => true
  | _ => false

/-- A coalescing operation does not mix with other logical ones, nor these with it. -/
def mixesWith (isCoalesce : Bool) : Node → Bool
  | .form .coalesce _ _ => !isCoalesce
  | .form .logic _ _ => isCoalesce
  | _ => false

/-- The operators behind a first operand that bind tighter than `least`. -/
def operationRest (start : Nat) (least : Nat) : Nat → Node → Parse Node
  | 0, _ => reject
  | n + 1, left => do
    joinAngles
    let t ← token
    let ctx ← read
    if ctx.dialect.types && t.isOneOf ["as", "satisfies"] && least < 8 && !t.afterLineEnd then
      advance
      let type ← g.type
      let span ← spanFrom start
      operationRest start least n
        (if t.isWord "as" then .asType span left type else .satisfies span left type)
    else
      match precedence? t with
      | none => return left
      | some level =>
        let stops := if t.isPunct .power then level < least else level ≤ least
        if stops || (t.isWord "in" && !ctx.allowsIn) then return left
        else
          require (!(t.isPunct .power && isPrefixed left))
          advance
          let right ← g.operation level
          let isCoalesce := t.isPunct .coalesce
          let isLogic := t.isPunct .pipePipe || t.isPunct .ampAmp
          if isCoalesce || isLogic then
            require (!(mixesWith isCoalesce left) && !(mixesWith isCoalesce right))
          let form := if isCoalesce then Form.coalesce else if isLogic then Form.logic
            else Form.other
          operationRest start least n (.form form (← spanFrom start) [left, right])

/-- An expression of operators that bind tighter than `least`. -/
def operationRule (least : Nat) : Parse Node := do
  let start ← start
  let t ← token
  match t.kind with
  | .privateName _ =>
    require (← read).allowsIn
    let name ← privateName
    expectWord "in"
    let right ← g.operation 8
    operationRest g start least (← bound) (.form .other (← spanFrom start) [name, right])
  | _ =>
    let left ← g.operand
    operationRest g start least (← bound) left

/-! ### Functions by an arrow -/

/-- What can be told of a parenthesis, or of an angle bracket, from the tokens behind it. -/
inductive ArrowGuess where
  | yes
  | no
  | maybe
  deriving DecidableEq, Repr

/-- Words that modify a declaration. -/
def modifierWords : List String :=
  ["abstract", "accessor", "const", "declare", "export", "in", "out", "override", "private",
    "protected", "public", "readonly", "static"]

/-- What follows an opening parenthesis tells whether it opens parameters. -/
def guessAfterParen : Parse ArrowGuess := do
  let t ← token
  let next ← peek
  if t.isPunct .rparen then
    return if [Punct.colon, .lcurly, .arrow].any next.isPunct then .yes else .no
  else if t.isPunct .ellipsis then
    return if next.isLiteral then .no else if next.isName then .yes else .maybe
  else if t.isPunct .lbrack || t.isPunct .lcurly then return .maybe
  else if t.isOneOf modifierWords && next.isIdentifier then
    return if next.isWord "as" then .no else .yes
  else if !(t.isIdentifier || t.isWord "this") then return .no
  else if next.isPunct .colon then return .yes
  else if next.isPunct .question then
    let second ← peekSecond
    return if [Punct.colon, .comma, .eq, .rparen].any second.isPunct then .yes else .no
  else if [Punct.comma, .eq, .rparen].any next.isPunct then return .maybe
  else return .no

/-- What follows an opening angle bracket tells whether it opens parameters that are types. -/
def guessAfterAngle : Parse ArrowGuess := do
  let t ← token
  if !(t.isIdentifier || t.isWord "const") then return .no
  else if ← hasMarkup then
    if t.isWord "const" then advance
    let next ← peek
    let second ← peekSecond
    if next.isWord "extends" then
      return if [Punct.eq, .gt, .slash].any second.isPunct then .no else .yes
    else return if next.isPunct .comma || next.isPunct .eq then .yes else .no
  else return .maybe

/-- Whether a function by an arrow with parentheses starts here. -/
def guessArrow : Parse ArrowGuess := do
  let t ← token
  let next ← peek
  let starts := t.isPunct .lparen || (t.isPunct .lt && (← hasTypes)) ||
    (t.isWord "async" && !next.afterLineEnd &&
      (next.isPunct .lparen || (next.isPunct .lt && (← hasTypes))))
  if starts then
    let guess ← ahead do
      discard (eatWord? "async")
      if ← eat? .lparen then guessAfterParen
      else
        advance
        guessAfterAngle
    return guess.getD .no
  else return .no

/-- A function by an arrow, up to and with the arrow. -/
structure ArrowHead where
  start : Nat
  isAsync : Bool
  params : Parameters
  parts : List Node

/-- Parameters in parentheses and the arrow behind them. -/
def arrowHead : Parse ArrowHead := do
  let start ← start
  let isAsync ← eatWord? "async"
  let widen (c : Context) : Context :=
    { c with allowsAwait := c.allowsAwait || isAsync, allowsIn := true, inDecorator := false }
  let types ← typeParameters g
  let params ← within widen (parameters g)
  require params.receiver.isEmpty
  let result ← returnType g .colon
  require (!(← token).afterLineEnd)
  expect .arrow
  return ⟨start, isAsync, params, types ++ result⟩

/-- The body of a function by an arrow: a block or an expression. -/
def arrowBody (head : ArrowHead) : Parse Node := do
  let flavour : Flavour := ⟨head.isAsync, false⟩
  let body ←
    if ← at? .lcurly then functionBody g flavour
    else within flavour.context g.assignment
  return .arrow (← spanFrom head.start) head.params.items head.params.rest head.parts body

/-- A function by an arrow with parentheses, if one starts here. -/
def parenthesizedArrow? : Parse (Option Node) := do
  match ← guessArrow with
  | .no => return none
  | .yes => return some (← arrowBody g (← arrowHead g))
  | .maybe =>
    match ← attempt (arrowHead g) with
    | some head => return some (← arrowBody g head)
    | none => return none

/-- A function by an arrow with one plain parameter and `async` before it, if one starts here. -/
def asyncArrow? : Parse (Option Node) := do
  let t ← token
  let next ← peek
  let second ← peekSecond
  if t.isWord "async" && next.isIdentifier && !next.afterLineEnd && second.isPunct .arrow &&
      !second.afterLineEnd then
    let start ← start
    advance
    let param ← within ({ · with allowsAwait := true }) binding
    expect .arrow
    return some (← arrowBody g ⟨start, true, ⟨[param], [], []⟩, []⟩)
  else return none

/-! ### Whole expressions -/

/-- What a generator hands out. -/
def yieldExpression : Parse Node := do
  let start ← start
  advance
  let t ← token
  if t.afterLineEnd then return .form .other (← spanFrom start) []
  else
    let delegates ← eat? .star
    let t ← token
    let ends := t.kind == .endOfText || t.isWord "in" || t.isWord "of" ||
      [Punct.semicolon, .rcurly, .rbrack, .rparen, .colon, .comma].any t.isPunct
    let value ← optional (delegates || !ends) g.assignment
    return .form .other (← spanFrom start) value

/-- A choice by a condition, from behind the condition. -/
def choiceRest (start : Nat) (condition : Node) : Parse Node := do
  if ← eat? .question then
    let yes ← within ({ · with allowsIn := true }) g.assignment
    expect .colon
    let no ← g.assignment
    return .form .other (← spanFrom start) [condition, yes, no]
  else return condition

/-- An assignment, from its operator on. -/
def assignmentRest (start : Nat) (left : Node) : Parse Node := do
  let plain ← at? .eq
  let target := if plain then left.toTarget? else left.toSimpleTarget?
  match target with
  | none => reject
  | some target =>
    advance
    let value ← g.assignment
    let form := if plain then Form.assignment else Form.other
    return .form form (← spanFrom start) [target, value]

/-- An expression without commas. -/
def assignmentRule : Parse Node := do
  let t ← token
  if t.isWord "yield" && (← read).allowsYield then yieldExpression g
  else
    match ← parenthesizedArrow? g with
    | some arrow => return arrow
    | none =>
      match ← asyncArrow? g with
      | some arrow => return arrow
      | none =>
        let start ← start
        let left ← g.operation 0
        let t ← token
        match left with
        | .reference span name =>
          if t.isPunct .arrow then
            require (!t.afterLineEnd)
            advance
            arrowBody g ⟨start, false, ⟨[.binding span name []], [], []⟩, []⟩
          else if t.isAssignment then assignmentRest g start left
          else choiceRest g start left
        | left =>
          if t.isAssignment then assignmentRest g start left
          else choiceRest g start left

/-- Expressions with commas between them. -/
def expressionRule : Parse Node := do
  let start ← start
  match ← separated .comma g.assignment with
  | [single] => return single
  | several => return .form .other (← spanFrom start) several

end VueSetup.Script.Grammar
