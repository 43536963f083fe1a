import VueSetup.Script.Grammar.Pattern

/-!
# VueSetup.Script.Grammar.Type

Types, in scripts that have them: from conditional types down to names, with the members of object
types, and the parameters and arguments that are types.
-/

namespace VueSetup.Script.Grammar

open Parse

variable (g : Grammar)

/-! ### Names, parameters and arguments -/

/-- A name that may be qualified. The first part is a use of that name. -/
def typeName : Parse Node := do
  let start ← start
  let (span, name) ← anyName
  let rec qualify : Nat → Node → Parse Node
    | 0, _ => reject
    | n + 1, left => do
      if ← eat? .dot then
        let right ← plainName
        qualify n (.form .other (← spanFrom start) [left, right])
      else return left
  qualify (← bound) (.reference span name)

/-- Names behind dots, as far as they go. -/
def dottedNames : Parse (List Node) :=
  until? (return !(← at? .dot)) do
    advance
    plainName

/-- Arguments that are types, in angle brackets. -/
def typeArguments : Parse (List Node) := do
  expect .lt
  listTo .gt (within ({ · with allowsConditional := true }) g.type)

/-- Arguments that are types behind the name of a type on the same line, if there are any. -/
def typeArgumentsHere : Parse (List Node) := do
  splitAngles
  if (← at? .lt) && !(← token).afterLineEnd then typeArguments g else return []

/-- A type by its name. -/
def typeReference : Parse Node := do
  let start ← start
  let name ← typeName
  let arguments ← typeArgumentsHere g
  return .typeReference (← spanFrom start) name arguments

/-- A parameter that is a type. -/
def typeParameter : Parse Node := do
  let start ← start
  let stop : Parse Bool := do
    let next ← peek
    return !((← token).isOneOf ["const", "in", "out"] &&
      (next.isIdentifier || next.isOneOf ["const", "in"]))
  discard (until? stop advance)
  let name ← binding
  let bound ← optional (← eatWord? "extends") g.type
  let default ← optional (← eat? .eq) g.type
  return .form .other (← spanFrom start) (name :: bound ++ default)

/-- Parameters that are types, in angle brackets, if there are any. -/
def typeParameters : Parse (List Node) := do
  if (← hasTypes) && (← at? .lt) then
    advance
    listTo .gt (within ({ · with allowsConditional := true }) (typeParameter g))
  else return []

/-- A type, or a statement about a parameter's type, behind the parameters of a function. -/
def typeOrPredicate : Parse Node := do
  let start ← start
  let claim : Parse Node := do
    require (← token).isIdentifier
    let name ← plainName
    require ((← atWord? "is") && !(← token).afterLineEnd)
    advance
    return name
  match ← attempt claim with
  | some name =>
    let type ← g.type
    return .form .other (← spanFrom start) [name, type]
  | none => g.type

/-- What a function gives back, behind the given punctuation. -/
def returnType (mark : Punct) : Parse (List Node) := do
  if (← hasTypes) && (← at? mark) then
    advance
    one (within ({ · with allowsConditional := true }) (typeOrPredicate g))
  else return []

/-- Parameters of a function that is only described, as one list. -/
def signatureParameters : Parse (List Node) := do
  let params ← parameters g
  return params.receiver ++ params.items ++ params.rest

/-! ### Members of object types -/

/-- A member ends at a comma or as a statement does. -/
def endTypeMember : Parse Unit := do
  unless ← eat? .comma do endStatement

/-- A description of a function: its parameters and what it gives back. -/
def signature (start : Nat) : Parse Node := do
  let types ← typeParameters g
  let params ← signatureParameters g
  let result ← returnType g .colon
  return .form .other (← spanFrom start) (types ++ params ++ result)

/-- The text goes on with a description of an index, such as `[key: string]`. -/
def atIndexSignature : Parse Bool := do
  if ← at? .lbrack then
    let first ← peek
    let second ← peekSecond
    return first.isIdentifier && second.isPunct .colon
  else return false

/-- A description of an index. -/
def indexSignature : Parse Node := do
  let start ← start
  expect .lbrack
  let name ← plainName
  let key ← typeAnnotation g
  discard (eat? .comma)
  expect .rbrack
  let type ← typeAnnotation g
  return .form .other (← spanFrom start) (name :: key ++ type)

/-- Pass a word that modifies a member, on the same line as the member. -/
def skipMemberWord (words : List String) : Parse Unit := do
  let t ← token
  let next ← peek
  if t.isOneOf words && next.isMemberStart && !next.afterLineEnd then advance

/-- A member of an object type that has a name, or describes an index. -/
def namedTypeMember : Parse Node := do
  let start ← start
  skipMemberWord ["readonly"]
  if ← atIndexSignature then indexSignature g
  else
    skipMemberWord ["get", "set"]
    let (_, key) ← propertyKey g
    discard (eat? .question)
    if (← at? .lparen) || (← at? .lt) then
      let rest ← signature g (← Parse.start)
      return .form .other (← spanFrom start) [key, rest]
    else
      let type ← typeAnnotation g
      return .form .other (← spanFrom start) (key :: type)

/-- A member of an object type. -/
def typeMember : Parse Node := do
  let start ← start
  let t ← token
  let next ← peek
  let member ←
    if t.isPunct .lparen || t.isPunct .lt then signature g start
    else if t.isWord "new" && (next.isPunct .lparen || next.isPunct .lt) then
      advance
      signature g start
    else namedTypeMember g
  endTypeMember
  return member

/-- The members of an object type, in braces. -/
def typeMembers : Parse (List Node) := do
  expect .lcurly
  let members ← until? (at? .rcurly) (typeMember g)
  expect .rcurly
  return members

/-- The text goes on with a type that maps the keys of another. -/
def atMappedType : Parse Bool :=
  sees do
    expect .lcurly
    if (← at? .plus) || (← at? .minus) then
      advance
      atWord? "readonly"
    else
      discard (eatWord? "readonly")
      expect .lbrack
      discard plainName
      atWord? "in"

/-- A mark that adds or takes away `readonly` or `?`. -/
def mappedMark (mark : Parse Bool) : Parse Unit := do
  if (← at? .plus) || (← at? .minus) then
    advance
    require (← mark)
  else discard mark

/-- A type that maps the keys of another. -/
def mappedType : Parse Node := do
  let start ← start
  expect .lcurly
  mappedMark (eatWord? "readonly")
  expect .lbrack
  let name ← binding
  expectWord "in"
  let keys ← g.type
  let rename ← optional (← eatWord? "as") g.type
  expect .rbrack
  mappedMark (eat? .question)
  let type ← typeAnnotation g
  discard (eat? .semicolon)
  discard (eat? .comma)
  expect .rcurly
  return .form .other (← spanFrom start) (name :: keys :: rename ++ type)

/-! ### Single types -/

/-- Types that are keywords. A dot behind them makes them names. -/
def keywordTypes : List String :=
  ["any", "unknown", "string", "number", "bigint", "symbol", "boolean", "undefined", "never",
    "object"]

/-- The token can start a type. -/
def startsType (t : Token) : Bool :=
  match t.kind with
  | .word _ _ => t.isIdentifier || t.isOneOf ["void", "null", "this", "typeof", "new", "import",
      "true", "false", "function"]
  | .number | .bigint | .string _ | .template _ _ => true
  | .punct p =>
    [Punct.lcurly, .lbrack, .lt, .shl, .pipe, .amp, .star, .question, .bang, .ellipsis, .minus,
      .lparen].contains p
  | _ => false

/-- The parts of a template behind its first one, where `embedded` reads what stands between
them. -/
def templateParts (embedded : Parse Node) (strict : Bool) : Nat → Parse (List Node)
  | 0 => reject
  | n + 1 => do
    let first ← embedded
    let c ← get
    require (c.token.isPunct .rcurly)
    let text := c.here.drop 1
    match scanTemplate? c.bound text with
    | some ⟨.template whole proper, size, rest⟩ =>
      require (proper || !strict)
      moveTo (c.token.start + 1 + size) rest
      if whole then return [first] else return first :: (← templateParts embedded strict n)
    | _ => reject

/-- The embedded parts of a template. -/
def templateRule (embedded : Parse Node) (strict : Bool) : Parse (List Node) := do
  match (← token).kind with
  | .template whole proper =>
    require (proper || !strict)
    advance
    if whole then return [] else templateParts embedded strict (← bound)
  | _ => reject

/-- An element of a tuple type. -/
def tupleElement : Parse Node := do
  let start ← start
  discard (eat? .ellipsis)
  let t ← token
  let next ← peek
  let second ← peekSecond
  let named := t.isName && (next.isPunct .colon ||
    (next.isPunct .question && second.isPunct .colon))
  if named then
    let name ← plainName
    discard (eat? .question)
    expect .colon
    let type ← g.type
    return .form .other (← spanFrom start) [name, type]
  else
    let type ← g.type
    discard (eat? .question)
    return .form .other (← spanFrom start) [type]

/-- Settings of an import behind its source, if there are any. -/
def importSettings : Parse (List Node) := do
  if ← eat? .comma then
    if ← at? .rparen then return [] else one g.assignment
  else return []

/-- The type of a module's export. -/
def importType : Parse Node := do
  let start ← start
  discard (eatWord? "typeof")
  expectWord "import"
  expect .lparen
  let source ← g.type
  let settings ← importSettings g
  discard (eat? .comma)
  expect .rparen
  let path ← dottedNames
  let arguments ← typeArgumentsHere g
  return .form .other (← spanFrom start) (source :: settings ++ path ++ arguments)

/-- The type of a value. -/
def typeQuery : Parse Node := do
  let start ← start
  expectWord "typeof"
  let name ← typeName
  let arguments ← typeArgumentsHere g
  return .form .other (← spanFrom start) (name :: arguments)

/-- A type without operators. -/
def simpleType : Parse Node := do
  let start ← start
  let t ← token
  let next ← peek
  let leaf : Parse Node := do
    advance
    return .form .other (← spanFrom start) []
  match t.kind with
  | .number | .bigint => leaf
  | .string _ => one string >>= fun parts => return .form .other (← spanFrom start) parts
  | .template whole _ =>
    let parts ← templateRule g.type false
    let span ← spanFrom start
    return .form .other span (if whole then [.template span []] else parts)
  | .punct .minus =>
    advance
    require ((← token).kind == .number || (← token).kind == .bigint)
    leaf
  | .punct .question | .punct .bang =>
    advance
    if startsType (← token) then
      let type ← g.type
      return .form .other (← spanFrom start) [type]
    else return .form .other (← spanFrom start) []
  | .punct .lcurly =>
    if ← atMappedType then mappedType g
    else
      let members ← typeMembers g
      return .form .other (← spanFrom start) members
  | .punct .lbrack =>
    advance
    let elements ← listTo .rbrack (within ({ · with allowsConditional := true }) (tupleElement g))
    return .form .other (← spanFrom start) elements
  | .punct .lparen =>
    advance
    let type ← within ({ · with allowsConditional := true }) g.type
    expect .rparen
    return .form .other (← spanFrom start) [type]
  | .word name escaped =>
    if escaped then typeReference g
    else if keywordTypes.contains name && !next.isPunct .dot then leaf
    else if ["void", "null", "true", "false"].contains name then leaf
    else if name == "this" then
      advance
      if (← atWord? "is") && !(← token).afterLineEnd then
        advance
        let type ← g.type
        return .form .other (← spanFrom start) [type]
      else return .form .other (← spanFrom start) []
    else if name == "typeof" then
      if next.isWord "import" then importType g else typeQuery g
    else if name == "import" then importType g
    else if name == "asserts" && (next.isIdentifier || next.isWord "this") &&
        !next.afterLineEnd then
      advance
      let subject ← plainName
      let type ← optional (← eatWord? "is") g.type
      return .form .other (← spanFrom start) (subject :: type)
    else typeReference g
  | _ => reject

/-! ### Operators on types -/

/-- The operators behind a type: arrays, members by index and marks. -/
def postfixType (start : Nat) : Nat → Node → Parse Node
  | 0, _ => reject
  | n + 1, type => do
    let t ← token
    if t.afterLineEnd then return type
    else if t.isPunct .bang then
      advance
      postfixType start n (.form .other (← spanFrom start) [type])
    else if t.isPunct .question then
      if startsType (← peek) then return type
      else
        advance
        postfixType start n (.form .other (← spanFrom start) [type])
    else if t.isPunct .lbrack then
      advance
      let index ← if ← at? .rbrack then pure [] else
        one (within ({ · with allowsConditional := true }) g.type)
      expect .rbrack
      postfixType start n (.form .other (← spanFrom start) (type :: index))
    else return type

/-- The bound of a type that is found by matching. -/
def inferBound : Parse Node := do
  expectWord "extends"
  let bound ← within ({ · with allowsConditional := false }) g.type
  require (!(← read).allowsConditional || !(← at? .question))
  return bound

/-- A type with the operators before and behind it. -/
def operatorTypeFuel : Nat → Parse Node
  | 0 => reject
  | n + 1 => do
    let start ← start
    let t ← token
    if t.isOneOf ["keyof", "unique", "readonly"] then
      advance
      let type ← operatorTypeFuel n
      return .form .other (← spanFrom start) [type]
    else if t.isWord "infer" then
      advance
      let name ← binding
      let bound ← attempt (inferBound g)
      return .form .other (← spanFrom start) (name :: bound.toList)
    else
      let type ← within ({ · with allowsConditional := true }) (simpleType g)
      postfixType g start (← bound) type

/-- Types joined by an operator, which may also stand before the first one. -/
def joinedTypes (operator : Punct) (item : Parse Node) : Parse Node := do
  let start ← start
  let leading ← eat? operator
  let types ← separated operator item
  match types, leading with
  | [type], false => return type
  | types, _ => return .form .other (← spanFrom start) types

/-- A union of types. -/
def unionType : Parse Node := do
  joinedTypes .pipe (joinedTypes .amp do operatorTypeFuel g (← bound))

/-! ### Types of functions -/

/-- Pass what can start a parameter. -/
def skipParameterStart : Parse Bool := do
  skipParameterModifiers
  let t ← token
  if t.isIdentifier || t.isWord "this" then
    advance
    return true
  else if t.isPunct .lcurly || t.isPunct .lbrack then
    discard g.pattern
    return true
  else return false

/-- The parentheses hold parameters and not a type. -/
def atFunctionType : Parse Bool :=
  sees do
    expect .lparen
    let t ← token
    if t.isPunct .rparen || t.isPunct .ellipsis then return true
    else if ← skipParameterStart g then
      let t ← token
      if [Punct.colon, .comma, .question, .eq].any t.isPunct then return true
      else if t.isPunct .rparen then
        advance
        at? .arrow
      else return false
    else return false

/-- A type: a function, a union, or a choice between two types. -/
def typeRule : Parse Node := do
  let start ← start
  let t ← token
  let next ← peek
  let isConstructor := t.isWord "new" || (t.isWord "abstract" && next.isWord "new")
  if t.isPunct .lt || isConstructor || (t.isPunct .lparen && (← atFunctionType g)) then
    discard (eatWord? "abstract")
    discard (eatWord? "new")
    let types ← typeParameters g
    let params ← signatureParameters g
    require (← at? .arrow)
    let result ← returnType g .arrow
    return .form .other (← spanFrom start) (types ++ params ++ result)
  else
    let type ← unionType g
    if (← read).allowsConditional && (← atWord? "extends") && !(← token).afterLineEnd then
      advance
      let bound ← within ({ · with allowsConditional := false }) g.type
      expect .question
      let yes ← within ({ · with allowsConditional := true }) g.type
      expect .colon
      let no ← within ({ · with allowsConditional := true }) g.type
      return .form .other (← spanFrom start) [type, bound, yes, no]
    else return type

end VueSetup.Script.Grammar
