import VueSetup.Script.Grammar.Expression

/-!
# VueSetup.Script.Grammar.Declaration

Declarations: variables in all scripts; type aliases, interfaces, enumerations, namespaces and
ambient declarations in scripts with types.
-/

namespace VueSetup.Script.Grammar

open Parse

variable (g : Grammar)

/-! ### Variables -/

/-- A pattern of one name. -/
def isPlainBinding : Node → Bool
  | .binding _ _ _ => true
  | _ => false

/-- The marks behind a declared pattern, in scripts with types. -/
def skipDeclaratorMarks : Parse Unit := do
  if ← hasTypes then
    if !(← token).afterLineEnd then discard (eat? .bang)
    discard (eat? .question)

/-- One declared pattern with its type and its value, and whether a value is missing: a pattern of
several names needs one, and so does a constant. -/
def declarator (isConstant : Bool) : Parse (Node × Bool) := do
  let start ← start
  let pattern ← g.pattern
  skipDeclaratorMarks
  let type ← typeAnnotation g
  let value ← optional (← eat? .eq) g.assignment
  let isMissing := value.isEmpty && (isConstant || !isPlainBinding pattern)
  return (.form .declarator (← spanFrom start) (pattern :: type ++ value), isMissing)

/-- A declaration of variables, from its keyword on, and whether a value is missing in it. -/
def variableDeclaration : Parse (Node × Bool) := do
  let start ← start
  let t ← token
  require (t.isOneOf ["var", "let", "const", "using"])
  advance
  let declarators ← separated .comma (declarator g (t.isWord "const"))
  let node : Node :=
    .form (.variableDeclaration (t.isWord "var")) (← spanFrom start) (declarators.map (·.1))
  return (node, declarators.any (·.2))

/-- A declaration of variables as a statement. Only an ambient one may be without values. -/
def variableStatement (single : Bool) : Parse Node := do
  require (!single || (← atWord? "var"))
  let start ← start
  let (node, isMissing) ← variableDeclaration g
  require (!isMissing || (← read).ambient)
  endStatement
  match node with
  | .form kind _ parts => return .form kind (← spanFrom start) parts
  | node => return node

/-! ### Types -/

/-- A name for a type. -/
def typeAlias (start : Nat) : Parse Node := do
  expectWord "type"
  let name ← binding
  let types ← typeParameters g
  expect .eq
  let type ← within ({ · with allowsConditional := true }) g.type
  endStatement
  return .form .other (← spanFrom start) (name :: types ++ [type])

/-- An interface. -/
def interface (start : Nat) : Parse Node := do
  expectWord "interface"
  let name ← binding
  let types ← typeParameters g
  let bases ← if ← eatWord? "extends" then separated .comma (heritage g) else pure []
  let members ← typeMembers g
  return .form .other (← spanFrom start) (name :: types ++ bases ++ members)

/-- A member of an enumeration. -/
def enumMember : Parse Node := do
  let start ← start
  let (_, key) ← propertyKey g
  let value ← optional (← eat? .eq) (bracketed g.assignment)
  return .form .other (← spanFrom start) (key :: value)

/-- An enumeration. -/
def enumeration (start : Nat) : Parse Node := do
  discard (eatWord? "const")
  expectWord "enum"
  let name ← binding
  expect .lcurly
  let members ← listTo .rcurly (enumMember g)
  return .form .enumeration (← spanFrom start) (name :: members)

/-- Statements of a namespace, in braces. -/
def namespaceBody : Parse (List Node) := do
  expect .lcurly
  let statements ← within ({ · with allowsReturn := false }) do
    until? (at? .rcurly) (g.statement false)
  expect .rcurly
  return statements

/-- A namespace, or the declaration of a module. -/
def namespaceDeclaration (start : Nat) : Parse Node := do
  let isGlobal ← atWord? "global"
  advance
  if isGlobal then
    let body ← namespaceBody g
    return .form .namespace (← spanFrom start) body
  else if (← token).isString then
    let name ← string
    let body ← if ← at? .lcurly then namespaceBody g else do endStatement; pure []
    return .form .namespace (← spanFrom start) (name :: body)
  else
    let name ← binding
    let path ← dottedNames
    let body ← namespaceBody g
    return .form .namespace (← spanFrom start) (name :: path ++ body)

/-- The word `type` before a name for a module, where it is not the name itself. -/
def skipAliasWord : Parse Unit := do
  if (← atWord? "type") && !(← peek).isPunct .eq then advance

/-- A name for another module or for a member of a namespace, from behind `import`. -/
def importEquals (start : Nat) : Parse Node := do
  skipAliasWord
  let name ← binding
  expect .eq
  let next ← peek
  if (← atWord? "require") && next.isPunct .lparen then
    advance
    advance
    let source ← string
    expect .rparen
    endStatement
    return .form .moduleAlias (← spanFrom start) [name, source]
  else
    let target ← typeName
    endStatement
    return .form .moduleAlias (← spanFrom start) [name, target]

/-! ### Declarations with words before them -/

/-- Words that stand before a declaration in scripts with types. -/
def declarationModifiers : List String :=
  ["abstract", "accessor", "async", "declare", "private", "protected", "public", "readonly"]

/-- The text goes on with a declaration that only scripts with types have. -/
def atTypedDeclarationFuel : Nat → Parse Bool
  | 0 => return false
  | n + 1 => do
    let t ← token
    let next ← peek
    if t.isOneOf ["var", "let", "const", "function", "class", "enum"] then return true
    else if t.isOneOf ["interface", "type"] then
      return next.isIdentifier && !next.afterLineEnd
    else if t.isOneOf ["module", "namespace"] then
      return (next.isIdentifier || next.isString) && !next.afterLineEnd
    else if t.isOneOf declarationModifiers then
      if next.afterLineEnd then return false
      else
        advance
        atTypedDeclarationFuel n
    else if t.isWord "global" then
      return next.isPunct .lcurly || next.isIdentifier || next.isWord "export"
    else if t.isWord "import" then
      return next.isString || next.isPunct .star || next.isPunct .lcurly || next.isName
    else if t.isWord "static" then
      advance
      atTypedDeclarationFuel n
    else return false

/-- The text goes on with a declaration that only scripts with types have. -/
def atTypedDeclaration : Parse Bool :=
  sees do atTypedDeclarationFuel (← bound)

/-- A declaration with its modifiers already passed. -/
def plainDeclaration (start : Nat) (decorators : List Node) : Parse Node := do
  let t ← token
  let next ← peek
  if t.isWord "class" then classRule g false decorators
  else if ← atFunction then functionDeclaration g false false
  else if ← hasTypes then
    if t.isWord "enum" || (t.isWord "const" && next.isWord "enum") then enumeration g start
    else if t.isWord "type" then typeAlias g start
    else if t.isWord "interface" then interface g start
    else if t.isOneOf ["module", "namespace", "global"] then namespaceDeclaration g start
    else if t.isWord "import" then
      advance
      importEquals start
    else variableStatement g false
  else variableStatement g false

/-- A declaration with the words before it. An ambient one declares what is defined elsewhere. -/
def typedDeclaration (decorators : List Node) : Parse Node := do
  let start ← start
  let stop : Parse Bool := do
    let next ← peek
    return !((← token).isOneOf ["abstract", "accessor", "declare", "private", "protected", "public",
      "readonly", "static"] && next.isName)
  let words ← until? stop do
    let t ← token
    advance
    return t
  let widen (c : Context) : Context :=
    { c with ambient := c.ambient || words.any (·.isWord "declare") }
  let declaration ← within widen (plainDeclaration g start decorators)
  return declaration.startingAt start

end VueSetup.Script.Grammar
