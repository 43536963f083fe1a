import VueSetup.Script.Grammar.Function

/-!
# VueSetup.Script.Grammar.Class

Classes: what they extend and implement, and their members.
-/

namespace VueSetup.Script.Grammar

open Parse

variable (g : Grammar)

/-! ### Heritage -/

/-- A base class or interface, with arguments that are types. -/
def heritage : Parse Node := do
  let start ← start
  let base ← g.access
  let arguments ← if ← hasTypes then typeArgumentsHere g else pure []
  return .form .other (← spanFrom start) (base :: arguments)

/-- What a class extends and implements. -/
def classHeritage : Parse (List Node) := do
  let bases ← optional (← eatWord? "extends") (heritage g)
  let interfaces ←
    if (← hasTypes) && (← eatWord? "implements") then separated .comma (typeReference g)
    else pure []
  return bases ++ interfaces

/-! ### Members -/

/-- The token can come behind a word that modifies a member. -/
def followsModifier (t : Token) : Bool :=
  t.isMemberStart || t.isPunct .star || t.isPunct .lcurly

/-- Pass the words that modify a member, and tell whether `static` is one of them. -/
def memberModifiers : Parse Bool := do
  let words := if ← hasTypes then
      ["static", "accessor", "public", "private", "protected", "readonly", "override", "declare",
        "abstract"]
    else ["static", "accessor"]
  let stop : Parse Bool := do
    let t ← token
    let next ← peek
    return !(t.isOneOf words && followsModifier next && (t.isWord "static" || !next.afterLineEnd) &&
      !(t.isWord "static" && next.isPunct .lcurly))
  let passed ← until? stop do
    let t ← token
    advance
    return t
  return passed.any (·.isWord "static")

/-- Pass the words that say what kind of method follows. -/
def methodHead : Parse Flavour := do
  let t ← token
  let next ← peek
  if t.isOneOf ["get", "set"] && next.isMemberStart then
    advance
    return ⟨false, false⟩
  else
    let isAsync := t.isWord "async" && (next.isMemberStart || next.isPunct .star) &&
      !next.afterLineEnd
    if isAsync then advance
    let isGenerator ← eat? .star
    return ⟨isAsync, isGenerator⟩

/-- The key of a member of a class, and its name if that is written out. -/
def classKey : Parse (Node × Option String) := do
  match (← token).kind with
  | .privateName name =>
    require (name != "constructor")
    return (← privateName, none)
  | _ =>
    let (computed, key) ← propertyKey g
    return (key, if computed then none else key.keyName?)

/-- Code that runs once, when the class is made. -/
def staticBlock : Parse Node := do
  let start ← start
  advance
  expect .lcurly
  let inside (c : Context) : Context :=
    { c with allowsAwait := false, allowsYield := false, allowsReturn := false, allowsIn := true }
  let statements ← within inside (until? (at? .rcurly) (g.statement false))
  expect .rcurly
  return .form .staticBlock (← spanFrom start) statements

/-- The marks behind the key of a member, in scripts with types. -/
def skipMemberMarks : Parse Unit := do
  if ← hasTypes then
    discard (eat? .question)
    if !(← token).afterLineEnd then discard (eat? .bang)

/-- A field, from behind its key. -/
def fieldRest (start : Nat) (parts : List Node) : Parse Node := do
  let type ← typeAnnotation g
  let inside (c : Context) : Context :=
    { c with allowsAwait := false, allowsYield := false, allowsIn := true }
  let value ← optional (← eat? .eq) (within inside g.assignment)
  endStatement
  return .form .other (← spanFrom start) (parts ++ type ++ value)

/-- A member of a class. A static one is not named `prototype`, and what is named `constructor` is
a plain method. -/
def classMember : Parse Node := do
  let start ← start
  let decorators ← decorators g
  let isStatic ← memberModifiers
  let t ← token
  let next ← peek
  let isAccessor := t.isOneOf ["get", "set"] && next.isMemberStart
  if t.isWord "static" && next.isPunct .lcurly then staticBlock g
  else if (← hasTypes) && (← atIndexSignature) then
    let index ← indexSignature g
    endTypeMember
    return index
  else
    let flavour ← methodHead
    let (key, name) ← classKey g
    let isPlain := !isAccessor && !flavour.isAsync && !flavour.isGenerator
    require (!(isStatic && name == some "prototype"))
    require (isStatic || isPlain || name != some "constructor")
    skipMemberMarks
    if (← at? .lparen) || (← at? .lt) then
      let function ← method g flavour
      return .form .other (← spanFrom start) (decorators ++ [key, function])
    else
      require (isPlain && name != some "constructor")
      fieldRest g start (decorators ++ [key])

/-- A member of a class, or a semicolon between members. -/
def classEntry : Parse (List Node) := do
  if ← eat? .semicolon then return [] else one (classMember g)

/-- The members of a class, in braces. Semicolons between them are passed over. -/
def classBody : Parse (List Node) := do
  expect .lcurly
  let members ← until? (at? .rcurly) (classEntry g)
  expect .rcurly
  return members.flatten

/-- A class from its `class` on; with `anonymous` it may be without a name. -/
def classRule (anonymous : Bool) (decorators : List Node) : Parse Node := do
  let start ← start
  expectWord "class"
  let t ← token
  let named := t.isIdentifier && !(t.isWord "implements")
  require (named || anonymous)
  let name ← optional named binding
  let types ← typeParameters g
  let bases ← classHeritage g
  let members ← classBody g
  return .form .classDeclaration (← spanFrom start)
    (name ++ decorators ++ types ++ bases ++ members)

end VueSetup.Script.Grammar
