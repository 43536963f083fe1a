import VueSetup.Script.Parse

/-!
# VueSetup.Script.Grammar.Pattern

Patterns that declare names, and the parameters of functions.

A parameter that is a plain name stays a `binding`, with its type and its decorators as parts; one
with a value to fall back on is a `fallback`. A `this` parameter and a rest parameter are kept apart
from the others.
-/

namespace VueSetup.Script.Grammar

open Parse

variable (g : Grammar)

/-! ### Types and keys -/

/-- A type behind a colon, in scripts with types. -/
def typeAnnotation : Parse (List Node) := do
  if (← hasTypes) && (← at? .colon) then
    advance
    one (within ({ · with allowsConditional := true }) g.type)
  else return []

/-- The key of a member, and whether it is computed. -/
def propertyKey : Parse (Bool × Node) := do
  let t ← token
  match t.kind with
  | .word _ _ => return (false, ← plainName)
  | .string _ => return (false, ← string)
  | .number => advance; return (false, .literal ⟨t.start, t.stop⟩ .number)
  | .bigint => advance; return (false, .literal ⟨t.start, t.stop⟩ .bigint)
  | .punct .lbrack =>
    advance
    let key ← bracketed g.assignment
    expect .rbrack
    return (true, key)
  | _ => reject

/-! ### Patterns -/

/-- A value to fall back on, if one is given. -/
def withFallback (start : Nat) (target : Node) : Parse Node := do
  if ← eat? .eq then
    let value ← bracketed g.assignment
    return .form .fallback (← spanFrom start) [target, value]
  else return target

/-- An element of a pattern. -/
def patternElement : Parse Node := do
  let start ← start
  withFallback g start (← g.pattern)

/-- What takes the rest of an array or of an object. Nothing may follow it. -/
def patternRest (target : Parse Node) (close : Punct) : Parse Node := do
  let start ← start
  advance
  let target ← target
  require (← at? close)
  return .form .rest (← spanFrom start) [target]

/-- An empty place of an array, before the comma that ends it. -/
def hole : Parse Node := do
  let start ← start
  return .form .hole ⟨start, start⟩ []

/-- An element of a pattern of an array. -/
def arrayPatternElement : Parse Node := do
  if ← at? .comma then hole
  else if ← at? .ellipsis then patternRest g.pattern .rbrack
  else patternElement g

/-- A member of a pattern of an object. The rest goes to a single name. -/
def objectPatternMember : Parse Node := do
  let start ← start
  if ← at? .ellipsis then patternRest binding .rcurly
  else
    let t ← token
    let next ← peek
    if t.isIdentifier && !next.isPunct .colon then
      let (span, name) ← identifier
      let value ← withFallback g start (.binding span name [])
      return .property (← spanFrom start) false (.plainName span name) value
    else
      let (computed, key) ← propertyKey g
      expect .colon
      let value ← patternElement g
      return .property (← spanFrom start) computed key value

/-- A pattern: a name, or the parts of an object or of an array. -/
def patternRule : Parse Node := do
  let start ← start
  if ← eat? .lcurly then
    let members ← listTo .rcurly (objectPatternMember g)
    return .form .pattern (← spanFrom start) members
  else if ← eat? .lbrack then
    let elements ← listTo .rbrack (arrayPatternElement g)
    return .form .pattern (← spanFrom start) elements
  else binding

/-- Add a type, decorators or the like to a pattern. -/
def addParts (pattern : Node) (parts : List Node) : Node :=
  match parts, pattern with
  | [], _ => pattern
  | _, .binding span name ps => .binding span name (ps ++ parts)
  | _, _ => .form .pattern pattern.span (pattern :: parts)

/-! ### Parameters -/

/-- The parameters of a function. -/
structure Parameters where
  items : List Node
  rest : List Node
  /-- The type of `this`. -/
  receiver : List Node

/-- Decorators before a declaration. -/
def decorators : Parse (List Node) :=
  until? (return !(← at? .atSign)) do
    let start ← start
    advance
    let value ← within ({ · with inDecorator := true }) g.access
    return .form .other (← spanFrom start) [value]

/-- Words that may stand before a parameter in scripts with types. -/
def skipParameterModifiers : Parse Unit := do
  let stop : Parse Bool := do
    let t ← token
    let next ← peek
    return !(t.isOneOf ["public", "private", "protected", "readonly", "override"] &&
      (next.isName || next.isPunct .lcurly || next.isPunct .lbrack))
  if ← hasTypes then discard (until? stop advance)

/-- The mark of a parameter that may be left out, in scripts with types. -/
def skipOptionalMark : Parse Unit := do
  if ← hasTypes then discard (eat? .question)

/-- A parameter. -/
def parameter : Parse Node := do
  let start ← start
  let decorators ← decorators g
  skipParameterModifiers
  let pattern ← g.pattern
  skipOptionalMark
  let type ← typeAnnotation g
  withFallback g start (addParts pattern (type ++ decorators))

/-- A parameter that takes the rest of the arguments. -/
def restParameter : Parse Node := do
  let start ← start
  advance
  let pattern ← g.pattern
  skipOptionalMark
  let type ← typeAnnotation g
  return .form .rest (← spanFrom start) [addParts pattern type]

/-- The parameters up to the closing parenthesis. Nothing but that may follow a rest parameter. -/
def parametersFuel : Nat → Parse Parameters
  | 0 => reject
  | n + 1 => do
    if ← at? .rparen then return ⟨[], [], []⟩
    else if ← at? .ellipsis then
      let rest ← restParameter g
      require (← at? .rparen)
      return ⟨[], [rest], []⟩
    else
      let item ← parameter g
      if ← eat? .comma then
        let others ← parametersFuel n
        return { others with items := item :: others.items }
      else return ⟨[item], [], []⟩

/-- The `this` parameter, in scripts with types. -/
def receiverParameter : Parse (List Node) := do
  if (← hasTypes) && (← atWord? "this") then
    advance
    let type ← typeAnnotation g
    unless ← at? .rparen do expect .comma
    return type
  else return []

/-- Parameters in parentheses. -/
def parameters : Parse Parameters := do
  expect .lparen
  let receiver ← receiverParameter g
  let params ← parametersFuel g (← bound)
  expect .rparen
  return { params with receiver := receiver }

end VueSetup.Script.Grammar
