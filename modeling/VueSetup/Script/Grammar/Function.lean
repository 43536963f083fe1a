import VueSetup.Script.Grammar.Type

/-!
# VueSetup.Script.Grammar.Function

Functions: their parameters, what they give back, and their bodies. A function inside of another
decides anew whether `await`, `yield` and `return` have a meaning.
-/

namespace VueSetup.Script.Grammar

open Parse

variable (g : Grammar)

/-- How a function runs. -/
structure Flavour where
  isAsync : Bool
  isGenerator : Bool

/-- The surroundings that a function makes for its parameters and its body. -/
def Flavour.context (f : Flavour) (c : Context) : Context :=
  { c with allowsAwait := f.isAsync, allowsYield := f.isGenerator }

/-- The surroundings that a function makes for its body. -/
def Flavour.bodyContext (f : Flavour) (c : Context) : Context :=
  { f.context c with allowsIn := true, allowsReturn := true }

/-- The statement is a string and nothing else. -/
def isDirective : Node → Bool
  | .form .expressionStatement _ [.string _ _] => true
  | _ => false

/-- Statements up to a test, and the directives before them. -/
def directivesAndStatements (stop : Parse Bool) : Parse (List Node × List Node) := do
  let statements ← until? stop (g.statement false)
  return (statements.takeWhile isDirective, statements.dropWhile isDirective)

/-- The body of a function. -/
def functionBody (f : Flavour) : Parse Node := do
  let start ← start
  let (directives, statements) ← within f.bodyContext do
    expect .lcurly
    directivesAndStatements g (at? .rcurly)
  expect .rcurly
  return .block (← spanFrom start) directives statements

/-- A function from its parameters on. In scripts with types the body may be left out. -/
def functionRest (start : Nat) (f : Flavour) (name : List Node) : Parse Node := do
  let types ← typeParameters g
  let params ← within f.context (parameters g)
  let result ← returnType g .colon
  let parts := name ++ types ++ params.receiver ++ result
  if ← at? .lcurly then
    let body ← functionBody g f
    return .function (← spanFrom start) params.items params.rest parts [body]
  else
    require (← hasTypes)
    let span ← spanFrom start
    endStatement
    return .function span params.items params.rest parts []

/-- The text goes on with a function. -/
def atFunction : Parse Bool := do
  let t ← token
  if t.isWord "function" then return true
  else if t.isWord "async" then
    let next ← peek
    return next.isWord "function" && !next.afterLineEnd
  else return false

/-- Pass the words that open a function. -/
def functionHead : Parse Flavour := do
  let isAsync ← eatWord? "async"
  expectWord "function"
  let isGenerator ← eat? .star
  return ⟨isAsync, isGenerator⟩

/-- A function as an expression. Its name, if any, is known inside of it only. -/
def functionExpression : Parse Node := do
  let start ← start
  let flavour ← functionHead
  let name ← optional (← token).isIdentifier (within flavour.context binding)
  functionRest g start flavour name

/-- A function as a declaration; with `anonymous` it may be without a name. -/
def functionDeclaration (anonymous single : Bool) : Parse Node := do
  let start ← start
  let flavour ← functionHead
  require (!(single && (flavour.isAsync || flavour.isGenerator)))
  let named := (← token).isIdentifier
  require (named || anonymous)
  let name ← optional named binding
  let function ← functionRest g start flavour []
  return .form .functionDeclaration (← spanFrom start) (name ++ [function])

/-- A method of an object or a class, from its parameters on. -/
def method (f : Flavour) : Parse Node := do
  functionRest g (← start) f []

end VueSetup.Script.Grammar
