import VueSetup.Script.Grammar.Markup
import VueSetup.Script.Grammar.Module

/-!
# VueSetup.Script.Grammar.Statement

Statements. One that is the only statement of another (`single`) must not declare names that would
live in that place alone.
-/

namespace VueSetup.Script.Grammar

open Parse

variable (g : Grammar)

/-! ### Blocks and conditions -/

/-- Statements in braces. -/
def block : Parse Node := do
  let start ← start
  expect .lcurly
  let statements ← until? (at? .rcurly) (g.statement false)
  expect .rcurly
  return .form .scope (← spanFrom start) statements

/-- A condition in parentheses. -/
def condition : Parse Node := do
  expect .lparen
  let value ← bracketed g.expression
  expect .rparen
  return value

/-- `if` and `else`. -/
def ifStatement : Parse Node := do
  let start ← start
  advance
  let test ← condition g
  let yes ← g.statement true
  let no ← optional (← eatWord? "else") (g.statement true)
  return .form .other (← spanFrom start) (test :: yes :: no)

/-- What a case of a `switch` is for; nothing for the default. -/
def caseTest : Parse (List Node) := do
  if ← eatWord? "default" then return []
  else
    let start ← start
    expectWord "case"
    let value ← bracketed g.expression
    return [.form .other (← spanFrom start) [value]]

/-- One case of a `switch`. -/
def switchCase : Parse Node := do
  let start ← start
  let test ← caseTest g
  expect .colon
  let stop : Parse Bool := do
    let t ← token
    return t.isPunct .rcurly || t.isOneOf ["case", "default"]
  let statements ← until? stop (g.statement false)
  return .form .case (← spanFrom start) (test ++ statements)

/-- `switch`. -/
def switchStatement : Parse Node := do
  let start ← start
  advance
  let subject ← condition g
  let opening ← Parse.start
  expect .lcurly
  let cases ← until? (at? .rcurly) (switchCase g)
  expect .rcurly
  return .form .other (← spanFrom start) [subject, .form .scope (← spanFrom opening) cases]

/-! ### Loops -/

/-- `while`. -/
def whileStatement : Parse Node := do
  let start ← start
  advance
  let test ← condition g
  let body ← g.statement true
  return .form .other (← spanFrom start) [test, body]

/-- `do`. A semicolon behind it may be left out anywhere. -/
def doStatement : Parse Node := do
  let start ← start
  advance
  let body ← g.statement true
  expectWord "while"
  let test ← condition g
  discard (eat? .semicolon)
  return .form .other (← spanFrom start) [body, test]

/-- The head of a loop with three parts, from behind the first, and the body. -/
def countingLoop (start : Nat) (first : List Node) : Parse Node := do
  expect .semicolon
  let test ← optional (!(← at? .semicolon)) (bracketed g.expression)
  expect .semicolon
  let step ← optional (!(← at? .rparen)) (bracketed g.expression)
  expect .rparen
  let body ← g.statement true
  return .form .loop (← spanFrom start) (first ++ test ++ step ++ [body])

/-- The head of a loop over a collection, from its `in` or `of`, and the body. -/
def walkingLoop (start : Nat) (first : Node) : Parse Node := do
  let isOf ← atWord? "of"
  advance
  let subject ← bracketed (if isOf then g.assignment else g.expression)
  expect .rparen
  let body ← g.statement true
  return .form .loop (← spanFrom start) [first, subject, body]

/-- The token can come behind `let` in a declaration. -/
def followsLet (t : Token) : Bool :=
  (t.isName && !t.isWord "in") || t.isPunct .lbrack || t.isPunct .lcurly

/-- `for`. A loop over a collection must not start with `async of`, which looks like a function. -/
def forStatement : Parse Node := do
  let start ← start
  advance
  let isAwait ← eatWord? "await"
  require (!isAwait || (← read).allowsAwait)
  expect .lparen
  let t ← token
  let next ← peek
  let walks : Parse Bool := return (← atWord? "in") || (← atWord? "of")
  if t.isPunct .semicolon then countingLoop g start []
  else if t.isOneOf ["var", "const"] || (t.isWord "let" && followsLet next) then
    let (first, isMissing) ← within ({ · with allowsIn := false }) (variableDeclaration g)
    if ← walks then walkingLoop g start first
    else
      require (!isMissing || (← read).ambient)
      countingLoop g start [first]
  else
    let first ← within ({ · with allowsIn := false }) g.expression
    if ← walks then
      require (isAwait || !(t.isWord "async" && next.isWord "of"))
      match first.toTarget? with
      | some target => walkingLoop g start target
      | none => reject
    else countingLoop g start [first]

/-! ### Jumps -/

/-- `break` or `continue`, with the label of a statement if there is one. -/
def jumpStatement : Parse Node := do
  let start ← start
  advance
  let label ← optional (!(← mayEnd)) do
    require (← token).isIdentifier
    plainName
  endStatement
  return .form .other (← spanFrom start) label

/-- `return`. -/
def returnStatement : Parse Node := do
  require (← read).allowsReturn
  let start ← start
  advance
  let value ← optional (!(← mayEnd)) (bracketed g.expression)
  endStatement
  return .returnStatement (← spanFrom start) value

/-- `throw`. Its value starts on the same line. -/
def throwStatement : Parse Node := do
  let start ← start
  advance
  require (!(← token).afterLineEnd)
  let value ← bracketed g.expression
  endStatement
  return .form .other (← spanFrom start) [value]

/-- What is caught, if it has a name. -/
def catchParam : Parse (List Node) := do
  if ← eat? .lparen then
    let pattern ← g.pattern
    let type ← typeAnnotation g
    expect .rparen
    return [addParts pattern type]
  else return []

/-- `catch`, if there is one. -/
def catchClause : Parse (List Node) := do
  let start ← start
  if ← eatWord? "catch" then
    let param ← catchParam g
    let body ← block g
    return [.form .scope (← spanFrom start) (param ++ [body])]
  else return []

/-- `try`, with a `catch`, a `finally` or both. -/
def tryStatement : Parse Node := do
  let start ← start
  advance
  let body ← block g
  let handler ← catchClause g
  let final ← optional (← eatWord? "finally") (block g)
  require (!(handler.isEmpty && final.isEmpty))
  return .form .other (← spanFrom start) (body :: handler ++ final)

/-! ### All statements -/

/-- An expression as a statement, from behind the expression. -/
def expressionStatementRest (start : Nat) (value : Node) : Parse Node := do
  endStatement
  return .form .expressionStatement (← spanFrom start) [value]

/-- A statement that starts with an expression, or a statement behind a label. -/
def expressionOrLabelled : Parse Node := do
  let start ← start
  match ← bracketed g.expression with
  | .reference span name =>
    if ← eat? .colon then
      let body ← g.statement true
      return .form .other (← spanFrom start) [.plainName span name, body]
    else expressionStatementRest start (.reference span name)
  | value => expressionStatementRest start value

/-- A statement that starts with `let`, which may be a name. -/
def letStatement (single : Bool) : Parse Node := do
  let next ← peek
  if next.isAssignment || (precedence? next).isSome || next.isPunct .dot || next.isPunct .lparen ||
      next.isPunct .semicolon || (single && !next.isPunct .lbrack) then
    expressionOrLabelled g
  else variableStatement g single

/-- A statement that starts with `using`, which may be a name. -/
def atUsing : Parse Bool := do
  let next ← peek
  let second ← peekSecond
  return (← atWord? "using") && next.isIdentifier && !next.afterLineEnd &&
    (second.isPunct .eq || second.isPunct .comma || second.isPunct .semicolon)

/-- A statement. -/
def statementRule (single : Bool) : Parse Node := do
  let decorators ← decorators g
  let start ← start
  let t ← token
  let next ← peek
  if t.isPunct .lcurly then block g
  else if t.isPunct .semicolon then
    advance
    return .form .other (← spanFrom start) []
  else if t.isWord "if" then ifStatement g
  else if t.isWord "for" then forStatement g
  else if t.isWord "while" then whileStatement g
  else if t.isWord "do" then doStatement g
  else if t.isOneOf ["break", "continue"] then jumpStatement
  else if t.isWord "with" then whileStatement g
  else if t.isWord "switch" then switchStatement g
  else if t.isWord "throw" then throwStatement g
  else if t.isWord "try" then tryStatement g
  else if t.isWord "debugger" then
    advance
    endStatement
    return .form .other (← spanFrom start) []
  else if t.isWord "class" then
    require (!single)
    classRule g false decorators
  else if t.isWord "export" then exportDeclaration g decorators
  else if t.isWord "return" then returnStatement g
  else if t.isWord "var" || (t.isWord "const" && !((← hasTypes) && next.isWord "enum")) then
    variableStatement g single
  else if ← atUsing then variableStatement g single
  else if ← atFunction then functionDeclaration g false single
  else if t.isWord "let" then letStatement g single
  else if t.isWord "import" && !(next.isPunct .dot || next.isPunct .lparen) then importDeclaration
  else if (← hasTypes) && (← atTypedDeclaration) then typedDeclaration g decorators
  else expressionOrLabelled g

end VueSetup.Script.Grammar
