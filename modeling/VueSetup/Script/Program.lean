import VueSetup.Script.Grammar.Statement

/-!
# VueSetup.Script.Program

Reading a script.

The rules of the grammar are tied level by level: `Grammar.upTo n` holds rules that go through each
other at most `n` times. From one pass through a rule to the third next one the text gets shorter,
so that a small multiple of the text's length is a level at which every script can be read.
-/

namespace VueSetup.Script

namespace Grammar

/-- The rules whose references to other rules are those of `g`. -/
def unfold (g : Grammar) : Grammar where
  expression := g.expressionRule
  assignment := g.assignmentRule
  operation := g.operationRule
  operand := g.operandRule
  access := g.accessRule
  statement := g.statementRule
  type := g.typeRule
  pattern := g.patternRule
  element := g.elementRule

/-- The rules with at most `n` references inside of each other. -/
def upTo : Nat → Grammar
  | 0 => exhausted
  | n + 1 => unfold (upTo n)

end Grammar

namespace Program

/-- The first line of a script may name the program that runs it. -/
def skipRunLine (cs : List Char) : Nat × List Char :=
  match cs with
  | '#' :: '!' :: rest =>
    let line := rest.takeWhile fun c => !isLineEnd c
    (2 + Text.byteSize line, rest.dropWhile fun c => !isLineEnd c)
  | cs => (0, cs)

/-- The names that a script exports as values. -/
def exportedNames (statements : List Node) : List String :=
  statements.flatMap fun
    | .exportNamed _ names _ => names
    | .exportDefault _ _ => ["default"]
    | _ => []

/-- No name is exported twice. -/
def exportsOnce (statements : List Node) : Bool :=
  let names := exportedNames statements
  names.eraseDups.length == names.length

/-- The tree holds no value to fall back on outside of a target. -/
def isSettled (nodes : List Node) : Bool :=
  nodes.all fun
    | .form .coverDefault _ _ => false
    | _ => true

/-- All of a script: directives and statements up to the end of the text. -/
def rule (g : Grammar) : Parse Program := do
  let ended : Parse Bool := return (← Parse.token).kind == .endOfText
  let (directives, statements) ← Grammar.directivesAndStatements g ended
  return ⟨directives, statements⟩

/-- Read a script; `none` when it is not in the language. Exporting a name twice is an error only in
scripts without types. -/
def parse? (dialect : Dialect) (source : String) : Option Program := do
  let cs := source.toList
  let (pos, rest) := skipRunLine cs
  let grammar := Grammar.upTo (4 * cs.length + 16)
  let (program, _) ← (rule grammar).run { dialect } |>.run (Cursor.scanAt (cs.length + 1) pos rest)
  if isSettled program.nodes && (dialect.types || exportsOnce program.statements) then
    return program
  else none

end Program

end VueSetup.Script
