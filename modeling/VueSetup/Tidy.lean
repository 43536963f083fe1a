import VueSetup.Script.Literals
import VueSetup.Script.Program
import VueSetup.Text.Blank
import VueSetup.Text.Lines

/-!
# VueSetup.Tidy

Tidying the lines of a script: of several blank lines one stays, and the script ends with a single
line break. Lines that start or end inside of a literal are kept as they are, and a script that
cannot be read is kept altogether.
-/

namespace VueSetup

open Script (Dialect Program)

/-- How lines end. -/
inductive LineBreak where
  | feed
  | returnFeed
  deriving DecidableEq, Repr

namespace LineBreak

/-- The characters of a line break. -/
def chars : LineBreak → List Char
  | .feed => ['\n']
  | .returnFeed => ['\r', '\n']

/-- The text holds a carriage return with a line feed behind it. -/
def holdsReturnFeed : List Char → Bool
  | '\r' :: '\n' :: _ => true
  | _ :: cs => holdsReturnFeed cs
  | [] => false

/-- How the lines of a text end: all in one way if any of them does. -/
def ofText (cs : List Char) : LineBreak :=
  if holdsReturnFeed cs then .returnFeed else .feed

end LineBreak

namespace Tidy

/-- The line without what ends it. -/
def lineContent (line : List Char) : List Char :=
  Text.dropEndWhile (fun c => c == '\r' || c == '\n') line

/-- A line that starts or ends inside of a literal. -/
def isLiteralLine (literals : List Span) (start : Nat) (line : List Char) : Bool :=
  Script.isInside literals start ||
    (line.getLast? == some '\n' && Script.isInside literals (start + Text.byteSize line - 1))

/-- Tidy lines from an offset on, where `blank` says that the line before is blank. -/
def lines (literals : List Span) (ending : List Char) (start : Nat) (blank : Bool) :
    List (List Char) → List Char
  | [] => []
  | line :: rest =>
    let next := start + Text.byteSize line
    if isLiteralLine literals start line then line ++ lines literals ending next false rest
    else
      let content := lineContent line
      if Text.isBlankText content then
        if blank then lines literals ending next true rest
        else ending ++ lines literals ending next true rest
      else content ++ ending ++ lines literals ending next false rest

/-- Take line breaks off the end of a text, given in reverse, as long as two of them stand there. -/
def dropDoubled (ending : List Char) : Nat → List Char → List Char
  | 0, cs => cs
  | n + 1, cs =>
    if (ending ++ ending).isPrefixOf cs then dropDoubled ending n (cs.drop ending.length) else cs

/-- End with a single line break. A text of nothing becomes one. -/
def finish (ending : List Char) (cs : List Char) : List Char :=
  match (dropDoubled ending.reverse cs.length cs.reverse).reverse with
  | [] => ending
  | cs => cs

/-- Tidy the lines of a text with known literals. -/
def text (literals : List Span) (ending : List Char) (cs : List Char) : List Char :=
  finish ending (lines literals ending 0 false (Text.linesWithEnds cs))

end Tidy

/-- Tidy the lines of a script. -/
def tidy (dialect : Dialect) (ending : LineBreak) (source : String) : String :=
  match Program.parse? dialect source with
  | none => source
  | some program =>
    let cs := source.toList
    String.ofList (Tidy.text (Script.multilineLiterals program cs) ending.chars cs)

end VueSetup
