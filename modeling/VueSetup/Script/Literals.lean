import VueSetup.Script.Node
import VueSetup.Text.Offset

/-!
# VueSetup.Script.Literals

Strings and templates that go over several lines. The lines inside of one are part of its value, and
are kept as they are by all that moves or tidies lines.
-/

namespace VueSetup.Script

/-- The stretch of a string or of a template. -/
def literalSpan? : Node → Option Span
  | .string span _ => some span
  | .template span _ => some span
  | _ => none

/-- The stretch holds a line feed. -/
def holdsLineFeed (source : List Char) (span : Span) : Bool :=
  (Text.between source span.start span.stop).contains '\n'

/-- The stretches of all strings and templates that go over several lines. -/
def multilineLiterals (program : Program) (source : List Char) : List Span :=
  (program.nodes.filterMap literalSpan?).filter (holdsLineFeed source)

/-- The offset lies inside of one of the stretches. -/
def isInside (spans : List Span) (offset : Nat) : Bool :=
  spans.any (·.encloses offset)

end VueSetup.Script
