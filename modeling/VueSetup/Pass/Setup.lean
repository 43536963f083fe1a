import VueSetup.Declaration
import VueSetup.Pass.Basic
import VueSetup.Script.Literals
import VueSetup.Text.Blank
import VueSetup.Text.Lines

/-!
# VueSetup.Pass.Setup

The statements of `setup` move before the component, in order and without its `return` statements.

A statement takes along the comments before it and the ones that follow it on its last line
(`Segment`). What follows a statement on its last line otherwise is not taken along by the next one.
A blank line between two statements is kept.
-/

namespace VueSetup.Pass

open Script (Node Program)

/-! ### Segments -/

/-- A statement with the comments that belong to it. -/
structure Segment where
  span : Span
  /-- The column of the statement, in bytes. -/
  indent : Nat
  /-- A blank line stands before the segment, and it is not the first one. -/
  blankBefore : Bool
  deriving DecidableEq, Repr

/-- How many bytes come before the first closing mark of a comment. -/
def commentEnd? : List Char → Option Nat
  | [] => none
  | '*' :: '/' :: _ => some 0
  | c :: cs => (commentEnd? cs).map (· + c.utf8Size)

/-- How many bytes the comments take that follow on the same line. A comment that is closed on a
later line counts up to its end, and so do those behind it. -/
def trailingComments : Nat → List Char → Nat
  | 0, _ => 0
  | n + 1, cs =>
    let blanks := (cs.takeWhile Text.isSpaceOrTab).length
    match cs.dropWhile Text.isSpaceOrTab with
    | '/' :: '/' :: rest =>
      blanks + Text.byteSize (Text.trimEnd ('/' :: '/' :: rest.takeWhile (· != '\n')))
    | '/' :: '*' :: rest =>
      match commentEnd? rest with
      | some size =>
        blanks + size + 4 + trailingComments n (Text.suffixFrom rest (size + 2))
      | none => 0
    | _ => 0

/-- The column of an offset, in bytes. -/
def column (source : List Char) (offset : Nat) : Nat :=
  Text.byteSize
    (((Text.between source 0 offset).reverse.takeWhile (· != '\n')).reverse)

/-- The part of a gap before a statement that can belong to it: all of it for the first statement,
else what comes behind the first line feed, if there is one. -/
def leadingPart (isFirst : Bool) (gap : List Char) : List Char :=
  if isFirst then gap
  else if gap.contains '\n' then (gap.dropWhile (· != '\n')).drop 1
  else gap

/-- Cut the statements of a body into segments. `start` and `stop` bound the statements, `cursor` is
the end of what has been taken, and `some` segment has been made if `made` says so. -/
def segments? (source : List Char) (start stop : Nat) (cursor : Nat) (made : Bool) :
    List Node → Option (List Segment)
  | [] => some []
  | .returnStatement span _ :: rest => segments? source start stop span.stop made rest
  | statement :: rest => do
    let span := statement.span
    let gap ← Text.slice? source cursor span.start
    let leading := leadingPart (cursor == start) gap
    let blanks := leading.takeWhile Text.isBlank
    let first := span.start - Text.byteSize (leading.dropWhile Text.isBlank)
    let behind ← Text.slice? source span.stop (max stop span.stop)
    let last := span.stop + trailingComments (behind.length + 1) behind
    let segment : Segment :=
      ⟨⟨first, last⟩, column source span.start, made && blanks.contains '\n'⟩
    return segment :: (← segments? source start stop last true rest)

/-! ### Texts -/

/-- The lines of a stretch that start inside of a literal, by number. -/
def literalLines (source : List Char) (literals : List Span) (span : Span) : List Nat :=
  let rec go (offset line : Nat) : List Char → List Nat
    | [] => []
    | c :: cs =>
      if c = '\n' then
        if Script.isInside literals (offset + 1) then (line + 1) :: go (offset + 1) (line + 1) cs
        else go (offset + 1) (line + 1) cs
      else go (offset + c.utf8Size) line cs
  go span.start 0 (Text.between source span.start span.stop)

/-- A segment moved out to column zero, with the edits inside of it made. -/
def Segment.text? (d : Draft) (literals : List Span) (s : Segment) : Option String := do
  let text ← d.slice? s.span
  let verbatim := literalLines d.source.toList literals s.span
  return (if s.blankBefore then "\n" else "") ++ Declaration.outdent text s.indent verbatim ++ "\n"

/-- The segments of a setup function. The statements start behind the last directive. -/
def setupSegments? (source : List Char) (s : Setup) : Option (List Segment) :=
  let start := match s.directives.getLast? with
    | some directive => directive.span.stop
    | none => s.body.start + 1
  segments? source start (s.body.stop - 1) start false s.statements

/-- Move the statements of `setup` before the component. -/
def setup : Pass := fun program _ d =>
  match Component.locate? program with
  | none => some (.idle d)
  | some c =>
    match c.setup? with
    | none => some (.idle d)
    | some s => do
      let literals := Script.multilineLiterals program d.source.toList
      match ← setupSegments? d.source.toList s with
      | [] => some (.idle d)
      | segments =>
        let texts ← segments.mapM (Segment.text? d literals)
        return .made (d.insertBefore c.wrapper (String.join texts))

end VueSetup.Pass
