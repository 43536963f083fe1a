import VueSetup.Draft
import VueSetup.Script.Program
import VueSetup.Text.Blank

/-!
# VueSetup.Import

Taking an import out of a script that no longer uses it. Of a declaration that imports several names
only the one goes, with what separates it from the others; a declaration that imports nothing else
goes with its line, and with the blank line behind it if nothing stands before it.
-/

namespace VueSetup.Import

open Script (Dialect ImportSpecifier Node Program)

/-- How many bytes the line break at the head of a text takes. -/
def lineBreakSize : List Char → Nat
  | '\r' :: '\n' :: _ => 2
  | '\n' :: _ => 1
  | _ => 0

/-- The stretch of a declaration with its line break, and with the blank line behind it when only
blanks stand before it. -/
def declarationLine (source : List Char) (span : Span) : Span :=
  let stop := span.stop + lineBreakSize (Text.suffixFrom source span.stop)
  if Text.isBlankText (Text.between source 0 span.start) then
    let rest := Text.suffixFrom source stop
    let blanks := (rest.takeWhile Text.isSpaceOrTab).length
    let lineBreak := lineBreakSize (rest.dropWhile Text.isSpaceOrTab)
    if lineBreak > 0 then ⟨span.start, stop + blanks + lineBreak⟩ else ⟨span.start, stop⟩
  else ⟨span.start, stop⟩

/-- How many bytes a text takes up to and with the first occurrence of a character; none when it
does not occur. -/
def sizeThrough (c : Char) (cs : List Char) : Nat :=
  if cs.contains c then Text.byteSize (cs.takeWhile (· != c)) + c.utf8Size else 0

/-- The stretch to take out for one of several names of a declaration. -/
def specifierRange (source : List Char) (specifiers : List ImportSpecifier) (index : Nat)
    (spec : ImportSpecifier) : Span :=
  let first := (specifiers.head?.getD spec).span
  let named := specifiers.countP (·.kind == .named)
  match spec.kind with
  | .default =>
    let comma := spec.span.stop + sizeThrough ',' (Text.suffixFrom source spec.span.stop)
    let blanks := (Text.suffixFrom source comma).takeWhile Text.isBlank
    ⟨spec.span.start, comma + Text.byteSize blanks⟩
  | kind =>
    if kind == .named && named == 1 then
      ⟨first.stop, spec.span.stop + sizeThrough '}' (Text.suffixFrom source spec.span.stop)⟩
    else
      match specifiers[index + 1]? with
      | some next => ⟨spec.span.start, next.span.start⟩
      | none => ⟨((specifiers[index - 1]?).getD spec).span.stop, spec.span.stop⟩

/-- The stretch to take out for the name at an index. -/
def removalRange (source : List Char) (span : Span) (specifiers : List ImportSpecifier)
    (index : Nat) : Span :=
  match specifiers[index]? with
  | some spec =>
    if specifiers.length > 1 then specifierRange source specifiers index spec
    else declarationLine source span
  | none => declarationLine source span

/-- The first import of a name: the stretch of its declaration, all names of that and the index. -/
def find? (program : Program) (name : String) : Option (Span × List ImportSpecifier × Nat) :=
  program.statements.findSome? fun
    | .importDeclaration span specifiers _ =>
      (specifiers.findIdx? (·.localName == name)).map fun index => (span, specifiers, index)
    | _ => none

/-- The script uses the name somewhere. -/
def isUsed (program : Program) (name : String) : Bool :=
  program.nodes.any fun n => n.referenceName? == some name

/-- The script without the import of a name that it does not use; `none` when there is nothing to
take out, also when the script cannot be read. -/
def removeUnused? (dialect : Dialect) (name source : String) : Option String := do
  let program ← Program.parse? dialect source
  let (span, specifiers, index) ← find? program name
  if isUsed program name then none
  else
    let draft : Draft := { source }
    (draft.remove (removalRange source.toList span specifiers index)).render?

end VueSetup.Import
