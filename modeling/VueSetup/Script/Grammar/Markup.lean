import VueSetup.Script.Grammar.Expression

/-!
# VueSetup.Script.Grammar.Markup

Elements of markup inside of expressions. Names and attribute values have spellings of their own
there, and between tags stands plain text, so that these parts are read from the text itself.

An element is read with the cursor staying on its last `>`: what follows is plain text for an
element inside of another, and a token for the outermost one.
-/

namespace VueSetup.Script.Grammar

open Parse Text

variable (g : Grammar)

/-! ### Names -/

/-- The character can stand in the name of a tag or attribute. -/
def isMarkupPart (c : Char) : Bool :=
  isIdentifierPart c || c == '-'

/-- The name of a tag or attribute at the cursor, which may hold hyphens. -/
def markupWord : Parse (Span × String) := do
  let c ← get
  match c.token.kind with
  | .word _ false =>
    let word := c.here.takeWhile isMarkupPart
    let stop := c.token.start + byteSize word
    moveTo stop (c.here.dropWhile isMarkupPart)
    return (⟨c.token.start, stop⟩, String.ofList word)
  | _ => reject

/-- A tag named so is a component and the name is used; all other names are those of plain tags. -/
def isComponentName (name : String) : Bool :=
  match name.toList with
  | [] => false
  | c :: _ => !(c.toNat < 0x80 && c.isLower) && !name.toList.contains '-'

/-- The name of an element: a word, a word in a namespace or a member. The text that comes with it
is what opening and closing tag have to agree on. -/
def elementName : Parse (Node × String) := do
  let start ← start
  let (span, name) ← markupWord
  if ← eat? .colon then
    let (_, second) ← markupWord
    return (.form .other (← spanFrom start) [], name ++ ":" ++ second)
  else if ← at? .dot then
    let path ← until? (return !(← at? .dot)) do
      advance
      return (← markupWord).2
    let head : List Node := if name = "this" then [] else [.reference span name]
    return (.form .other (← spanFrom start) head, ".".intercalate (name :: path))
  else if name ≠ "this" && isComponentName name then return (.reference span name, name)
  else return (.plainName span name, name)

/-! ### Attributes -/

/-- A string of markup, which has no escapes and may go over several lines. -/
def markupString : Parse Node := do
  let c ← get
  match c.here with
  | quote :: text =>
    require (quote == '\x22' || quote == '\'')
    let value := text.takeWhile (· != quote)
    match text.dropWhile (· != quote) with
    | _ :: rest =>
      let stop := c.token.start + byteSize value + 2
      moveTo stop rest
      return .string ⟨c.token.start, stop⟩ (String.ofList value)
    | [] => reject
  | [] => reject

/-- The value of an attribute. -/
def attributeValue : Parse Node := do
  if ← eat? .lcurly then
    let value ← bracketed g.assignment
    expect .rcurly
    return value
  else if ← at? .lt then
    let element ← g.element
    advance
    return element
  else markupString

/-- The name of an attribute, which may be in a namespace. -/
def attributeName : Parse Unit := do
  discard markupWord
  if ← eat? .colon then discard markupWord

/-- An attribute, or attributes spread from an object. -/
def markupAttribute : Parse Node := do
  let start ← start
  if ← eat? .lcurly then
    let operand ← spread g
    expect .rcurly
    return operand
  else
    attributeName
    let value ← optional (← eat? .eq) (attributeValue g)
    return .form .other (← spanFrom start) value

/-! ### Elements -/

/-- The character stands for itself between tags. -/
def isPlainText (c : Char) : Bool :=
  !(c == '<' || c == '{')

/-- What is embedded between braces; it may be missing. -/
def embeddedValue : Parse (List Node) := do
  if ← at? .rcurly then return []
  else if ← at? .ellipsis then one (spread g)
  else one (bracketed g.assignment)

/-- What an element holds between its tags, from byte `pos` on, up to its closing tag. The cursor
comes to stand on the `<` of that tag. -/
def children : Nat → Nat → List Char → Parse (List Node)
  | 0, _, _ => reject
  | n + 1, pos, cs => do
    let pos := pos + byteSize (cs.takeWhile isPlainText)
    let cs := cs.dropWhile isPlainText
    match cs with
    | '{' :: _ =>
      moveTo pos cs
      advance
      let embedded ← embeddedValue g
      let c ← get
      require (c.token.isPunct .rcurly)
      return embedded ++ (← children n c.token.stop c.behind)
    | '<' :: _ =>
      moveTo pos cs
      if (← peek).isPunct .slash then return []
      else
        let element ← g.element
        let c ← get
        return element :: (← children n c.token.stop c.behind)
    | _ => reject

/-- The type arguments of an element, if there are any. -/
def elementTypes : Parse (List Node) := do
  if (← hasTypes) && (← at? .lt) then typeArguments g else return []

/-- The last `>` of a tag; the cursor stays on it. -/
def tagEnd : Parse Nat := do
  let t ← token
  require (t.isPunct .gt)
  return t.stop

/-- An element or a fragment. -/
def elementRule : Parse Node := do
  let start ← start
  expect .lt
  if ← at? .gt then
    let c ← get
    let inside ← children g (← bound) c.token.stop c.behind
    expect .lt
    expect .slash
    return .form .other ⟨start, ← tagEnd⟩ inside
  else
    let (head, name) ← elementName
    let types ← elementTypes g
    let attributes ← until? (return (← at? .gt) || (← at? .slash)) (markupAttribute g)
    if ← eat? .slash then
      return .form .other ⟨start, ← tagEnd⟩ (head :: types ++ attributes)
    else
      let c ← get
      let inside ← children g (← bound) c.token.stop c.behind
      expect .lt
      expect .slash
      let (tail, closing) ← elementName
      require (closing = name)
      return .form .other ⟨start, ← tagEnd⟩ (head :: types ++ attributes ++ inside ++ [tail])

end VueSetup.Script.Grammar
