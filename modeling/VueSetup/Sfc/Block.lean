import VueSetup.Text.Offset

/-!
# VueSetup.Sfc.Block

The top-level blocks of a single-file component, and the scan that finds them.

The scan reads the file from left to right and looks only at tags:

* text outside of blocks is passed over, and so are comments, whole;
* a tag that is not opened or not closed properly is no block, and the scan goes on behind its `<`;
* a block ends at the first closing tag of its name, in whatever case; a `template` block ends at
  the closing tag that balances the templates opened inside it.

Lines are counted from 1. A column is counted in bytes; the opening tag's column is counted from 1,
and the closing tag's column is the distance in bytes from the last line feed of the content, or
from the start of the block when its content has none.
-/

namespace VueSetup.Sfc

open Text (byteSize)

/-! ### Types -/

/-- Where a block stands in its file. -/
structure Location where
  /-- Offset of the `<` of the opening tag. -/
  tagStart : Nat
  /-- Offset at which the content starts. -/
  start : Nat
  /-- Offset at which the content ends. -/
  stop : Nat
  startLine : Nat
  startColumn : Nat
  stopLine : Nat
  stopColumn : Nat
  deriving DecidableEq, Repr

/-- Attributes by name; no name stands twice. -/
abbrev Attributes := List (String × String)

/-- Set an attribute. A later value takes the place of an earlier one. -/
def Attributes.insert (attrs : Attributes) (name value : String) : Attributes :=
  match attrs with
  | [] => [(name, value)]
  | (n, v) :: rest =>
    if n = name then (n, value) :: rest else (n, v) :: Attributes.insert rest name value

/-- A top-level block. -/
structure Block where
  /-- The tag's name as written. -/
  tag : String
  attributes : Attributes
  content : String
  location : Location
  deriving DecidableEq, Repr

namespace Block

/-- The value of an attribute. An attribute without a value has the empty one. -/
def attribute? (b : Block) (name : String) : Option String :=
  b.attributes.lookup name

/-- The language of a script. -/
def lang? (b : Block) : Option String :=
  b.attribute? "lang"

/-- The file that a script's content is taken from. -/
def src? (b : Block) : Option String :=
  b.attribute? "src"

/-- The script runs as the component's `setup`. -/
def isSetup (b : Block) : Bool :=
  (b.attribute? "setup").isSome

/-- The offset behind the name of a `script` tag, where a new attribute goes. -/
def attributeOffset (b : Block) : Nat :=
  b.location.tagStart + byteSize "<script".toList

end Block

/-! ### Character classes -/

/-- The character can stand in a tag's name. -/
def isNameChar (c : Char) : Bool :=
  c.isAlphanum || c == '-' || c == '_'

/-- The character separates attributes. -/
def isTagBlank (c : Char) : Bool :=
  c == ' ' || c == '\t' || c == '\n' || c == '\r'

/-- The character stands between an attribute's name, its `=` and its value. -/
def isTagSpace (c : Char) : Bool :=
  c == ' ' || c == '\t'

/-- The character can stand in an attribute value that is not quoted. -/
def isBareChar (c : Char) : Bool :=
  !(c == '>' || c == '/' || isTagBlank c)

/-- The character can stand in an attribute's name. -/
def isAttributeChar (c : Char) : Bool :=
  c != '=' && isBareChar c

/-- The text starts with the given one, where the case of ASCII letters does not count. -/
def startsWithAnyCase : List Char → List Char → Bool
  | [], _ => true
  | _ :: _, [] => false
  | p :: ps, c :: cs => p.toLower == c.toLower && startsWithAnyCase ps cs

/-- Two tag names are the same but for the case of ASCII letters. -/
def sameName (a b : String) : Bool :=
  a.toList.map Char.toLower == b.toList.map Char.toLower

/-! ### Opening tags -/

/-- The value behind an attribute's `=`, and what follows it. A quoted value without its closing
quote takes the rest of the file. -/
def attributeValue : List Char → String × List Char
  | [] => ("", [])
  | c :: cs =>
    if c == '\x22' || c == '\'' then
      (String.ofList (cs.takeWhile (· != c)), (cs.dropWhile (· != c)).drop 1)
    else
      (String.ofList ((c :: cs).takeWhile isBareChar), (c :: cs).dropWhile isBareChar)

/-- The attributes of a tag, and what follows them. The number bounds how many are read. -/
def readAttributes : Nat → Attributes → List Char → Attributes × List Char
  | 0, attrs, cs => (attrs, cs)
  | n + 1, attrs, cs =>
    match cs.dropWhile isTagBlank with
    | [] => (attrs, [])
    | c :: cs =>
      if c == '>' || c == '/' then (attrs, c :: cs)
      else if c == '=' then readAttributes n attrs cs
      else
        let name := String.ofList ((c :: cs).takeWhile isAttributeChar)
        match ((c :: cs).dropWhile isAttributeChar).dropWhile isTagSpace with
        | '=' :: rest =>
          let (value, rest) := attributeValue (rest.dropWhile isTagSpace)
          readAttributes n (attrs.insert name value) rest
        | rest => readAttributes n (attrs.insert name "") rest

/-- An opening tag: its name, its attributes, whether it closes itself, and what follows it. -/
structure OpenTag where
  name : String
  attributes : Attributes
  selfClosing : Bool
  rest : List Char

/-- Read an opening tag from behind its `<`. -/
def OpenTag.read? (cs : List Char) : Option OpenTag :=
  match cs.takeWhile isNameChar with
  | [] => none
  | name =>
    let (attrs, rest) := readAttributes (cs.length + 1) [] (cs.dropWhile isNameChar)
    match rest with
    | '/' :: '>' :: rest => some ⟨String.ofList name, attrs, true, rest⟩
    | '>' :: rest => some ⟨String.ofList name, attrs, false, rest⟩
    | _ => none

/-! ### Closing tags -/

/-- Where a closing tag was found: its offset, its line and the last line feed before it. -/
structure Closing where
  offset : Nat
  line : Nat
  lineFeed : Nat

/-- Where the scan stands behind one more character. -/
def Closing.advance (p : Closing) (c : Char) : Closing :=
  { offset := p.offset + c.utf8Size
    line := if c = '\n' then p.line + 1 else p.line
    lineFeed := if c = '\n' then p.offset else p.lineFeed }

/-- The first place at which the text goes on with the closing tag. -/
def findClosing? (tag : List Char) (p : Closing) : List Char → Option Closing
  | [] => none
  | c :: cs =>
    if c == '<' && startsWithAnyCase tag (c :: cs) then some p
    else findClosing? tag (p.advance c) cs

/-- A tag that closes itself does so before its first `>`. -/
def closesItself : List Char → Bool
  | [] => false
  | '>' :: _ => false
  | '/' :: '>' :: _ => true
  | _ :: cs => closesItself cs

/-- The text behind a `<` opens a template that will need a closing tag of its own. -/
def opensTemplate (cs : List Char) : Bool :=
  startsWithAnyCase "template".toList cs &&
    match cs.drop "template".length with
    | [] => false
    | c :: rest => (c == '>' || isTagBlank c) && !closesItself (c :: rest)

/-- The closing tag that balances `depth` open templates. -/
def findTemplateClosing? (depth : Nat) (p : Closing) : List Char → Option Closing
  | [] => none
  | c :: cs =>
    if c == '<' && startsWithAnyCase "</template>".toList (c :: cs) then
      if depth ≤ 1 then some p else findTemplateClosing? (depth - 1) (p.advance c) cs
    else if c == '<' && opensTemplate cs then findTemplateClosing? (depth + 1) (p.advance c) cs
    else findTemplateClosing? depth (p.advance c) cs

/-! ### The scan -/

/-- A position of the scan. -/
structure Place where
  offset : Nat
  line : Nat
  column : Nat

/-- The position behind one more character. -/
def Place.advance (p : Place) (c : Char) : Place :=
  if c = '\n' then ⟨p.offset + 1, p.line + 1, 1⟩
  else ⟨p.offset + c.utf8Size, p.line, p.column + c.utf8Size⟩

/-- The position behind a text. -/
def Place.over (p : Place) (cs : List Char) : Place :=
  cs.foldl Place.advance p

/-- A block, the position behind it and the text behind it. -/
structure Found where
  block : Block
  place : Place
  rest : List Char

/-- The block with the given opening tag whose `<` stands at `p` and whose content goes from `start`
to a closing tag of the given width. -/
def OpenTag.found (tag : OpenTag) (p : Place) (start : Nat) (closing : Closing) (width : Nat) :
    Found :=
  let stopColumn := closing.offset - closing.lineFeed + width
  let content := Text.between tag.rest 0 (closing.offset - start)
  { block :=
      { tag := tag.name
        attributes := tag.attributes
        content := String.ofList content
        location :=
          ⟨p.offset, start, closing.offset, p.line, p.column, closing.line, stopColumn⟩ }
    place := ⟨closing.offset + width, closing.line, stopColumn⟩
    rest := Text.suffixFrom tag.rest (closing.offset - start + width) }

/-- Read the block whose `<` stands at `p`, given the text behind that `<`. -/
def Found.read? (p : Place) (cs : List Char) : Option Found := do
  let tag ← OpenTag.read? cs
  let start := p.offset + 1 + (byteSize cs - byteSize tag.rest)
  let origin : Closing := ⟨start, p.line, p.offset⟩
  if tag.selfClosing then return tag.found p start origin 0
  if sameName tag.name "template" then
    return tag.found p start (← findTemplateClosing? 1 origin tag.rest) "</template>".length
  else
    let closing := "</".toList ++ tag.name.toList ++ ['>']
    return tag.found p start (← findClosing? closing origin tag.rest) closing.length

/-- The text up to and including the first `-->`, and what follows it. -/
def splitComment : List Char → List Char × List Char
  | [] => ([], [])
  | '-' :: '-' :: '>' :: cs => (['-', '-', '>'], cs)
  | c :: cs => let (comment, rest) := splitComment cs; (c :: comment, rest)

/-- The blocks of a text, from `p` on. The number bounds the steps of the scan. -/
def blocksFrom : Nat → Place → List Char → List Block
  | 0, _, _ => []
  | n + 1, p, cs =>
    let q := p.over (cs.takeWhile (· != '<'))
    match cs.dropWhile (· != '<') with
    | [] => []
    | c :: cs =>
      if "!--".toList.isPrefixOf cs then
        let (comment, rest) := splitComment (c :: cs)
        blocksFrom n (q.over comment) rest
      else
        match Found.read? q cs with
        | some found => found.block :: blocksFrom n found.place found.rest
        | none => blocksFrom n (q.advance c) cs

/-- The top-level blocks of a file, in order. -/
def blocks (source : String) : List Block :=
  blocksFrom (source.toList.length + 1) ⟨0, 1, 1⟩ source.toList

end VueSetup.Sfc
