import VueSetup.Script.Grammar.Declaration

/-!
# VueSetup.Script.Grammar.Module

Imports and exports.
-/

namespace VueSetup.Script.Grammar

open Parse

variable (g : Grammar)

/-! ### Shared parts -/

/-- A name by which a module exports: any word, or a string. -/
def exportName : Parse Node := do
  if (← token).isString then string else plainName

/-- The text of an exported name. -/
def exportText : Node → String
  | .plainName _ name => name
  | .reference _ name => name
  | .string _ value => value
  | _ => ""

/-- One attribute of an import. -/
def importAttribute : Parse Node := do
  let start ← start
  let key ← exportName
  expect .colon
  let value ← string
  return .form .other (← spanFrom start) [key, value]

/-- The attributes of an import, if there are any. -/
def importAttributes : Parse (List Node) := do
  let t ← token
  if t.isWord "with" || (t.isWord "assert" && !t.afterLineEnd) then
    advance
    expect .lcurly
    listTo .rcurly importAttribute
  else return []

/-- The module that names come from. -/
def moduleSource : Parse (List Node) := do
  let source ← string
  return source :: (← importAttributes)

/-! ### Imports -/

/-- The word `type` before a name, where it is not the name itself. -/
def eatTypeWord : Parse Bool := do
  if (← hasTypes) && (← atWord? "type") then
    let first ← peek
    let second ← peekSecond
    let third ← peekThird
    let isMark :=
      if first.isWord "as" then
        if second.isWord "as" then third.isName else !second.isName
      else first.isName || first.isString
    if isMark then advance
    return isMark
  else return false

/-- One name in the braces of an import. -/
def importSpecifier : Parse (ImportSpecifier × List Node) := do
  let start ← start
  discard eatTypeWord
  if (← peek).isWord "as" then
    let imported ← exportName
    advance
    let (_, name) ← identifier
    return (⟨.named, ← spanFrom start, name⟩, [imported])
  else
    let (_, name) ← identifier
    return (⟨.named, ← spanFrom start, name⟩, [])

/-- The name of a whole module. -/
def namespaceSpecifier : Parse ImportSpecifier := do
  let start ← start
  expect .star
  expectWord "as"
  let (_, name) ← identifier
  return ⟨.all, ← spanFrom start, name⟩

/-- The imported names in braces. -/
def bracedSpecifiers : Parse (List ImportSpecifier × List Node) := do
  expect .lcurly
  let named ← listTo .rcurly importSpecifier
  return (named.map (·.1), named.flatMap (·.2))

/-- The imported names but for the default: that of the whole module, or names in braces. -/
def otherSpecifiers : Parse (List ImportSpecifier × List Node) := do
  if ← at? .star then return ([← namespaceSpecifier], []) else bracedSpecifiers

/-- The imported names up to `from`. -/
def importSpecifiers : Parse (List ImportSpecifier × List Node) := do
  if (← token).isIdentifier then
    let start ← start
    let (_, name) ← identifier
    let first : ImportSpecifier := ⟨.default, ← spanFrom start, name⟩
    if ← eat? .comma then
      let (specifiers, parts) ← otherSpecifiers
      return (first :: specifiers, parts)
    else return ([first], [])
  else otherSpecifiers

/-- What an import says before the module that it imports from. -/
def importClause : Parse (List ImportSpecifier × List Node) := do
  if (← token).isString then return ([], [])
  else
    let found ← importSpecifiers
    expectWord "from"
    return found

/-- The word `type` or a phase behind `import`, where it is not a name itself. -/
def skipImportWord : Parse Unit := do
  let t ← token
  let first ← peek
  let second ← peekSecond
  if (← hasTypes) && t.isWord "type" then
    if first.isPunct .lcurly || first.isPunct .star then advance
    else if first.isWord "from" then
      if second.isWord "from" then advance
    else if first.isIdentifier then advance
  else if t.isWord "source" && first.isIdentifier && second.isWord "from" then advance
  else if t.isWord "defer" && first.isPunct .star then advance

/-- An import. -/
def importDeclaration : Parse Node := do
  let start ← start
  advance
  let t ← token
  let first ← peek
  let second ← peekSecond
  if (← hasTypes) && ((t.isIdentifier && first.isPunct .eq) ||
      (t.isWord "type" && first.isIdentifier && second.isPunct .eq)) then
    importEquals start
  else
    skipImportWord
    let (specifiers, parts) ← importClause
    let source ← moduleSource
    endStatement
    return .importDeclaration (← spanFrom start) specifiers (parts ++ source)

/-! ### Exports -/

/-- One name in the braces of an export. -/
structure ExportSpecifier where
  token : Token
  isType : Bool
  own : Node
  /-- The name behind `as`, if there is one. -/
  renamed : List Node

/-- The name under which is exported. -/
def ExportSpecifier.exported (s : ExportSpecifier) : Node :=
  s.renamed.headD s.own

/-- One name in the braces of an export. -/
def exportSpecifier : Parse ExportSpecifier := do
  let isType ← eatTypeWord
  let token ← token
  let own ← exportName
  let renamed ← optional (← eatWord? "as") exportName
  return ⟨token, isType, own, renamed⟩

/-- Words that name nothing of the script's own in an export. -/
def unexportable : List String :=
  Token.reserved ++ ["await", "yield", "implements", "interface", "package", "private", "protected",
    "public", "static"]

/-- Exports in braces. Without a source the own names are uses of names. -/
def exportBraces (start : Nat) (typesOnly : Bool) : Parse Node := do
  expect .lcurly
  let specifiers ← listTo .rcurly exportSpecifier
  let names := if typesOnly then [] else specifiers.map fun s => exportText s.exported
  if ← eatWord? "from" then
    let source ← moduleSource
    endStatement
    let strings := specifiers.flatMap fun s => [s.own, s.exported]
    return .exportNamed (← spanFrom start) names (strings ++ source)
  else
    require (specifiers.all fun s => s.token.isName && !unexportable.contains (exportText s.own))
    endStatement
    let uses := specifiers.flatMap fun s =>
      [.reference s.own.span (exportText s.own), s.exported]
    return .exportNamed (← spanFrom start) names uses

/-- Everything that another module exports. -/
def exportAll (start : Nat) (typesOnly : Bool) : Parse Node := do
  expect .star
  let name ← optional (← eatWord? "as") exportName
  expectWord "from"
  let source ← moduleSource
  endStatement
  let names := if typesOnly then [] else name.map exportText
  return .exportNamed (← spanFrom start) names (name ++ source)

/-- The default export, from behind `default`. -/
def exportDefault (start : Nat) : Parse Node := do
  let decorators ← decorators g
  let t ← token
  let next ← peek
  let value ←
    if t.isWord "class" then classRule g true decorators
    else if (← hasTypes) && t.isWord "abstract" && next.isWord "class" then
      advance
      classRule g true decorators
    else if (← hasTypes) && t.isWord "interface" && next.isIdentifier && !next.afterLineEnd then
      interface g (← Parse.start)
    else if ← atFunction then functionDeclaration g true false
    else
      let value ← g.assignment
      endStatement
      pure value
  return .exportDefault (← spanFrom start) value

/-- An export. -/
def exportDeclaration (decorators : List Node) : Parse Node := do
  let start ← start
  advance
  let t ← token
  let next ← peek
  let types ← hasTypes
  if t.isWord "default" then
    advance
    exportDefault g start
  else if t.isPunct .star then exportAll start false
  else if t.isPunct .lcurly then exportBraces start false
  else if types && t.isWord "type" && next.isPunct .lcurly then
    advance
    exportBraces start true
  else if types && t.isWord "type" && next.isPunct .star then
    advance
    exportAll start true
  else if types && t.isPunct .eq then
    advance
    let value ← g.expression
    endStatement
    return .form .other (← spanFrom start) [value]
  else if types && t.isWord "as" && next.isWord "namespace" then
    advance
    advance
    let name ← plainName
    endStatement
    return .form .other (← spanFrom start) [name]
  else
    let own ← Grammar.decorators g
    let declaration ← if types then typedDeclaration g (decorators ++ own)
      else plainDeclaration g start (decorators ++ own)
    return .exportNamed (← spanFrom start) declaration.boundNames [declaration]

end VueSetup.Script.Grammar
