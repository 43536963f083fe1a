import VueSetup.Script.Dialect
import VueSetup.Script.Node
import VueSetup.Script.Token

/-!
# VueSetup.Script.Parse

Parsers over a **cursor**: the current token, the text that it starts and the text behind it.
A parser reads the cursor, may move it, and either gives a value or refuses. Going back is done by
keeping the cursor, so that a parser can be tried (`attempt`) or only looked through (`sees`).

The rules of a grammar refer to each other without end. They are written here as functions of a
`Grammar`, which holds the rules that others refer to; `VueSetup.Script.Program` then ties them,
one level of nesting after the other.
-/

namespace VueSetup.Script

/-! ### Cursors -/

/-- A position in a script. -/
structure Cursor where
  token : Token
  /-- The text from the current token on. -/
  here : List Char
  /-- The text behind the current token. -/
  behind : List Char
  /-- Where the token before the current one ends. -/
  lastStop : Nat
  /-- A number above the length of the script, which bounds all repetitions. -/
  bound : Nat

namespace Cursor

/-- The cursor on the first token of a text that starts at byte `pos`. -/
def scanAt (bound pos : Nat) (cs : List Char) : Cursor :=
  let blanks := skipBlanks bound 0 false cs
  let kind := scanKind bound blanks.rest
  let start := pos + blanks.size
  { token := ⟨kind.value, start, start + kind.size, blanks.value⟩
    here := blanks.rest
    behind := kind.rest
    lastStop := pos
    bound }

/-- The cursor on the next token. -/
def next (c : Cursor) : Cursor :=
  scanAt c.bound c.token.stop c.behind

/-- The cursor on the same token read as another one of `n` characters, all of them ASCII. -/
def respell (c : Cursor) (p : Punct) (n : Nat) : Cursor :=
  { c with
    token := { c.token with kind := .punct p, stop := c.token.start + n }
    behind := c.here.drop n }

end Cursor

/-! ### Parsers -/

/-- What the surroundings of a construct allow inside of it. -/
structure Context where
  dialect : Dialect
  /-- `in` is an operator. -/
  allowsIn : Bool := true
  /-- `yield` is an operator. -/
  allowsYield : Bool := false
  /-- `await` is an operator. -/
  allowsAwait : Bool := true
  /-- `return` is a statement. -/
  allowsReturn : Bool := false
  /-- The code only declares what is defined elsewhere. -/
  ambient : Bool := false
  /-- A type may be conditional. -/
  allowsConditional : Bool := true
  /-- The code is a decorator, behind which a bracket starts the next member. -/
  inDecorator : Bool := false

/-- A parser. -/
abbrev Parse := ReaderT Context (StateT Cursor Option)

namespace Parse

/-- The text is not in the language. -/
def reject {α : Type} : Parse α :=
  failure

/-- Go on only if the condition holds. -/
def require (condition : Bool) : Parse Unit :=
  if condition then pure () else reject

/-- Run a parser in changed surroundings. -/
def within {α : Type} (change : Context → Context) (p : Parse α) : Parse α :=
  ReaderT.adapt change p

/-- Run a parser inside of brackets, where `in` is an operator again. -/
def bracketed {α : Type} (p : Parse α) : Parse α :=
  within ({ · with allowsIn := true, inDecorator := false }) p

/-- Try a parser; where it refuses, nothing has moved. -/
def attempt {α : Type} (p : Parse α) : Parse (Option α) :=
  (some <$> p) <|> pure none

/-- Run a parser and go back. -/
def ahead {α : Type} (p : Parse α) : Parse (Option α) := do
  let c ← get
  let found ← attempt p
  set c
  return found

/-- Whether a test holds from here on; nothing moves. -/
def sees (p : Parse Bool) : Parse Bool := do
  return (← ahead p).getD false

/-! ### Tokens -/

/-- The current token. -/
def token : Parse Token := do
  return (← get).token

/-- The token after the current one. -/
def peek : Parse Token := do
  return (← get).next.token

/-- The token after `peek`. -/
def peekSecond : Parse Token := do
  return (← get).next.next.token

/-- The token after `peekSecond`. -/
def peekThird : Parse Token := do
  return (← get).next.next.next.token

/-- Move on to the next token. -/
def advance : Parse Unit :=
  modify Cursor.next

/-- Move to the first token of a text that starts at byte `pos`. -/
def moveTo (pos : Nat) (cs : List Char) : Parse Unit :=
  modify fun c => Cursor.scanAt c.bound pos cs

/-- Where the current token starts. -/
def start : Parse Nat := do
  return (← token).start

/-- The stretch from a byte up to the end of the last token. -/
def spanFrom (start : Nat) : Parse Span := do
  return ⟨start, (← get).lastStop⟩

/-- A bound for repetitions, each of which passes at least one character. -/
def bound : Parse Nat := do
  return (← get).bound

end Parse

namespace Token

/-- The token is the given punctuation. -/
def isPunct (t : Token) (p : Punct) : Bool :=
  t.kind == .punct p

/-- The token is the given keyword. -/
def isWord (t : Token) (w : String) : Bool :=
  match t.kind with
  | .word name escaped => !escaped && name == w
  | _ => false

/-- The token is one of the given keywords. -/
def isOneOf (t : Token) (ws : List String) : Bool :=
  match t.kind with
  | .word name escaped => !escaped && ws.contains name
  | _ => false

/-- The token is a name or any keyword. -/
def isName (t : Token) : Bool :=
  match t.kind with
  | .word _ _ => true
  | _ => false

/-- The token is a string. -/
def isString (t : Token) : Bool :=
  match t.kind with
  | .string _ => true
  | _ => false

/-- The token opens a template. -/
def isTemplate (t : Token) : Bool :=
  match t.kind with
  | .template _ _ => true
  | _ => false

/-- Keywords that no name can be. -/
def reserved : List String :=
  ["break", "case", "catch", "class", "const", "continue", "debugger", "default", "delete", "do",
    "else", "enum", "export", "extends", "false", "finally", "for", "function", "if", "import",
    "in", "instanceof", "new", "null", "return", "super", "switch", "this", "throw", "true", "try",
    "typeof", "var", "void", "while", "with"]

/-- The token can be a name of the script's own. -/
def isIdentifier (t : Token) : Bool :=
  match t.kind with
  | .word name _ => !reserved.contains name
  | _ => false

/-- The token is a literal without parts. -/
def isLiteral (t : Token) : Bool :=
  match t.kind with
  | .number | .bigint | .string _ => true
  | _ => t.isOneOf ["null", "true", "false"]

/-- The token can start the name of a member. -/
def isMemberStart (t : Token) : Bool :=
  match t.kind with
  | .word _ _ | .privateName _ | .number | .bigint | .string _ => true
  | .punct p => p == .lbrack
  | _ => false

/-- Operators that assign. -/
def isAssignment (t : Token) : Bool :=
  match t.kind with
  | .punct p =>
    [Punct.eq, .plusEq, .minusEq, .starEq, .slashEq, .percentEq, .powerEq, .shlEq, .shrEq, .ushrEq,
      .ampEq, .pipeEq, .caretEq, .ampAmpEq, .pipePipeEq, .coalesceEq].contains p
  | _ => false

end Token

namespace Parse

/-! ### Steps -/

/-- The current token is the given punctuation. -/
def at? (p : Punct) : Parse Bool := do
  return (← token).isPunct p

/-- The current token is the given keyword. -/
def atWord? (w : String) : Parse Bool := do
  return (← token).isWord w

/-- Pass the given punctuation, if it is there. -/
def eat? (p : Punct) : Parse Bool := do
  if ← at? p then advance; return true else return false

/-- Pass the given keyword, if it is there. -/
def eatWord? (w : String) : Parse Bool := do
  if ← atWord? w then advance; return true else return false

/-- Pass the given punctuation, which has to be there. -/
def expect (p : Punct) : Parse Unit := do
  require (← eat? p)

/-- Pass the given keyword, which has to be there. -/
def expectWord (w : String) : Parse Unit := do
  require (← eatWord? w)

/-- The script uses types. -/
def hasTypes : Parse Bool := do
  return (← read).dialect.types

/-- The script uses markup. -/
def hasMarkup : Parse Bool := do
  return (← read).dialect.markup

/-- A statement may end here without a semicolon. -/
def mayEnd : Parse Bool := do
  let t ← token
  return t.isPunct .semicolon || t.isPunct .rcurly || t.kind == .endOfText || t.afterLineEnd

/-- End a statement: at a semicolon, before a brace, at the end of a line or of the text. -/
def endStatement : Parse Unit := do
  require (← mayEnd)
  discard (eat? .semicolon)

/-- Read right angles as the longest operator that they spell. -/
def joinAngles : Parse Unit := do
  let c ← get
  if c.token.isPunct .gt then
    let (p, n) := longestAngles c.here
    set (c.respell p n)

/-- Read left angles as a single one, if the token starts with one. -/
def splitAngles : Parse Unit := do
  let c ← get
  if [Punct.shl, .shlEq, .ltEq].any c.token.isPunct then set (c.respell .lt 1)

/-! ### Names -/

/-- A name of the script's own. `yield` and `await` are none where they are operators. -/
def identifier : Parse (Span × String) := do
  let t ← token
  match t.kind with
  | .word name _ =>
    require t.isIdentifier
    let ctx ← read
    require (!(ctx.allowsAwait && name == "await") && !(ctx.allowsYield && name == "yield"))
    advance
    return (⟨t.start, t.stop⟩, name)
  | _ => reject

/-- A use of a name. -/
def reference : Parse Node := do
  let (span, name) ← identifier
  return .reference span name

/-- A declared name. -/
def binding : Parse Node := do
  let (span, name) ← identifier
  return .binding span name []

/-- Any name, also a keyword. -/
def anyName : Parse (Span × String) := do
  let t ← token
  match t.kind with
  | .word name _ =>
    advance
    return (⟨t.start, t.stop⟩, name)
  | _ => reject

/-- A name that is neither used nor declared. -/
def plainName : Parse Node := do
  let (span, name) ← anyName
  return .plainName span name

/-- A name of a private member. -/
def privateName : Parse Node := do
  let t ← token
  match t.kind with
  | .privateName name =>
    advance
    return .plainName ⟨t.start, t.stop⟩ name
  | _ => reject

/-- A string. -/
def string : Parse Node := do
  let t ← token
  match t.kind with
  | .string value =>
    advance
    return .string ⟨t.start, t.stop⟩ value
  | _ => reject

/-! ### Repetition -/

/-- Repeat a parser until a test holds, `n` times at most. -/
def untilFuel {α : Type} (stop : Parse Bool) (item : Parse α) : Nat → Parse (List α)
  | 0 => reject
  | n + 1 => do
    if ← stop then return []
    else
      let first ← item
      return first :: (← untilFuel stop item n)

/-- Repeat a parser until a test holds. -/
def until? {α : Type} (stop : Parse Bool) (item : Parse α) : Parse (List α) := do
  untilFuel stop item (← bound)

/-- The items behind the first one of a list, each after a separator. -/
def separatedFuel {α : Type} (separator : Punct) (item : Parse α) : Nat → Parse (List α)
  | 0 => reject
  | n + 1 => do
    if ← eat? separator then
      let first ← item
      return first :: (← separatedFuel separator item n)
    else return []

/-- One item or more with separators between them. -/
def separated {α : Type} (separator : Punct) (item : Parse α) : Parse (List α) := do
  let first ← item
  return first :: (← separatedFuel separator item (← bound))

/-- The items of a list up to its closing punctuation, with commas between them. A comma may stand
behind the last one. -/
def listFuel {α : Type} (close : Punct) (item : Parse α) : Nat → Parse (List α)
  | 0 => reject
  | n + 1 => do
    if ← at? close then return []
    else
      let first ← item
      if ← eat? .comma then return first :: (← listFuel close item n)
      else return [first]

/-- A list up to and with its closing punctuation. -/
def listTo {α : Type} (close : Punct) (item : Parse α) : Parse (List α) := do
  let items ← listFuel close item (← bound)
  expect close
  return items

/-- A parser's outcome as a list of one. -/
def one {α : Type} (p : Parse α) : Parse (List α) := do
  return [← p]

/-- Run a parser under a condition. -/
def optional {α : Type} (condition : Bool) (p : Parse α) : Parse (List α) := do
  if condition then one p else return []

end Parse

/-! ### Grammars -/

/-- The rules that other rules refer to. -/
structure Grammar where
  /-- Expressions with commas between them. -/
  expression : Parse Node
  /-- An expression without commas. -/
  assignment : Parse Node
  /-- An expression of operators that bind tighter than the given one. -/
  operation : Nat → Parse Node
  /-- An operand with the operators before and behind it. -/
  operand : Parse Node
  /-- An operand with its members and calls. -/
  access : Parse Node
  /-- A statement; the flag says that it is the only one of another statement. -/
  statement : Bool → Parse Node
  type : Parse Node
  /-- A pattern that declares names. -/
  pattern : Parse Node
  /-- An element of markup. The cursor stays on its last token. -/
  element : Parse Node

/-- The grammar that refuses everything. -/
def Grammar.exhausted : Grammar :=
  ⟨.reject, .reject, fun _ => .reject, .reject, .reject, fun _ => .reject, .reject, .reject,
    .reject⟩

end VueSetup.Script
