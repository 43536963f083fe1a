import VueSetup.Text.Identifier
import VueSetup.Text.Offset

/-!
# VueSetup.Script.Token

The tokens of a script, and the scan of one token at the head of a text.

Where one token ends depends in four places on the grammar around it, so that no list of all tokens
is ever made; the grammar asks for one token after the other, and in those places scans again from
where the current token starts:

* a `/` starts a regular expression where an expression is expected (`scanRegex?`);
* a `}` that ends an embedded expression is followed by more of the template (`scanTemplate?`);
* a `>` is scanned alone and joined with its successors only in expressions (`longestAngles`);
* the text of markup is scanned by the grammar of markup.

A text that starts no token is scanned as `invalid`; the grammar has no place for it.
-/

namespace VueSetup.Script

open Text (byteSize isIdentifierStart isIdentifierPart)

/-! ### Kinds of tokens -/

/-- Punctuation. -/
inductive Punct where
  | lcurly | rcurly | lparen | rparen | lbrack | rbrack
  | dot | ellipsis | semicolon | comma | colon | arrow | atSign
  | question | questionDot | coalesce
  | lt | gt | ltEq | gtEq | eqEq | notEq | eqEqEq | notEqEq
  | plus | minus | star | slash | percent | power | plusPlus | minusMinus
  | shl | shr | ushr | amp | pipe | caret | bang | tilde | ampAmp | pipePipe
  | eq | plusEq | minusEq | starEq | slashEq | percentEq | powerEq | shlEq | shrEq | ushrEq
  | ampEq | pipeEq | caretEq | ampAmpEq | pipePipeEq | coalesceEq
  deriving DecidableEq, Repr

/-- What a token is. -/
inductive TokenKind where
  /-- A name or a keyword. An escaped one is spelled with an escape and is never a keyword. -/
  | word (name : String) (escaped : Bool)
  /-- A name of a private member, without its `#`. -/
  | privateName (name : String)
  | punct (p : Punct)
  | number
  | bigint
  /-- A string with its value. -/
  | string (value : String)
  /-- A template up to its end, or up to the first embedded expression. The second flag says that
  all escapes are proper. -/
  | template (whole : Bool) (proper : Bool)
  /-- The text starts no token. -/
  | invalid
  | endOfText
  deriving DecidableEq, Repr

/-- A token and where it stands. -/
structure Token where
  kind : TokenKind
  start : Nat
  stop : Nat
  /-- A line ends between the token before and this one. -/
  afterLineEnd : Bool
  deriving DecidableEq, Repr

/-- The outcome of a scan: what was found, how many bytes it takes and what follows. -/
structure Scanned (α : Type) where
  value : α
  size : Nat
  rest : List Char

/-! ### Blanks and comments -/

/-- The character ends a line. -/
def isLineEnd (c : Char) : Bool :=
  c == '\n' || c == '\r' || c == '\u2028' || c == '\u2029'

/-- The character is white space inside of a line. -/
def isSpace (c : Char) : Bool :=
  c == ' ' || c == '\t' || c == '\x0b' || c == '\x0c' || c == '\u0085' || c == '\u00a0' ||
    c == '\u1680' || (0x2000 ≤ c.toNat && c.toNat ≤ 0x200b) || c == '\u202f' || c == '\u205f' ||
    c == '\u3000' || c == '\ufeff'

/-- The inside of a comment up to its closing mark, and what follows the mark. -/
def splitComment? : List Char → Option (List Char × List Char)
  | [] => none
  | '*' :: '/' :: cs => some ([], cs)
  | c :: cs => (splitComment? cs).map fun (body, rest) => (c :: body, rest)

/-- Pass over blanks and comments. The value tells whether a line ended among them. The number
bounds how many there are. -/
def skipBlanks : Nat → Nat → Bool → List Char → Scanned Bool
  | 0, size, line, cs => ⟨line, size, cs⟩
  | n + 1, size, line, cs =>
    match cs with
    | [] => ⟨line, size, []⟩
    | '/' :: '/' :: rest =>
      let body := rest.takeWhile fun c => !isLineEnd c
      skipBlanks n (size + 2 + byteSize body) line (rest.dropWhile fun c => !isLineEnd c)
    | '/' :: '*' :: rest =>
      match splitComment? rest with
      | some (body, behind) =>
        skipBlanks n (size + 4 + byteSize body) (line || body.any isLineEnd) behind
      | none => ⟨line, size, cs⟩
    | c :: rest =>
      if isLineEnd c then skipBlanks n (size + c.utf8Size) true rest
      else if isSpace c then skipBlanks n (size + c.utf8Size) line rest
      else ⟨line, size, cs⟩

/-! ### Escapes -/

/-- The value of a hexadecimal digit. -/
def hexDigit? (c : Char) : Option Nat :=
  if '0' ≤ c && c ≤ '9' then some (c.toNat - '0'.toNat)
  else if 'a' ≤ c && c ≤ 'f' then some (c.toNat - 'a'.toNat + 10)
  else if 'A' ≤ c && c ≤ 'F' then some (c.toNat - 'A'.toNat + 10)
  else none

/-- Exactly `n` hexadecimal digits. -/
def hexDigits? : Nat → Nat → List Char → Option (Nat × List Char)
  | 0, value, cs => some (value, cs)
  | n + 1, value, c :: cs => do hexDigits? n (value * 16 + (← hexDigit? c)) cs
  | _ + 1, _, [] => none

/-- Hexadecimal digits up to a closing brace, for a code point of Unicode. -/
def bracedHex? (value : Nat) (size : Nat) : List Char → Option (Scanned Nat)
  | [] => none
  | c :: cs =>
    if c == '}' then if size = 0 then none else some ⟨value, size + 1, cs⟩
    else do
      let value := value * 16 + (← hexDigit? c)
      if value ≤ 0x10FFFF then bracedHex? value (size + 1) cs else none

/-- The code point of an escape, from behind its `\u`. -/
def codePoint? : List Char → Option (Scanned Nat)
  | '{' :: cs => (bracedHex? 0 0 cs).map fun s => { s with size := s.size + 1 }
  | cs => (hexDigits? 4 0 cs).map fun (value, rest) => ⟨value, 4, rest⟩

/-- The code point is the first half of a pair. -/
def isHighHalf (n : Nat) : Bool :=
  0xD800 ≤ n && n < 0xDC00

/-- The code point is the second half of a pair. -/
def isLowHalf (n : Nat) : Bool :=
  0xDC00 ≤ n && n < 0xE000

/-- Half of a pair that stands alone is kept as an escape. -/
def loneHalf (n : Nat) : List Char :=
  ['\\', 'u'] ++ Nat.toDigits 16 n

/-- What an escape by code point stands for, from behind its `\u`. Two halves of a pair make one
character. -/
def unicodeEscape? (cs : List Char) : Option (Scanned (List Char)) := do
  let first ← codePoint? cs
  if isHighHalf first.value && cs.head? != some '{' then
    match first.rest with
    | '\\' :: 'u' :: cs =>
      let (low, rest) ← hexDigits? 4 0 cs
      if isLowHalf low then
        let c := Char.ofNat (0x10000 + (first.value - 0xD800) * 0x400 + (low - 0xDC00))
        return ⟨[c], first.size + 6, rest⟩
      else return ⟨loneHalf first.value ++ loneHalf low, first.size + 6, rest⟩
    | _ => return { first with value := loneHalf first.value }
  else if isHighHalf first.value || isLowHalf first.value then
    return { first with value := loneHalf first.value }
  else return { first with value := [Char.ofNat first.value] }

/-- The character is an octal digit. -/
def isOctal (c : Char) : Bool :=
  '0' ≤ c && c ≤ '7'

/-- An octal escape of up to three digits and a value below 256. -/
def octalEscape (cs : List Char) : Scanned (List Char) :=
  let digits := (cs.takeWhile isOctal).take 3
  let value (ds : List Char) : Nat := ds.foldl (fun n d => n * 8 + (d.toNat - '0'.toNat)) 0
  let digits := if value digits < 256 then digits else digits.take 2
  ⟨[Char.ofNat (value digits)], digits.length, cs.drop digits.length⟩

/-- What an escape stands for, from behind its backslash. Octal escapes are for strings only. -/
def escape? (octal : Bool) (cs : List Char) : Option (Scanned (List Char)) :=
  match cs with
  | [] => none
  | '\r' :: '\n' :: rest => some ⟨[], 2, rest⟩
  | 'x' :: rest => (hexDigits? 2 0 rest).map fun (value, rest) => ⟨[Char.ofNat value], 3, rest⟩
  | 'u' :: rest => (unicodeEscape? rest).map fun s => { s with size := s.size + 1 }
  | c :: rest =>
    if isLineEnd c then some ⟨[], c.utf8Size, rest⟩
    else if c == '0' && !(rest.head?.any Char.isDigit) then some ⟨['\x00'], 1, rest⟩
    else if c.isDigit && !octal then none
    else if isOctal c then some (octalEscape cs)
    else
      let value := match c with
        | 'n' => '\n'
        | 't' => '\t'
        | 'r' => '\r'
        | 'b' => '\x08'
        | 'v' => '\x0b'
        | 'f' => '\x0c'
        | c => c
      some ⟨[value], c.utf8Size, rest⟩

/-! ### Words -/

/-- The characters of a name, of which the first has to pass `first` and the others can go on in a
name. The value tells whether an escape was used. -/
def wordChars? : Nat → (Char → Bool) → List Char → Option (Scanned (List Char × Bool))
  | 0, _, cs => some ⟨([], false), 0, cs⟩
  | n + 1, admits, cs =>
    match cs with
    | '\\' :: 'u' :: rest => do
      let point ← codePoint? rest
      let c := Char.ofNat point.value
      if admits c then
        let tail ← wordChars? n isIdentifierPart point.rest
        return ⟨(c :: tail.value.1, true), point.size + 2 + tail.size, tail.rest⟩
      else none
    | '\\' :: _ => none
    | c :: rest =>
      if admits c then do
        let tail ← wordChars? n isIdentifierPart rest
        return ⟨(c :: tail.value.1, tail.value.2), c.utf8Size + tail.size, tail.rest⟩
      else some ⟨([], false), 0, cs⟩
    | [] => some ⟨([], false), 0, []⟩

/-- A name; `none` when the text starts with none, or with an improper escape. -/
def scanWord? (bound : Nat) (cs : List Char) : Option (Scanned (String × Bool)) := do
  let word ← wordChars? bound isIdentifierStart cs
  if word.value.1.isEmpty then none
  else return ⟨(String.ofList word.value.1, word.value.2), word.size, word.rest⟩

/-! ### Numbers -/

/-- Digits of a class, with single underscores between them. -/
def scanDigits (isDigit : Char → Bool) (afterDigit : Bool) : List Char → Scanned Unit
  | [] => ⟨(), 0, []⟩
  | c :: cs =>
    if isDigit c then
      let tail := scanDigits isDigit true cs
      ⟨(), tail.size + 1, tail.rest⟩
    else if c == '_' && afterDigit && cs.head?.any isDigit then
      let tail := scanDigits isDigit false cs
      ⟨(), tail.size + 1, tail.rest⟩
    else ⟨(), 0, c :: cs⟩

/-- An exponent, if one follows; `none` when it has no digits. -/
def scanExponent? (cs : List Char) : Option (Scanned Unit) :=
  match cs with
  | e :: rest =>
    if e == 'e' || e == 'E' then
      let (signSize, rest) := match rest with
        | '+' :: rest => (1, rest)
        | '-' :: rest => (1, rest)
        | rest => (0, rest)
      let digits := scanDigits Char.isDigit false rest
      if digits.size = 0 then none else some ⟨(), 1 + signSize + digits.size, digits.rest⟩
    else some ⟨(), 0, cs⟩
  | [] => some ⟨(), 0, cs⟩

/-- The digits of a whole number may be followed by the mark of a big integer. -/
def bigintMark (digits : Scanned Unit) : Scanned TokenKind :=
  match digits.rest with
  | 'n' :: rest => ⟨.bigint, digits.size + 1, rest⟩
  | rest => ⟨.number, digits.size, rest⟩

/-- A whole number with a letter for its base. -/
def scanBased? (isDigit : Char → Bool) (cs : List Char) : Option (Scanned TokenKind) :=
  let digits := scanDigits isDigit false cs
  if digits.size = 0 then none else some (bigintMark { digits with size := digits.size + 2 })

/-- A fraction and an exponent, from behind the whole part of a decimal number. -/
def scanFraction? (wholeSize : Nat) (cs : List Char) : Option (Scanned TokenKind) := do
  let fraction : Scanned Unit := match cs with
    | '.' :: rest =>
      let digits := scanDigits Char.isDigit false rest
      ⟨(), digits.size + 1, digits.rest⟩
    | cs => ⟨(), 0, cs⟩
  let exponent ← scanExponent? fraction.rest
  return ⟨.number, wholeSize + fraction.size + exponent.size, exponent.rest⟩

/-- A decimal number. -/
def scanDecimal? (cs : List Char) : Option (Scanned TokenKind) :=
  let whole := scanDigits Char.isDigit false cs
  match whole.rest with
  | 'n' :: rest => some ⟨.bigint, whole.size + 1, rest⟩
  | rest => scanFraction? whole.size rest

/-- A number with a zero before other digits. One of octal digits only has no fraction. -/
def scanZeroLed? (cs : List Char) : Option (Scanned TokenKind) :=
  let digits := cs.takeWhile Char.isDigit
  let rest := cs.dropWhile Char.isDigit
  if digits.all isOctal then some ⟨.number, digits.length, rest⟩
  else scanFraction? digits.length rest

/-- A number in any spelling. -/
def scanAnyNumber? (cs : List Char) : Option (Scanned TokenKind) :=
  match cs with
  | '0' :: 'x' :: rest | '0' :: 'X' :: rest => scanBased? (fun c => (hexDigit? c).isSome) rest
  | '0' :: 'o' :: rest | '0' :: 'O' :: rest => scanBased? isOctal rest
  | '0' :: 'b' :: rest | '0' :: 'B' :: rest => scanBased? (fun c => c == '0' || c == '1') rest
  | '0' :: '_' :: _ => none
  | '0' :: c :: _ => if c.isDigit then scanZeroLed? cs else scanDecimal? cs
  | cs => scanDecimal? cs

/-- A number. No name and no digit may follow it directly. -/
def scanNumber? (cs : List Char) : Option (Scanned TokenKind) :=
  (scanAnyNumber? cs).filter fun number =>
    !(number.rest.head?.any fun c => isIdentifierPart c || c == '\\')

/-! ### Strings, templates, regular expressions -/

/-- The inside of a string and its closing quote. -/
def stringBody? (quote : Char) : Nat → List Char → Option (Scanned (List Char))
  | 0, _ => none
  | _ + 1, [] => none
  | n + 1, c :: cs =>
    if c == quote then some ⟨[], 1, cs⟩
    else if c == '\\' then do
      let escaped ← escape? true cs
      let tail ← stringBody? quote n escaped.rest
      return ⟨escaped.value ++ tail.value, 1 + escaped.size + tail.size, tail.rest⟩
    else if c == '\n' || c == '\r' then none
    else do
      let tail ← stringBody? quote n cs
      return ⟨c :: tail.value, c.utf8Size + tail.size, tail.rest⟩

/-- The part of a template with more text before it, the escapes of which may be improper. -/
def extendTemplate (size : Nat) (proper : Bool) (tail : Scanned TokenKind) : Scanned TokenKind :=
  match tail.value with
  | .template whole p => ⟨.template whole (p && proper), size + tail.size, tail.rest⟩
  | kind => ⟨kind, size + tail.size, tail.rest⟩

/-- A part of a template, from behind what opens it: up to its end, or up to and with the mark that
opens an embedded expression. -/
def scanTemplate? : Nat → List Char → Option (Scanned TokenKind)
  | 0, _ => none
  | _ + 1, [] => none
  | n + 1, c :: cs =>
    if c == '\x60' then some ⟨.template true true, 1, cs⟩
    else if c == '\\' then
      match escape? false cs with
      | some escaped => (scanTemplate? n escaped.rest).map (extendTemplate (1 + escaped.size) true)
      | none =>
        match cs with
        | d :: cs => (scanTemplate? n cs).map (extendTemplate (1 + d.utf8Size) false)
        | [] => none
    else
      match c, cs with
      | '$', '{' :: rest => some ⟨.template false true, 2, rest⟩
      | c, cs => (scanTemplate? n cs).map (extendTemplate c.utf8Size true)

/-- The inside of a regular expression and its closing slash. A slash inside of a class of
characters does not close it. -/
def regexBody? (inClass : Bool) : List Char → Option (Scanned Unit)
  | [] => none
  | '\\' :: c :: cs =>
    if isLineEnd c then none
    else (regexBody? inClass cs).map fun s => { s with size := s.size + 1 + c.utf8Size }
  | c :: cs =>
    if isLineEnd c then none
    else if c == '/' && !inClass then some ⟨(), 1, cs⟩
    else
      let inClass := if c == '[' then true else if c == ']' then false else inClass
      (regexBody? inClass cs).map fun s => { s with size := s.size + c.utf8Size }

/-- The flags of a regular expression: known letters, each once. -/
def properFlags (flags : List Char) : Bool :=
  flags.all (fun c => c ∈ ['d', 'g', 'i', 'm', 's', 'u', 'v', 'y']) && flags.eraseDups == flags

/-- A regular expression, from behind its opening slash. -/
def scanRegex? (cs : List Char) : Option (Scanned Unit) := do
  let body ← regexBody? false cs
  let flags := body.rest.takeWhile isIdentifierPart
  if properFlags flags then
    return ⟨(), body.size + flags.length, body.rest.drop flags.length⟩
  else none

/-! ### Punctuation -/

/-- The punctuation at the head of a text and how many characters it takes. A `>` is taken alone. -/
def scanPunct? : List Char → Option (Punct × Nat)
  | [] => none
  | c :: cs =>
    match c with
    | '{' => some (.lcurly, 1)
    | '}' => some (.rcurly, 1)
    | '(' => some (.lparen, 1)
    | ')' => some (.rparen, 1)
    | '[' => some (.lbrack, 1)
    | ']' => some (.rbrack, 1)
    | ';' => some (.semicolon, 1)
    | ',' => some (.comma, 1)
    | ':' => some (.colon, 1)
    | '@' => some (.atSign, 1)
    | '~' => some (.tilde, 1)
    | '>' => some (.gt, 1)
    | '.' => match cs with
      | '.' :: '.' :: _ => some (.ellipsis, 3)
      | _ => some (.dot, 1)
    | '?' => match cs with
      | '?' :: '=' :: _ => some (.coalesceEq, 3)
      | '?' :: _ => some (.coalesce, 2)
      | '.' :: d :: _ => if d.isDigit then some (.question, 1) else some (.questionDot, 2)
      | '.' :: _ => some (.questionDot, 2)
      | _ => some (.question, 1)
    | '<' => match cs with
      | '<' :: '=' :: _ => some (.shlEq, 3)
      | '<' :: _ => some (.shl, 2)
      | '=' :: _ => some (.ltEq, 2)
      | _ => some (.lt, 1)
    | '=' => match cs with
      | '=' :: '=' :: _ => some (.eqEqEq, 3)
      | '=' :: _ => some (.eqEq, 2)
      | '>' :: _ => some (.arrow, 2)
      | _ => some (.eq, 1)
    | '!' => match cs with
      | '=' :: '=' :: _ => some (.notEqEq, 3)
      | '=' :: _ => some (.notEq, 2)
      | _ => some (.bang, 1)
    | '+' => match cs with
      | '+' :: _ => some (.plusPlus, 2)
      | '=' :: _ => some (.plusEq, 2)
      | _ => some (.plus, 1)
    | '-' => match cs with
      | '-' :: _ => some (.minusMinus, 2)
      | '=' :: _ => some (.minusEq, 2)
      | _ => some (.minus, 1)
    | '*' => match cs with
      | '*' :: '=' :: _ => some (.powerEq, 3)
      | '*' :: _ => some (.power, 2)
      | '=' :: _ => some (.starEq, 2)
      | _ => some (.star, 1)
    | '/' => match cs with
      | '=' :: _ => some (.slashEq, 2)
      | '*' :: _ => none
      | _ => some (.slash, 1)
    | '%' => match cs with
      | '=' :: _ => some (.percentEq, 2)
      | _ => some (.percent, 1)
    | '&' => match cs with
      | '&' :: '=' :: _ => some (.ampAmpEq, 3)
      | '&' :: _ => some (.ampAmp, 2)
      | '=' :: _ => some (.ampEq, 2)
      | _ => some (.amp, 1)
    | '|' => match cs with
      | '|' :: '=' :: _ => some (.pipePipeEq, 3)
      | '|' :: _ => some (.pipePipe, 2)
      | '=' :: _ => some (.pipeEq, 2)
      | _ => some (.pipe, 1)
    | '^' => match cs with
      | '=' :: _ => some (.caretEq, 2)
      | _ => some (.caret, 1)
    | _ => none

/-- The longest operator of right angles at the head of a text, for use in expressions. -/
def longestAngles : List Char → Punct × Nat
  | '>' :: '>' :: '>' :: '=' :: _ => (.ushrEq, 4)
  | '>' :: '>' :: '>' :: _ => (.ushr, 3)
  | '>' :: '>' :: '=' :: _ => (.shrEq, 3)
  | '>' :: '>' :: _ => (.shr, 2)
  | '>' :: '=' :: _ => (.gtEq, 2)
  | _ => (.gt, 1)

/-! ### One token -/

/-- The kind of the token at the head of a text that starts with no blank. The text is shorter than
`bound`. -/
def scanKind (bound : Nat) (cs : List Char) : Scanned TokenKind :=
  let orInvalid (s : Option (Scanned TokenKind)) : Scanned TokenKind :=
    s.getD ⟨.invalid, 0, cs⟩
  match cs with
  | [] => ⟨.endOfText, 0, []⟩
  | c :: rest =>
    if isIdentifierStart c || c == '\\' then
      orInvalid <| (scanWord? bound cs).map fun w => ⟨.word w.value.1 w.value.2, w.size, w.rest⟩
    else if c.isDigit || (c == '.' && rest.head?.any Char.isDigit) then
      orInvalid (scanNumber? cs)
    else if c == '\x22' || c == '\'' then
      orInvalid <| (stringBody? c bound rest).map fun s =>
        ⟨.string (String.ofList s.value), s.size + 1, s.rest⟩
    else if c == '\x60' then
      orInvalid <| (scanTemplate? bound rest).map fun s => { s with size := s.size + 1 }
    else if c == '#' then
      orInvalid <| (scanWord? bound rest).map fun w => ⟨.privateName w.value.1, w.size + 1, w.rest⟩
    else
      orInvalid <| (scanPunct? cs).map fun (p, n) => ⟨.punct p, n, cs.drop n⟩

end VueSetup.Script
