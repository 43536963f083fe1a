/-!
# VueSetup.Json

JSON values, a reader and two writers.

The reader keeps the fields of an object in order and with repetitions, so that a reader of options
can refuse a field that is given twice. A string may hold an escape that stands for half of a
character; such a string has no text, and is kept apart as `brokenString`.
-/

namespace VueSetup

/-- A JSON value. -/
inductive Json where
  | null
  | bool (value : Bool)
  /-- A number as written. -/
  | number (text : String)
  | string (value : String)
  /-- A string with an escape that stands for half of a character. -/
  | brokenString
  | array (items : List Json)
  | object (fields : List (String × Json))
  deriving Repr, Inhabited

namespace Json

/-! ### Reading -/

/-- The character separates tokens. -/
def isBlank (c : Char) : Bool :=
  c == ' ' || c == '\n' || c == '\t' || c == '\r'

/-- The text behind leading blanks. -/
def skipBlanks (cs : List Char) : List Char :=
  cs.dropWhile isBlank

/-- The value of a hexadecimal digit. -/
def hexDigit? (c : Char) : Option Nat :=
  if '0' ≤ c && c ≤ '9' then some (c.toNat - '0'.toNat)
  else if 'a' ≤ c && c ≤ 'f' then some (c.toNat - 'a'.toNat + 10)
  else if 'A' ≤ c && c ≤ 'F' then some (c.toNat - 'A'.toNat + 10)
  else none

/-- Four hexadecimal digits, and what follows them. -/
def hexUnit? : List Char → Option (Nat × List Char)
  | a :: b :: c :: d :: cs => do
    let a ← hexDigit? a
    let b ← hexDigit? b
    let c ← hexDigit? c
    let d ← hexDigit? d
    return (((a * 16 + b) * 16 + c) * 16 + d, cs)
  | _ => none

/-- The character of an escape of one letter. -/
def simpleEscape? (c : Char) : Option Char :=
  match c with
  | '\x22' => some '\x22'
  | '\\' => some '\\'
  | '/' => some '/'
  | 'b' => some '\x08'
  | 'f' => some '\x0c'
  | 'n' => some '\n'
  | 'r' => some '\r'
  | 't' => some '\t'
  | _ => none

/-- The code units of a string from behind its opening quote, and what follows its closing quote.
A character stands for itself and an escape of four digits for a unit of UTF-16. -/
def stringUnits? : Nat → List Char → Option (List (Char ⊕ Nat) × List Char)
  | 0, _ => none
  | _ + 1, [] => none
  | n + 1, c :: cs =>
    if c == '\x22' then some ([], cs)
    else if c == '\\' then
      match cs with
      | 'u' :: cs => do
        let (unit, cs) ← hexUnit? cs
        let (units, rest) ← stringUnits? n cs
        return (.inr unit :: units, rest)
      | e :: cs => do
        let e ← simpleEscape? e
        let (units, rest) ← stringUnits? n cs
        return (.inl e :: units, rest)
      | [] => none
    else if c.toNat < 0x20 then none
    else do
      let (units, rest) ← stringUnits? n cs
      return (.inl c :: units, rest)

/-- The characters that code units spell; `none` when half of a character stands alone. -/
def decodeUnits? : List (Char ⊕ Nat) → Option (List Char)
  | [] => some []
  | .inl c :: us => (decodeUnits? us).map (c :: ·)
  | .inr hi :: .inr lo :: us =>
    if 0xD800 ≤ hi && hi < 0xDC00 then
      if 0xDC00 ≤ lo && lo < 0xE000 then
        (decodeUnits? us).map (Char.ofNat (0x10000 + (hi - 0xD800) * 0x400 + (lo - 0xDC00)) :: ·)
      else none
    else if 0xDC00 ≤ hi && hi < 0xE000 then none
    else (decodeUnits? (.inr lo :: us)).map (Char.ofNat hi :: ·)
  | .inr u :: us =>
    if 0xD800 ≤ u && u < 0xE000 then none else (decodeUnits? us).map (Char.ofNat u :: ·)

/-- A string from behind its opening quote. -/
def string? (cs : List Char) : Option (Json × List Char) := do
  let (units, rest) ← stringUnits? (cs.length + 1) cs
  match decodeUnits? units with
  | some text => return (.string (String.ofList text), rest)
  | none => return (.brokenString, rest)

/-- One or more digits, and what follows them. -/
def digits? (cs : List Char) : Option (List Char × List Char) :=
  match cs.takeWhile Char.isDigit with
  | [] => none
  | ds => some (ds, cs.dropWhile Char.isDigit)

/-- The whole part of a number: no zero stands before another digit. -/
def wholePart? (cs : List Char) : Option (List Char × List Char) := do
  let (ds, rest) ← digits? cs
  match ds with
  | '0' :: _ :: _ => none
  | _ => return (ds, rest)

/-- The part of a number behind the point. -/
def fraction? (cs : List Char) : Option (List Char × List Char) :=
  match cs with
  | '.' :: cs => do
    let (ds, rest) ← digits? cs
    return ('.' :: ds, rest)
  | _ => some ([], cs)

/-- The exponent of a number. -/
def exponent? (cs : List Char) : Option (List Char × List Char) :=
  match cs with
  | e :: rest =>
    if e == 'e' || e == 'E' then
      match rest with
      | s :: rest' =>
        if s == '+' || s == '-' then do
          let (ds, rest) ← digits? rest'
          return (e :: s :: ds, rest)
        else do
          let (ds, rest) ← digits? rest
          return (e :: ds, rest)
      | [] => none
    else some ([], cs)
  | [] => some ([], cs)

/-- A number. -/
def number? (cs : List Char) : Option (Json × List Char) := do
  let (sign, cs) := match cs with
    | '-' :: cs => (['-'], cs)
    | _ => ([], cs)
  let (whole, cs) ← wholePart? cs
  let (frac, cs) ← fraction? cs
  let (exp, cs) ← exponent? cs
  return (.number (String.ofList (sign ++ whole ++ frac ++ exp)), cs)

/-- The text behind a fixed word. -/
def word? (word : String) (cs : List Char) : Option (List Char) :=
  if word.toList.isPrefixOf cs then some (cs.drop word.length) else none

mutual

/-- A value, and what follows it. The number bounds the nesting and the steps. -/
def value? : Nat → List Char → Option (Json × List Char)
  | 0, _ => none
  | n + 1, cs =>
    match skipBlanks cs with
    | [] => none
    | c :: cs =>
      if c == '{' then
        match skipBlanks cs with
        | '}' :: rest => some (.object [], rest)
        | cs => (fields? n cs).map fun (fields, rest) => (.object fields, rest)
      else if c == '[' then
        match skipBlanks cs with
        | ']' :: rest => some (.array [], rest)
        | cs => (items? n cs).map fun (items, rest) => (.array items, rest)
      else if c == '\x22' then string? cs
      else if c == 't' then (word? "rue" cs).map (.bool true, ·)
      else if c == 'f' then (word? "alse" cs).map (.bool false, ·)
      else if c == 'n' then (word? "ull" cs).map (.null, ·)
      else number? (c :: cs)

/-- The items of an array that has some. -/
def items? : Nat → List Char → Option (List Json × List Char)
  | 0, _ => none
  | n + 1, cs => do
    let (item, cs) ← value? n cs
    match skipBlanks cs with
    | ',' :: cs =>
      let (items, rest) ← items? n cs
      return (item :: items, rest)
    | ']' :: rest => return ([item], rest)
    | _ => none

/-- The fields of an object that has some. -/
def fields? : Nat → List Char → Option (List (String × Json) × List Char)
  | 0, _ => none
  | n + 1, cs => do
    match skipBlanks cs with
    | '\x22' :: cs =>
      match ← string? cs with
      | (.string key, cs) =>
        match skipBlanks cs with
        | ':' :: cs =>
          let (value, cs) ← value? n cs
          match skipBlanks cs with
          | ',' :: cs =>
            let (fields, rest) ← fields? n cs
            return ((key, value) :: fields, rest)
          | '}' :: rest => return ([(key, value)], rest)
          | _ => none
        | _ => none
      | _ => none
    | _ => none

end

/-- Read a text that holds one value and nothing else but blanks. -/
def parse? (text : String) : Option Json := do
  let (value, rest) ← value? (text.length + 1) text.toList
  if (skipBlanks rest).isEmpty then return value else none

mutual

/-- All strings in the value have a text. -/
def isSpelled : Json → Bool
  | .brokenString => false
  | .array items => itemsSpelled items
  | .object fields => fieldsSpelled fields
  | _ => true

/-- All strings in the items have a text. -/
def itemsSpelled : List Json → Bool
  | [] => true
  | v :: vs => v.isSpelled && itemsSpelled vs

/-- All strings in the fields have a text. -/
def fieldsSpelled : List (String × Json) → Bool
  | [] => true
  | (_, v) :: fs => v.isSpelled && fieldsSpelled fs

end

/-! ### Writing -/

/-- The lower-case hexadecimal digit of a number below sixteen. -/
def hexChar (n : Nat) : Char :=
  if n < 10 then Char.ofNat ('0'.toNat + n) else Char.ofNat ('a'.toNat + (n - 10))

/-- A character as written inside of a string. -/
def escapeChar (c : Char) : List Char :=
  match c with
  | '\x22' => ['\\', '\x22']
  | '\\' => ['\\', '\\']
  | '\x08' => ['\\', 'b']
  | '\x0c' => ['\\', 'f']
  | '\n' => ['\\', 'n']
  | '\r' => ['\\', 'r']
  | '\t' => ['\\', 't']
  | c =>
    if c.toNat < 0x20 then ['\\', 'u', '0', '0', hexChar (c.toNat / 16), hexChar (c.toNat % 16)]
    else [c]

/-- A text as a string. -/
def quote (text : String) : String :=
  "\"" ++ String.ofList (text.toList.flatMap escapeChar) ++ "\""

/-- A count as a number. -/
def ofNat (n : Nat) : Json :=
  .number (toString n)

mutual

/-- The value without blanks. -/
def compact : Json → String
  | .null => "null"
  | .bool true => "true"
  | .bool false => "false"
  | .number text => text
  | .string value => quote value
  | .brokenString => quote ""
  | .array items => "[" ++ ",".intercalate (compactItems items) ++ "]"
  | .object fields => "\x7b" ++ ",".intercalate (compactFields fields) ++ "\x7d"

/-- The items without blanks. -/
def compactItems : List Json → List String
  | [] => []
  | v :: vs => v.compact :: compactItems vs

/-- The fields without blanks. -/
def compactFields : List (String × Json) → List String
  | [] => []
  | (key, v) :: fs => (quote key ++ ":" ++ v.compact) :: compactFields fs

end

/-- The start of a line at a depth of nesting. -/
def lineStart (depth : Nat) : String :=
  "\n" ++ String.join (List.replicate depth "  ")

/-- Lay out the parts of an array or object, one on a line. -/
def bracket (opening closing : String) (depth : Nat) (parts : List String) : String :=
  if parts.isEmpty then opening ++ closing
  else
    opening ++ ",".intercalate (parts.map (lineStart (depth + 1) ++ ·)) ++ lineStart depth ++
      closing

mutual

/-- The value with each item and each field on a line of its own. -/
def prettyAt (depth : Nat) : Json → String
  | .array items => bracket "[" "]" depth (prettyItems (depth + 1) items)
  | .object fields => bracket "\x7b" "\x7d" depth (prettyFields (depth + 1) fields)
  | .null => "null"
  | .bool true => "true"
  | .bool false => "false"
  | .number text => text
  | .string value => quote value
  | .brokenString => quote ""

/-- The items of an array, each laid out. -/
def prettyItems (depth : Nat) : List Json → List String
  | [] => []
  | v :: vs => prettyAt depth v :: prettyItems depth vs

/-- The fields of an object, each laid out. -/
def prettyFields (depth : Nat) : List (String × Json) → List String
  | [] => []
  | (key, v) :: fs => (quote key ++ ": " ++ prettyAt depth v) :: prettyFields depth fs

end

/-- The value over several lines, two spaces a level. -/
def pretty (v : Json) : String :=
  v.prettyAt 0

end Json

end VueSetup
