import VueSetup.Prop.Record
import VueSetup.Text.Blank
import VueSetup.Text.Lines

/-!
# VueSetup.Declaration

The declarations that a setup script is given, as text. Each ends with a line feed, the binding of
a component apart.
-/

namespace VueSetup.Declaration

/-- The name of the binding that holds the props, unless `setup` gives it another. -/
def propsBinding : String := "props"

/-- The name of the binding that emits events. -/
def emitBinding : String := "emit"

/-! ### Names and keys -/

/-- The character can start a plain name. -/
def isPlainStart (c : Char) : Bool :=
  c.isAlpha || c == '_' || c == '$'

/-- The character can stand in a plain name. -/
def isPlainChar (c : Char) : Bool :=
  c.isAlphanum || c == '_' || c == '$'

/-- The text is a name of ASCII letters, digits, `_` and `$`, and no digit comes first. -/
def isPlainName (s : String) : Bool :=
  match s.toList with
  | [] => false
  | c :: cs => isPlainStart c && cs.all isPlainChar

/-- Write a backslash before a character that would end or escape in a single-quoted string. -/
def escapeQuoted (c : Char) : List Char :=
  if c == '\\' || c == '\'' then ['\\', c] else [c]

/-- A key of an object or of an object type: quoted unless it is a plain name. -/
def quoteKey (key : String) : String :=
  if isPlainName key then key
  else "'" ++ String.ofList (key.toList.flatMap escapeQuoted) ++ "'"

/-! ### Declarations -/

/-- The line of one prop in the type of all props. -/
def propsTypeMember (r : PropRecord) : String :=
  "  " ++ quoteKey r.key ++ (if r.optional then "?" else "") ++ ": " ++ r.type.render ++ "\n"

/-- The type of all props, one member for each record. -/
def propsType (records : List PropRecord) : String :=
  "type Props = \x7b\n" ++ String.join (records.map propsTypeMember) ++ "\x7d\n"

/-- The line of one prop in the object of defaults. -/
def defaultMember (r : PropRecord) : Option String :=
  r.default.map fun d => "  " ++ quoteKey r.key ++ ": " ++ d.text ++ ",\n"

/-- The binding of props that are declared by their type. Defaults are given where they are asked
for and there is one. -/
def typedProps (binding : String) (records : List PropRecord) (withDefaults : Bool) : String :=
  let call := "defineProps<Props>()"
  let defaults := records.filterMap defaultMember
  if withDefaults && !defaults.isEmpty then
    "const " ++ binding ++ " = withDefaults(" ++ call ++ ", \x7b\n" ++ String.join defaults ++
      "\x7d)\n"
  else "const " ++ binding ++ " = " ++ call ++ "\n"

/-- The binding of props that are declared by a value. -/
def runtimeProps (binding expr : String) : String :=
  "const " ++ binding ++ " = defineProps(" ++ expr ++ ")\n"

/-- The binding that emits events. -/
def emits (expr : String) : String :=
  "const " ++ emitBinding ++ " = defineEmits(" ++ expr ++ ")\n"

/-- The binding of a component that was registered by a value. No line feed ends it. -/
def component (key expr : String) : String :=
  "const " ++ key ++ " = " ++ expr

/-! ### Statements of `setup` -/

/-- The line without its leading spaces and tabs, of which at most `indent` are taken off. -/
def outdentLine (indent : Nat) (line : List Char) : List Char :=
  match indent, line with
  | n + 1, c :: cs => if Text.isSpaceOrTab c then outdentLine n cs else c :: cs
  | _, cs => cs

/-- Take the indentation off each line but the first and the ones that `verbatim` names. -/
def outdentLines (indent : Nat) (verbatim : List Nat) : List (List Char) → List (List Char)
  | [] => []
  | first :: others =>
    first :: others.mapIdx fun i line =>
      if verbatim.contains (i + 1) then line else outdentLine indent line

/-- A statement moved out to column zero. -/
def outdent (text : String) (indent : Nat) (verbatim : List Nat) : String :=
  String.ofList <| Text.joinLines <| outdentLines indent verbatim <| Text.splitLines text.toList

end VueSetup.Declaration
