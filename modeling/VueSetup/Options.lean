import VueSetup.Json

/-!
# VueSetup.Options

The options of a transformation, and how they are read from JSON.

An options object may leave out any field, and may hold fields of other names. A field of the wrong
type, `null` included, makes the whole object invalid, and so does a field that is given twice. An
array stands for an object too: its items are the fields in their fixed order.
-/

namespace VueSetup

/-- How props are declared. -/
inductive PropsStyle where
  /-- By a type. -/
  | typed
  /-- By the value that the component gave. -/
  | runtime
  deriving DecidableEq, Repr

namespace PropsStyle

/-- The style's name. -/
def name : PropsStyle → String
  | .typed => "typed"
  | .runtime => "runtime"

/-- The style of a name. -/
def ofName? (s : String) : Option PropsStyle :=
  if s = "typed" then some .typed else if s = "runtime" then some .runtime else none

/-- A style is its name, or an object with the name as its only key and nothing under it. -/
def ofJson? : Json → Option PropsStyle
  | .string s => ofName? s
  | .object [(s, .null)] => ofName? s
  | _ => none

end PropsStyle

/-- What a transformation can be told. -/
structure Options where
  propsStyle : PropsStyle := .typed
  /-- Give the defaults of typed props. -/
  withDefaults : Bool := false
  /-- Imported names that are dropped once nothing uses them. -/
  cleanupBindings : List String := ["defineComponent"]
  /-- Mark the script as the component's `setup`. -/
  addSetupAttribute : Bool := true
  deriving DecidableEq, Repr

namespace Options

/-- A truth value. -/
def bool? : Json → Option Bool
  | .bool b => some b
  | _ => none

/-- A text. -/
def text? : Json → Option String
  | .string s => some s
  | _ => none

/-- A list of texts. -/
def texts? : Json → Option (List String)
  | .array items => items.mapM text?
  | _ => none

/-- Read an optional value with a reader; one that is left out has the default. -/
def readOr {α : Type} (default : α) (read? : Json → Option α) : Option Json → Option α
  | none => some default
  | some v => read? v

/-- The value of a field. The outer `none` says that the field is given twice. -/
def field? (name : String) (fields : List (String × Json)) : Option (Option Json) :=
  match fields.filter (·.1 == name) with
  | [] => some none
  | [(_, v)] => some (some v)
  | _ => none

/-- Put options together from the four values, each of which may be left out. -/
def ofValues? (style defaults cleanup setup : Option Json) : Option Options := do
  return {
    propsStyle := ← readOr .typed PropsStyle.ofJson? style
    withDefaults := ← readOr false bool? defaults
    cleanupBindings := ← readOr ["defineComponent"] texts? cleanup
    addSetupAttribute := ← readOr true bool? setup }

/-- Read options from the fields of an object. -/
def ofFields? (fields : List (String × Json)) : Option Options := do
  ofValues? (← field? "propsStyle" fields) (← field? "withDefaults" fields)
    (← field? "cleanupBindings" fields) (← field? "addSetupAttribute" fields)

/-- Read options from a JSON value. -/
def ofJson? : Json → Option Options
  | .object fields => ofFields? fields
  | .array items =>
    if items.length ≤ 4 then ofValues? items[0]? items[1]? items[2]? items[3]? else none
  | _ => none

/-- Read options from a text. -/
def parse? (text : String) : Option Options :=
  (Json.parse? text).bind ofJson?

/-- Read options from the text of a configuration file: an object of options that may also name its
schema. All of its fields have to be proper, also those that mean nothing. -/
def ofConfig? (text : String) : Option Options := do
  match ← (Json.parse? text).filter Json.isSpelled with
  | .object fields =>
    match ← field? "$schema" fields with
    | none | some .null | some (.string _) => ofFields? fields
    | _ => none
  | _ => none

end Options

end VueSetup
