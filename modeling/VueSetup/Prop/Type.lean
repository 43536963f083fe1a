/-!
# VueSetup.Prop.Type

The static type of a prop, and how it follows from the hint that a props object gives at run time.
Every hint leads to some type: a constructor with a type of its own to that type, any other name
to a reference by that name, and no hint to `unknown`.
-/

namespace VueSetup

/-- Types that have a name in the language. -/
inductive TypeKeyword where
  | string
  | number
  | boolean
  /-- An array of anything. -/
  | anyArray
  | object
  | unknown
  deriving DecidableEq, Repr

/-- The keyword as written. -/
def TypeKeyword.render : TypeKeyword → String
  | .string => "string"
  | .number => "number"
  | .boolean => "boolean"
  | .anyArray => "any[]"
  | .object => "object"
  | .unknown => "unknown"

/-- The static type of a prop. -/
inductive PropType where
  | keyword (k : TypeKeyword)
  /-- A type by its name, which may be qualified. -/
  | reference (name : String)
  | union (members : List PropType)
  /-- A type as it was written in the source. -/
  | verbatim (text : String)
  deriving Repr, Inhabited

mutual

/-- The type as written. -/
def PropType.render : PropType → String
  | .keyword k => k.render
  | .reference name => name
  | .union members => " | ".intercalate (PropType.renderAll members)
  | .verbatim text => text

/-- The members of a union as written. -/
def PropType.renderAll : List PropType → List String
  | [] => []
  | t :: ts => t.render :: PropType.renderAll ts

end

/-- What a props object says about the type of a prop. -/
inductive TypeHint where
  /-- A type written out in full. -/
  | verbatim (text : String)
  /-- A name from a type position. -/
  | typeName (name : String)
  /-- A list of constructors. -/
  | constructors (names : List String)
  /-- One constructor. -/
  | constructor (name : String)
  | absent
  deriving DecidableEq, Repr

/-- The keyword type of the values that a built-in constructor makes. -/
def constructorKeyword? (name : String) : Option TypeKeyword :=
  match name with
  | "String" => some .string
  | "Number" => some .number
  | "Boolean" => some .boolean
  | "Array" => some .anyArray
  | "Object" => some .object
  | _ => none

/-- The type of the values that a constructor makes. -/
def PropType.ofConstructor (name : String) : PropType :=
  match constructorKeyword? name with
  | some k => .keyword k
  | none => .reference name

/-- The type that a hint stands for. -/
def TypeHint.resolve : TypeHint → PropType
  | .verbatim text => .verbatim text
  | .typeName name => .reference name
  | .constructors [] => .keyword .unknown
  | .constructors [name] => PropType.ofConstructor name
  | .constructors names => .union (names.map PropType.ofConstructor)
  | .constructor name => PropType.ofConstructor name
  | .absent => .keyword .unknown

end VueSetup
