import VueSetup.Prop.Type

/-!
# VueSetup.Prop.Record

What is known about one prop of a component.
-/

namespace VueSetup

/-- The default of a prop, as source text. -/
inductive PropDefault where
  /-- A literal value. -/
  | literal (text : String)
  /-- A function without parameters that makes the value. -/
  | factory (text : String)
  deriving DecidableEq, Repr

/-- The default's source text. -/
def PropDefault.text : PropDefault → String
  | .literal text => text
  | .factory text => text

/-- One prop. -/
structure PropRecord where
  key : String
  type : PropType
  /-- Whether the prop must be given, where the component says so. -/
  required : Option Bool
  default : Option PropDefault
  deriving Repr

/-- A prop may be left out unless it is said to be required. -/
def PropRecord.optional (r : PropRecord) : Bool :=
  r.required != some true

end VueSetup
