/-!
# VueSetup.Transformation

The transformations on offer, by name.
-/

namespace VueSetup

/-- What is done to a component. -/
inductive Transformation where
  /-- All of the options object becomes a setup script. -/
  | scriptSetup
  /-- Only the props are declared. -/
  | defineProps
  deriving DecidableEq, Repr

namespace Transformation

/-- All transformations. -/
def all : List Transformation :=
  [.scriptSetup, .defineProps]

/-- The transformation's name. -/
def name : Transformation → String
  | .scriptSetup => "script-setup"
  | .defineProps => "define-props"

/-- What the transformation does. -/
def description : Transformation → String
  | .scriptSetup => "Rewrite a defineComponent options object into <script setup>"
  | .defineProps => "Declare runtime props as a Props type and defineProps<Props>()"

/-- The transformation of a name. -/
def ofName? (s : String) : Option Transformation :=
  all.find? (·.name == s)

/-- What is said of a name that no transformation has. -/
def unknownMessage (s : String) : String :=
  "unknown transformation `" ++ s ++ "`"

end Transformation

end VueSetup
