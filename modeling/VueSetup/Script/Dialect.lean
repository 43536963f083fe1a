/-!
# VueSetup.Script.Dialect

The dialects of scripts, as two independent additions to the plain language.
-/

namespace VueSetup.Script

/-- Which additions to the plain language a script may use. -/
structure Dialect where
  /-- Type annotations and type declarations. -/
  types : Bool
  /-- Markup inside of expressions. -/
  markup : Bool
  deriving DecidableEq, Repr

namespace Dialect

/-- The dialect that a script's `lang` names. A script without one, or with one that is not known,
is in the plain language. -/
def ofLang : Option String → Dialect
  | some "ts" => ⟨true, false⟩
  | some "tsx" => ⟨true, true⟩
  | some "jsx" => ⟨false, true⟩
  | _ => ⟨false, false⟩

/-- The dialect with types added. -/
def withTypes (d : Dialect) : Dialect :=
  { d with types := true }

end Dialect

end VueSetup.Script
