import VueSetup.Declaration
import VueSetup.Pass.Basic

/-!
# VueSetup.Pass.Components

Registered components that are not plain names get a binding of their own, behind the last import
or, in a script without imports, before the component. Plain names are in scope already.
-/

namespace VueSetup.Pass

open Script (Node Program)

/-- The stretch of the last import of a script. -/
def lastImport? (program : Program) : Option Span :=
  program.statements.reverse.findSome? fun
    | .importDeclaration span _ _ => some span
    | _ => none

/-- A registered component that needs a binding: the name of the binding and the value. -/
def componentEntry? : Node → Option (String × Node)
  | .property _ false _ (.reference _ _) => none
  | .property _ false key value => do
    let name ← key.keyName?
    if Declaration.isPlainName name then some (name, value) else none
  | _ => none

/-- Write a binding behind the last import, or before the component. -/
def placeBinding (program : Program) (c : Component) (d : Draft) (binding : String) : Draft :=
  match lastImport? program with
  | some span => d.insertAfter span ("\n" ++ binding)
  | none => d.insertBefore c.wrapper (binding ++ "\n")

/-- Bind one registered component. -/
def bindComponent (program : Program) (c : Component) (d : Draft) (entry : String × Node) :
    Option Draft := do
  let value ← d.slice? entry.2.span
  return placeBinding program c d (Declaration.component entry.1 value)

/-- The registered components that need a binding, in order. -/
def componentEntries (c : Component) : List (String × Node) :=
  match (c.property? "components").map Property.value with
  | some (.object _ members) => members.filterMap componentEntry?
  | _ => []

/-- Bind the registered components that are not plain names. -/
def components : Pass := fun program _ d =>
  match Component.locate? program with
  | none => some (.idle d)
  | some c =>
    match componentEntries c with
    | [] => some (.idle d)
    | entries => (entries.foldlM (bindComponent program c) d).map .made

end VueSetup.Pass
