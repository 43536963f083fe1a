import VueSetup.Declaration
import VueSetup.Pass.Basic
import VueSetup.Prop.Table

/-!
# VueSetup.Pass.Props

The declaration of props, before the component. A `props` object is declared by a type, unless the
options ask for the value itself; any other value is always declared as it is. An object from which
no prop can be read is not declared at all.
-/

namespace VueSetup.Pass

open Script (Node Program)

/-- The name of the binding for the props: the first parameter of `setup`, if it has a plain one. -/
def propsBindingName (c : Component) : String :=
  (c.setup?.bind (·.paramName? 0)).getD Declaration.propsBinding

/-- Props that are declared by a type. -/
def isTyped (options : Options) : Node → Bool
  | .object _ _ => options.propsStyle == .typed
  | _ => false

/-- Declare the props. -/
def props : Pass := fun program options d =>
  match Component.locate? program with
  | none => some (.idle d)
  | some c =>
    match c.property? "props" with
    | none => some (.idle d)
    | some property =>
      let name := propsBindingName c
      if isTyped options property.value then
        match PropTable.ofComponent d.source.toList c with
        | [] => some (.idle d)
        | records =>
          let declaration := Declaration.propsType records ++
            Declaration.typedProps name records options.withDefaults
          some (.made (d.insertBefore c.wrapper declaration))
      else do
        let value ← d.slice? property.value.span
        return .made (d.insertBefore c.wrapper (Declaration.runtimeProps name value))

/-- The declaration of the props, where one is made, is in the language with types only. -/
def declaresTypes (program : Program) (options : Options) : Bool :=
  ((Component.locate? program).bind (·.property? "props")).any fun p => isTyped options p.value

end VueSetup.Pass
