import VueSetup.Script.Node

/-!
# VueSetup.Component

The options object of a component: the object that a script's default export gives to
`defineComponent`, and what its members say.

A member counts by its key when the key is a word or a string; a computed key that is a string has
a name too, but a member is looked up only among the keys that are not computed.
-/

namespace VueSetup

open Script (Node Program)

/-- A component defined by an options object. -/
structure Component where
  /-- The stretch of the whole export statement. -/
  wrapper : Span
  /-- The members of the options object. -/
  members : List Node

/-- A member of an object, found by its key. -/
structure Property where
  span : Span
  value : Node

/-- The function that sets a component up. -/
structure Setup where
  params : List Node
  /-- The stretch of the body, with its braces. -/
  body : Span
  directives : List Node
  statements : List Node

/-! ### Keys -/

/-- The first member with the key, among those whose key is not computed. -/
def findProperty? (members : List Node) (name : String) : Option Property :=
  members.findSome? fun
    | .property span false key value =>
      if key.keyName? = some name then some ⟨span, value⟩ else none
    | _ => none

namespace Component

/-! ### Finding the component -/

/-- The call inside of parentheses and type annotations, as callee and arguments. -/
def unwrapCall? : Node → Option (Node × List Node)
  | .call _ callee _ arguments => some (callee, arguments)
  | .asType _ operand _ => unwrapCall? operand
  | .satisfies _ operand _ => unwrapCall? operand
  | .paren _ inner => unwrapCall? inner
  | _ => none

/-- The component that a statement defines. -/
def ofStatement? : Node → Option Component
  | .exportDefault wrapper value =>
    match unwrapCall? value with
    | some (.reference _ "defineComponent", .object _ members :: _) => some ⟨wrapper, members⟩
    | _ => none
  | _ => none

/-- The first component that a script defines. -/
def locate? (program : Program) : Option Component :=
  program.statements.findSome? ofStatement?

/-! ### Its options -/

/-- An option by its key. -/
def property? (c : Component) (name : String) : Option Property :=
  findProperty? c.members name

/-- The options that become declarations. -/
def handledOptions : List String :=
  ["props", "emits", "components", "setup"]

/-- The name under which a member is reported: its key, or three dots for a spread. -/
def memberName? : Node → Option String
  | .property _ _ key _ => key.keyName?
  | .spread _ _ => some "..."
  | _ => none

/-- The options that nothing is made of, in order. -/
def unhandledOptions (c : Component) : List String :=
  (c.members.filterMap memberName?).filter fun name => !handledOptions.contains name

/-- The setup function, when it has a body in braces. -/
def setup? (c : Component) : Option Setup :=
  match (c.property? "setup").map Property.value with
  | some (.function _ params _ _ [.block body directives statements]) =>
    some ⟨params, body, directives, statements⟩
  | some (.arrow _ params _ _ (.block body directives statements)) =>
    some ⟨params, body, directives, statements⟩
  | _ => none

end Component

namespace Setup

/-- The name of the parameter at an index, when it is a plain name. -/
def paramName? (s : Setup) (index : Nat) : Option String :=
  match s.params[index]? with
  | some (.binding _ name _) => some name
  | _ => none

end Setup

end VueSetup
