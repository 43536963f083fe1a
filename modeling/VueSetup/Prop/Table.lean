import VueSetup.Component
import VueSetup.Prop.Record
import VueSetup.Text.Offset

/-!
# VueSetup.Prop.Table

The props of a component, read from its `props` object. The value of a member tells its type in one
of three ways:

* a constructor, as in `foo: String`;
* a list of constructors, as in `foo: [Number, String]`;
* an object that has a `type`, and may have a `default` and a `required`.

A member with any other value is left out.
-/

namespace VueSetup.PropTable

open Script (Node)

variable (source : List Char)

/-- The source text of a node. -/
def textOf (node : Node) : String :=
  String.ofList (Text.between source node.span.start node.span.stop)

/-- The names among the elements of a list; all other elements are left out. -/
def elementNames (elements : List Node) : List String :=
  elements.filterMap Node.referenceName?

/-! ### Types -/

/-- The hint that the target of a type annotation gives: the argument of `PropType`, or the name of
any other type. -/
def castHint? : Node → Option TypeHint
  | .typeReference _ (.reference _ "PropType") arguments =>
    arguments.head?.map fun argument => .verbatim (textOf source argument)
  | .typeReference _ name _ => some (.typeName (textOf source name))
  | _ => none

/-- The hint that a `type` gives. -/
def typeHint : Node → TypeHint
  | .reference _ name => .constructor name
  | .array _ elements => .constructors (elementNames elements)
  | .asType _ operand target =>
    match castHint? source target with
    | some hint => hint
    | none =>
      match operand with
      | .reference _ name => .constructor name
      | _ => .absent
  | _ => .absent

/-! ### Flags and defaults -/

/-- `required`, when it is a truth value. -/
def requiredFlag? (members : List Node) : Option Bool :=
  match (findProperty? members "required").map Property.value with
  | some (.boolean _ value) => some value
  | _ => none

/-- The default that a value stands for: a literal, or a function without parameters. -/
def defaultOf? (value : Node) : Option PropDefault :=
  let text := textOf source value
  match value with
  | .arrow _ [] [] _ _ => some (.factory text)
  | .function _ [] [] _ _ => some (.factory text)
  | .string _ _ => some (.literal text)
  | .boolean _ _ => some (.literal text)
  | .literal _ _ => some (.literal text)
  | .template _ [] => some (.literal text)
  | .unary _ true (.literal _ .number) => some (.literal text)
  | _ => none

/-! ### Records -/

/-- What the value of a member tells about the prop. -/
def record? (key : String) : Node → Option PropRecord
  | .reference _ name => some ⟨key, (TypeHint.constructor name).resolve, none, none⟩
  | .array _ elements =>
    some ⟨key, (TypeHint.constructors (elementNames elements)).resolve, some false, none⟩
  | .object _ members => do
    let type ← findProperty? members "type"
    return {
      key
      type := (typeHint source type.value).resolve
      required := requiredFlag? members
      default := (findProperty? members "default").bind fun p => defaultOf? source p.value }
  | _ => none

/-- The keys of an object that are not computed, each once, in order. -/
def keys (members : List Node) : List String :=
  (members.filterMap fun
    | .property _ false key _ => key.keyName?
    | _ => none).eraseDups

/-- The props of a `props` object. Of members with one key the first counts. -/
def ofMembers (members : List Node) : List PropRecord :=
  (keys members).filterMap fun key =>
    (findProperty? members key).bind fun p => record? source key p.value

/-- The props of a component; none when it has no `props` object. -/
def ofComponent (c : Component) : List PropRecord :=
  match (c.property? "props").map Property.value with
  | some (.object _ members) => ofMembers source members
  | _ => []

end VueSetup.PropTable
