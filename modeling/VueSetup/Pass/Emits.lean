import VueSetup.Declaration
import VueSetup.Pass.Basic

/-!
# VueSetup.Pass.Emits

The declaration of events, before the component, from a list or an object of them. Calls of `emit`
on the context of `setup` then go to the declared binding: of `ctx.emit('x')` only `emit('x')`
stays.
-/

namespace VueSetup.Pass

open Script (Node)

/-- The callee of a call of `emit` on the named context. -/
def contextEmit? (context : String) : Node → Option Span
  | .call _ (.member span (.reference _ object) "emit") _ _ =>
    if object = context then some span else none
  | _ => none

/-- The callees of all calls of `emit` on the context of a setup function. -/
def contextEmits (s : Setup) : List Span :=
  match s.paramName? 1 with
  | some context =>
    (Node.nodesOf s.directives ++ Node.nodesOf s.statements).filterMap (contextEmit? context)
  | none => []

/-- The value lists events in a way that can be declared. -/
def listsEvents : Node → Bool
  | .array _ _ => true
  | .object _ _ => true
  | _ => false

/-- Declare the events. -/
def emits : Pass := fun program _ d =>
  match Component.locate? program with
  | none => some (.idle d)
  | some c =>
    match c.property? "emits" with
    | none => some (.idle d)
    | some property =>
      if listsEvents property.value then do
        let value ← d.slice? property.value.span
        let d := d.insertBefore c.wrapper (Declaration.emits value)
        let callees := (c.setup?.map contextEmits).getD []
        return .made (callees.foldl (fun d span => d.overwrite span Declaration.emitBinding) d)
      else some (.idle d)

end VueSetup.Pass
