import VueSetup.Import
import VueSetup.Pass.Components
import VueSetup.Pass.Emits
import VueSetup.Pass.Props
import VueSetup.Pass.Setup
import VueSetup.Tidy
import VueSetup.Transformation

/-!
# VueSetup.Transform.Script

A transformation of a script: its passes run over one parse and one draft; then the component's
definition goes, imports that nothing uses any more go, and the lines are tidied.

A script that defines no component is left as it is. A script that cannot be read is an error.
-/

namespace VueSetup

open Script (Dialect Program)

/-- Why a script cannot be transformed. -/
inductive ScriptError where
  /-- The script is not in the language. -/
  | unreadable
  /-- A stretch that is moved is not one of whole characters of the script. There is no way on from
  here: what runs the transformation ends with it. -/
  | brokenSpan
  deriving DecidableEq, Repr

/-- What became of a script. -/
structure ScriptOutcome where
  code : String
  changed : Bool
  /-- The code is in the language with types only. -/
  usesTypes : Bool
  /-- The options that went with the component's definition. -/
  dropped : List String
  deriving DecidableEq, Repr

namespace ScriptOutcome

/-- The script as it was. -/
def unchanged (source : String) : ScriptOutcome :=
  ⟨source, false, false, []⟩

end ScriptOutcome

namespace Transformation

/-- The passes before the props are declared. -/
def passesBefore : Transformation → List Pass
  | .scriptSetup => [Pass.components]
  | .defineProps => []

/-- The passes after the props are declared. -/
def passesAfter : Transformation → List Pass
  | .scriptSetup => [Pass.emits, Pass.setup]
  | .defineProps => []

/-- The component's definition goes. -/
def removesWrapper : Transformation → Bool
  | .scriptSetup => true
  | .defineProps => false

/-- The stretch of a statement with its line break. -/
def wrapperLine (source : List Char) (wrapper : Span) : Span :=
  ⟨wrapper.start, wrapper.stop + Import.lineBreakSize (Text.suffixFrom source wrapper.stop)⟩

/-- Run passes one after the other on a draft. -/
def runPasses (program : Program) (options : Options) (passes : List Pass) (d : Draft) :
    Option Draft :=
  passes.foldlM (fun d pass => (pass program options d).map PassResult.draft) d

/-- The draft after all passes, and whether the declaration of props needs types. -/
def draft? (t : Transformation) (program : Program) (options : Options) (source : String) :
    Option (Draft × Bool) := do
  let d ← runPasses program options t.passesBefore { source }
  let props ← Pass.props program options d
  let d ← runPasses program options t.passesAfter props.draft
  return (d, props.produced && Pass.declaresTypes program options)

/-- The draft without the component's definition, where that goes. -/
def dropWrapper (t : Transformation) (c : Component) (d : Draft) : Draft :=
  if t.removesWrapper then d.remove (wrapperLine d.source.toList c.wrapper) else d

/-- A script with all edits made, before imports are dropped and the lines are tidied. -/
structure Rendered where
  code : String
  /-- Some edit was made. -/
  changed : Bool
  usesTypes : Bool

/-- Make all edits to a script that defines a component. -/
def rendered? (t : Transformation) (program : Program) (c : Component) (options : Options)
    (source : String) : Option Rendered := do
  let (d, usesTypes) ← t.draft? program options source
  let d := t.dropWrapper c d
  return ⟨← d.render?, d.isModified, usesTypes⟩

/-- Take out the imports of the given names that are not used, one after the other. -/
def dropImports (dialect : Dialect) (names : List String) (code : String) : String :=
  names.foldl (fun code name => (Import.removeUnused? dialect name code).getD code) code

/-- Transform a script. -/
def runScript (t : Transformation) (dialect : Dialect) (options : Options) (source : String) :
    Except ScriptError ScriptOutcome :=
  match Program.parse? dialect source with
  | none => .error .unreadable
  | some program =>
    match Component.locate? program with
    | none => .ok (.unchanged source)
    | some c =>
      match t.rendered? program c options source with
      | none => .error .brokenSpan
      | some r =>
        if r.changed then
          let output := if r.usesTypes then dialect.withTypes else dialect
          let code := if t.removesWrapper then dropImports output options.cleanupBindings r.code
            else r.code
          .ok {
            code := tidy output (LineBreak.ofText source.toList) code
            changed := true
            usesTypes := r.usesTypes
            dropped := if t.removesWrapper then c.unhandledOptions else [] }
        else .ok (.unchanged source)

end Transformation

end VueSetup
