import VueSetup.Path
import VueSetup.Sfc.Descriptor
import VueSetup.Transform.Script

/-!
# VueSetup.Transform.File

A transformation of a single-file component: its script is transformed and put back in its place,
and the script's tag gets the attributes that the new script needs.

Left as they are: files of another kind, files without a script of their own, and files that have a
setup script already.
-/

namespace VueSetup

open Script (Dialect)

/-- Why a file cannot be transformed. -/
inductive FileError where
  /-- A block stands twice. -/
  | duplicate (d : Sfc.Duplicate)
  /-- The script cannot be transformed. -/
  | script (e : ScriptError)
  deriving DecidableEq, Repr

/-- The text of an error. That of a script that cannot be cut is never told: it breaks a run off
(`Batch.processEntry`). -/
def FileError.message : FileError → String
  | .duplicate d => "Failed to parse SFC: " ++ d.message
  | .script .unreadable => "Failed to parse script"
  | .script .brokenSpan => "Failed to cut script"

/-- What became of a file. -/
structure FileOutcome where
  code : String
  changed : Bool
  dropped : List String
  deriving DecidableEq, Repr

/-- The file as it was. -/
def FileOutcome.unchanged (source : String) : FileOutcome :=
  ⟨source, false, []⟩

namespace Transformation

/-- The attributes that the tag of a transformed script gets. -/
def newAttributes (t : Transformation) (options : Options) (usesTypes : Bool)
    (lang : Option String) : String :=
  (if t == .scriptSetup && options.addSetupAttribute then " setup" else "") ++
    (if usesTypes && lang.isNone then " lang=\"ts\"" else "")

/-- Put a transformed script in the place of the old one. -/
def spliceScript (t : Transformation) (options : Options) (source : String) (script : Sfc.Block)
    (outcome : ScriptOutcome) : Draft :=
  let d : Draft := { source }
  let d := d.overwrite ⟨script.location.start, script.location.stop⟩ outcome.code
  let attributes := t.newAttributes options outcome.usesTypes script.lang?
  if attributes.isEmpty then d else d.insert script.attributeOffset attributes

/-- Transform a script block of a file. -/
def runBlock (t : Transformation) (options : Options) (source : String) (script : Sfc.Block) :
    Except FileError FileOutcome :=
  match t.runScript (Dialect.ofLang script.lang?) options script.content with
  | .error e => .error (.script e)
  | .ok outcome =>
    if outcome.changed then
      match (t.spliceScript options source script outcome).render? with
      | some code => .ok ⟨code, true, outcome.dropped⟩
      | none => .error (.script .brokenSpan)
    else .ok (.unchanged source)

/-- Transform a file. -/
def runFile (t : Transformation) (options : Options) (filename source : String) :
    Except FileError FileOutcome :=
  if Path.extension? filename = some "vue" then
    match Sfc.Descriptor.parse source with
    | .error d => .error (.duplicate d)
    | .ok sfc =>
      match sfc.scriptSetup, sfc.script with
      | none, some script =>
        if script.src?.isNone then t.runBlock options source script else .ok (.unchanged source)
      | _, _ => .ok (.unchanged source)
  else .ok (.unchanged source)

end Transformation

end VueSetup
