import VueSetup.Batch.Pattern
import VueSetup.Report
import VueSetup.Transform.File

/-!
# VueSetup.Batch.Run

A run of one transformation over all files that patterns mean, and the summary of it.

A file that cannot be transformed does not stop the run; it is counted and reported. A file whose
transformation **breaks off** (`ScriptError.brokenSpan`) is another matter: it takes the whole run
with it, which then ends with an exit code of its own, counts nothing and writes no summary.

The files are taken one after the other here. The order makes a difference only to what is in the
tree when a run breaks off: files that come later may or may not have been written by then.
-/

namespace VueSetup.Batch

/-! ### Settings -/

/-- How the summary is written. -/
inductive Format where
  | text
  | json
  deriving DecidableEq, Repr

/-- What a run is told. -/
structure Settings where
  patterns : List String := ["./**/*.vue"]
  transformation : Transformation := .scriptSetup
  /-- Put the transformed texts in the files. -/
  write : Bool := false
  /-- Fail when a file would change. -/
  check : Bool := false
  /-- Write the transformed texts out. -/
  print : Bool := false
  format : Format := .text
  /-- The file that options are read from. -/
  config : Option String := none
  /-- The style of props, if it is not to be that of the options. -/
  propsStyle : Option PropsStyle := none
  /-- Give defaults, whatever the options say. -/
  withDefaults : Bool := false
  deriving Repr

/-- Where options are looked for. -/
def defaultConfig : String := "retouche.config.json"

/-- The options of a run: those of the configuration file, or the defaults where it is missing or
invalid, and on top of them what the run itself is told. -/
def Settings.options (s : Settings) (t : Tree) : Options :=
  let base := ((t.text? (s.config.getD defaultConfig)).bind Options.ofConfig?).getD {}
  { base with
    propsStyle := s.propsStyle.getD base.propsStyle
    withDefaults := s.withDefaults || base.withDefaults }

/-! ### One file -/

/-- What became of a file. -/
inductive Status where
  | changed (code : String) (dropped : List String)
  | unchanged
  | failed (message : String)
  deriving DecidableEq, Repr

/-- Transform what a path leads to. There is no status when the transformation breaks off. -/
def processEntry (transformation : Transformation) (options : Options) (path : String) :
    Option Entry → Option Status
  | none => some (.failed "Failed to read file: No such file or directory (os error 2)")
  | some .directory => some (.failed "Failed to read file: Is a directory (os error 21)")
  | some (.file (.binary _)) =>
    some (.failed "Failed to read file: stream did not contain valid UTF-8")
  | some (.file (.text source)) =>
    match transformation.runFile options path source with
    | .error (.script .brokenSpan) => none
    | .error e => some (.failed e.message)
    | .ok outcome =>
      some (if outcome.changed then .changed outcome.code outcome.dropped else .unchanged)

/-- Transform a file, and put its text back if the run writes. -/
def processFile (s : Settings) (options : Options) (t : Tree) (path : String) :
    Option (Tree × Status) := do
  let status ← processEntry s.transformation options path ((t.find? path).map (·.2))
  match status with
  | .changed code _ => return (if s.write then t.write path code else t, status)
  | _ => return (t, status)

/-- Transform files, one after the other, up to one whose transformation breaks off. The results are
those of all files; there are none when the run got stuck. -/
def processFiles (s : Settings) (options : Options) (t : Tree) :
    List String → Tree × Option (List (String × Status))
  | [] => (t, some [])
  | path :: paths =>
    match processFile s options t path with
    | none => (t, none)
    | some (t, status) =>
      let (t, results) := processFiles s options t paths
      (t, results.map ((path, status) :: ·))

/-! ### Summary -/

/-- What is reported about a run. -/
structure Summary where
  transformation : Transformation
  changed : Nat
  unchanged : Nat
  failed : Nat
  report : Report
  /-- Options that were dropped, by path. -/
  dropped : List (String × List String)
  /-- Files that could not be transformed, with the reason. -/
  failures : List (String × String)

namespace Summary

/-- Count one more file. -/
def add (s : Summary) : String × Status → Summary
  | (path, .changed _ dropped) =>
    { s with
      changed := s.changed + 1
      report := s.report.record s.transformation.name
      dropped := if dropped.isEmpty then s.dropped else s.dropped ++ [(path, dropped)] }
  | (_, .unchanged) => { s with unchanged := s.unchanged + 1 }
  | (path, .failed message) =>
    { s with failed := s.failed + 1, failures := s.failures ++ [(path, message)] }

/-- The summary of a run. -/
def ofResults (transformation : Transformation) (results : List (String × Status)) : Summary :=
  results.foldl add ⟨transformation, 0, 0, 0, {}, [], []⟩

/-- How many files the run looked at. -/
def files (s : Summary) : Nat :=
  s.changed + s.unchanged + s.failed

/-- The summary for programs. -/
def toJson (s : Summary) : Json :=
  .object [
    ("transformation", .string s.transformation.name),
    ("files", Json.ofNat s.files),
    ("changed", Json.ofNat s.changed),
    ("unchanged", Json.ofNat s.unchanged),
    ("errored", Json.ofNat s.failed),
    ("report", s.report.toJson),
    ("dropped", .array (s.dropped.map fun (path, options) =>
      .object [("path", .string path), ("options", .array (options.map .string))])),
    ("failures", .array (s.failures.map fun (path, message) =>
      .object [("path", .string path), ("error", .string message)]))]

/-- The line about the dropped options of a file. -/
def droppedLine (entry : String × List String) : String :=
  "  " ++ entry.1 ++ ": dropped option(s) " ++ ", ".intercalate entry.2 ++ "\n"

/-- The line about the files that a transformation changed. -/
def reportLine (verb : String) (entry : String × Nat) : String :=
  "  " ++ entry.1 ++ ": " ++ toString entry.2 ++ " file(s) " ++ verb ++ "\n"

/-- The summary for people. The time that the run took is given where it is known. -/
def toText (s : Summary) (settings : Settings) (elapsed : Option String) : String :=
  let verb := if settings.write then "transformed" else "would be transformed"
  "\n" ++ String.join (s.dropped.map droppedLine) ++
    "Checked " ++ toString s.files ++ " file(s)" ++
    (match elapsed with
      | some time => " in " ++ time
      | none => "") ++ "\n" ++
    String.join (s.report.entries.map (reportLine verb)) ++
    (if s.unchanged > 0 then "  " ++ toString s.unchanged ++ " file(s) unchanged\n" else "") ++
    (if s.failed > 0 then "  " ++ toString s.failed ++ " file(s) had errors\n" else "") ++
    (if !settings.write && !settings.check && s.changed > 0 then
      "Use --write to apply changes\n"
    else "")

end Summary

/-! ### The whole run -/

/-- What a command leaves behind. -/
structure Outcome where
  exitCode : Nat
  out : String
  /-- What is said beside the output. The time that the run took is told where it is known. -/
  err : Option String → String
  tree : Tree

/-- What a run leaves behind that broke off: the files as they were by then, and no word. -/
def Outcome.brokenOff (t : Tree) : Outcome :=
  ⟨101, "", fun _ => "", t⟩

/-- What is written out about a changed file. -/
def printed (s : Settings) : String × Status → String
  | (path, .changed code _) => if s.print then "// " ++ path ++ "\n" ++ code ++ "\n" else ""
  | _ => ""

/-- What is said about a file that would change. -/
def announced (s : Settings) : String × Status → String
  | (path, .changed _ _) => if s.check then "Would transform: " ++ path ++ "\n" else ""
  | _ => ""

/-- Run a transformation over files. -/
def runOn (s : Settings) (t : Tree) (paths : List String) : Outcome :=
  match paths with
  | [] => ⟨0, "", fun _ => "No .vue files found matching the patterns\n", t⟩
  | paths =>
    match processFiles s (s.options t) t paths with
    | (after, none) => .brokenOff after
    | (after, some results) =>
      let summary := Summary.ofResults s.transformation results
      let out := String.join (results.map (printed s))
      let err := String.join (results.map (announced s))
      let exitCode := if summary.failed > 0 || (s.check && summary.changed > 0) then 1 else 0
      match s.format with
      | .json => ⟨exitCode, out ++ summary.toJson.pretty ++ "\n", fun _ => err, after⟩
      | .text => ⟨exitCode, out, fun elapsed => err ++ summary.toText s elapsed, after⟩

/-- Run a transformation over the files below the current directory that the patterns mean. -/
def run (s : Settings) (t : Tree) : Outcome :=
  runOn s t (selectFiles t s.patterns)

end VueSetup.Batch
