import VueSetup.Batch.Run

/-!
# VueSetup.Command

The command line: reading arguments, and running the command that they give.

An option can be given once. Its value stands behind it or, with `=`, in the same argument; a letter
may also have it right behind. Letters without a value can be joined. Behind `--` all arguments are
patterns.
-/

namespace VueSetup

/-- What the command line asks for. -/
inductive Command where
  | version
  | help
  /-- List the transformations. -/
  | list
  | run (settings : Batch.Settings)
  deriving Repr

namespace Command

/-! ### Options of a run -/

/-- Options of a run that have no value. -/
inductive Switch where
  | write
  | check
  | print
  | withDefaults
  deriving DecidableEq, Repr

/-- Options of a run that have a value. -/
inductive Setting where
  | transformation
  | threads
  | format
  | config
  | propsStyle
  deriving DecidableEq, Repr

/-- What an option's name stands for. -/
inductive Argument where
  | switch (s : Switch)
  | setting (s : Setting)
  | verbose
  | help
  deriving DecidableEq, Repr

/-- The option of a long name. -/
def longOption? (name : String) : Option Argument :=
  match name with
  | "write" => some (.switch .write)
  | "check" => some (.switch .check)
  | "print" => some (.switch .print)
  | "with-defaults" => some (.switch .withDefaults)
  | "transformation" => some (.setting .transformation)
  | "threads" => some (.setting .threads)
  | "format" => some (.setting .format)
  | "config" => some (.setting .config)
  | "props-style" => some (.setting .propsStyle)
  | "verbose" => some .verbose
  | "help" => some .help
  | _ => none

/-- The option of a letter. -/
def letterOption? (c : Char) : Option Argument :=
  match c with
  | 'w' => some (.switch .write)
  | 't' => some (.setting .transformation)
  | 'j' => some (.setting .threads)
  | 'c' => some (.setting .config)
  | 'v' => some .verbose
  | 'h' => some .help
  | _ => none

/-- What has been read of the arguments of a run. -/
structure Reading where
  settings : Batch.Settings := {}
  patterns : List String := []
  switches : List Switch := []
  given : List Setting := []
  isHelp : Bool := false

/-- Turn a switch on. -/
def Reading.turnOn (d : Reading) (s : Switch) : Option Reading :=
  if d.switches.contains s then none
  else
    let d := { d with switches := s :: d.switches }
    some <| match s with
      | .write => { d with settings.write := true }
      | .check => { d with settings.check := true }
      | .print => { d with settings.print := true }
      | .withDefaults => { d with settings.withDefaults := true }

/-- A number of threads: digits, perhaps with a plus before them, for a word of 64 bits. -/
def isThreadCount (value : String) : Bool :=
  let digits := match value.toList with
    | '+' :: rest => rest
    | cs => cs
  !digits.isEmpty && digits.all Char.isDigit &&
    digits.foldl (fun n c => n * 10 + (c.toNat - '0'.toNat)) 0 < 18446744073709551616

/-- Set an option to a value. The number of threads makes no difference to the outcome. -/
def Reading.assign (d : Reading) (s : Setting) (value : String) : Option Reading :=
  if d.given.contains s then none
  else
    let d := { d with given := s :: d.given }
    match s with
    | .transformation =>
      (Transformation.ofName? value).map fun t => { d with settings.transformation := t }
    | .threads => if isThreadCount value then some d else none
    | .format =>
      if value = "text" then some { d with settings.format := .text }
      else if value = "json" then some { d with settings.format := .json }
      else none
    | .config => if value.isEmpty then none else some { d with settings.config := some value }
    | .propsStyle =>
      (PropsStyle.ofName? value).map fun style => { d with settings.propsStyle := some style }

/-! ### Reading arguments -/

/-- The argument is an option, or several letters of options. -/
def isOption (arg : String) : Bool :=
  match arg.toList with
  | '-' :: _ :: _ => true
  | _ => false

/-- The value of an option from the arguments behind it. -/
def nextValue? : List String → Option (String × List String)
  | value :: rest => if isOption value then none else some (value, rest)
  | [] => none

/-- A text cut at its first `=`. -/
def cutAtEquals (cs : List Char) : String × Option String :=
  let name := String.ofList (cs.takeWhile (· != '='))
  match cs.dropWhile (· != '=') with
  | _ :: value => (name, some (String.ofList value))
  | [] => (name, none)

/-- Read an option by its long name, given without the dashes. -/
def readLong (d : Reading) (arg : List Char) (rest : List String) :
    Option (Reading × List String) := do
  let (name, value) := cutAtEquals arg
  match ← longOption? name, value with
  | .switch s, none => return (← d.turnOn s, rest)
  | .verbose, none => return (d, rest)
  | .help, none => return ({ d with isHelp := true }, rest)
  | .setting s, some value => return (← d.assign s value, rest)
  | .setting s, none =>
    let (value, rest) ← nextValue? rest
    return (← d.assign s value, rest)
  | _, some _ => none

/-- Read letters, the last of which may have a value. -/
def readLetters (d : Reading) (letters : List Char) (rest : List String) :
    Option (Reading × List String) :=
  match letters with
  | [] => some (d, rest)
  | c :: cs => do
    match ← letterOption? c with
    | .switch s => readLetters (← d.turnOn s) cs rest
    | .verbose => readLetters d cs rest
    | .help => return ({ d with isHelp := true }, rest)
    | .setting s =>
      match cs with
      | [] =>
        let (value, rest) ← nextValue? rest
        return (← d.assign s value, rest)
      | '=' :: value => return (← d.assign s (String.ofList value), rest)
      | value => return (← d.assign s (String.ofList value), rest)

/-- Read the arguments of a run. The number bounds how many there are. -/
def readRun : Nat → Reading → List String → Option Reading
  | 0, d, _ => some d
  | _ + 1, d, [] => some d
  | n + 1, d, arg :: rest =>
    if d.isHelp then some d
    else
      match arg.toList with
      | ['-', '-'] => some { d with patterns := d.patterns ++ rest }
      | '-' :: '-' :: name => do
        let (d, rest) ← readLong d name rest
        readRun n d rest
      | '-' :: c :: cs => do
        let (d, rest) ← readLetters d (c :: cs) rest
        readRun n d rest
      | _ => readRun n { d with patterns := d.patterns ++ [arg] } rest

/-- The command of a run. Without patterns the default one counts. -/
def ofRun? (args : List String) : Option Command := do
  let d ← readRun (args.length + 1) {} args
  if d.isHelp then return .help
  else if d.patterns.isEmpty then return .run d.settings
  else return .run { d.settings with patterns := d.patterns }

/-- Arguments that only ask for more to be said. -/
def isVerbose (arg : String) : Bool :=
  match arg.toList with
  | '-' :: 'v' :: cs => cs.all (· == 'v')
  | _ => arg == "--verbose"

/-- The arguments behind `list`. -/
def ofList? : List String → Option Command
  | [] => some .list
  | arg :: rest =>
    if isVerbose arg then ofList? rest
    else if arg == "-h" || arg == "--help" then some .help
    else if arg == "--" && rest.isEmpty then some .list
    else none

/-- The arguments behind `help`. -/
def ofHelp? : List String → Option Command
  | [] => some .help
  | [name] => if ["run", "list", "help"].contains name then some .help else none
  | _ => none

/-- Letters before the command, of which only a few have a meaning. -/
def ofLetters? : List Char → Option (Option Command)
  | [] => some none
  | 'v' :: cs => ofLetters? cs
  | 'V' :: _ => some (some .version)
  | 'h' :: _ => some (some .help)
  | _ => none

/-- Read the command line; `none` when it makes no sense. -/
def parse? : List String → Option Command
  | [] => none
  | arg :: rest =>
    match arg.toList with
    | '-' :: '-' :: _ =>
      if arg == "--version" then some .version
      else if arg == "--help" then some .help
      else if arg == "--verbose" then parse? rest
      else none
    | '-' :: c :: cs =>
      match ofLetters? (c :: cs) with
      | some (some command) => some command
      | some none => parse? rest
      | none => none
    | _ =>
      if arg == "run" then ofRun? rest
      else if arg == "list" then ofList? rest
      else if arg == "help" then ofHelp? rest
      else none

/-! ### Running -/

/-- The text with spaces behind it up to a width. -/
def padRight (width : Nat) (s : String) : String :=
  s ++ String.ofList (List.replicate (width - s.length) ' ')

/-- The transformations, one on a line. -/
def listing : String :=
  let width := (Transformation.all.map fun t => t.name.length).foldl max 0
  String.join (Transformation.all.map fun t =>
    padRight width t.name ++ "  " ++ t.description ++ "\n")

/-- How the command is used. -/
def usage : String :=
  "Usage: retouche [-v] run [PATTERNS] [OPTIONS]\n       retouche [-v] list\n"

/-- Run the command that arguments give. Arguments that make no sense end in a code of their own. -/
def execute (args : List String) (t : Batch.Tree) : Batch.Outcome :=
  match parse? args with
  | none => ⟨2, "", fun _ => usage, t⟩
  | some .version => ⟨0, "retouche 0.1.0\n", fun _ => "", t⟩
  | some .help => ⟨0, usage, fun _ => "", t⟩
  | some .list => ⟨0, listing, fun _ => "", t⟩
  | some (.run settings) => Batch.run settings t

end Command

end VueSetup
