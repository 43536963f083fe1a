import VueSetup.Path

/-!
# VueSetup.Batch.Tree

The files below the current directory. A directory is there because some file is in it. Paths are
read from the current directory, and nothing outside of it can be reached.

Left out are links, through which one file has several places, and ignore files (`.gitignore` and
its like), which take paths away from a walk. The trees here have neither: what is walked is
everything that is not hidden.
-/

namespace VueSetup.Batch

/-- What a file holds. -/
inductive Content where
  | text (s : String)
  /-- Bytes that are no text. -/
  | binary (bytes : List UInt8)
  deriving DecidableEq, Repr

/-- Files by the names that lead to them. -/
structure Tree where
  files : List (List String × Content)
  deriving Repr

/-- What a path leads to. -/
inductive Entry where
  | file (content : Content)
  | directory
  deriving DecidableEq, Repr

namespace Tree

/-- What the names lead to. -/
def entry? (t : Tree) (names : List String) : Option Entry :=
  match t.files.lookup names with
  | some content => some (.file content)
  | none =>
    if names.isEmpty || t.files.any fun f => names.isPrefixOf f.1 then some .directory else none

/-- Follow the parts of a path from a directory. -/
def follow? (t : Tree) (names : List String) : List Path.Part → Option (List String)
  | [] => some names
  | part :: rest =>
    if t.entry? names = some .directory then
      match part with
      | .root => none
      | .here => follow? t names rest
      | .parent => if names.isEmpty then none else follow? t names.dropLast rest
      | .name text => follow? t (names ++ [text]) rest
    else none

/-- The path ends in a way that only a directory can be meant. -/
def meansDirectory (path : String) : Bool :=
  match (Path.segments path).getLast? with
  | some [] => true
  | some ['.'] => true
  | _ => false

/-- The names that a path leads through, and what it leads to. -/
def find? (t : Tree) (path : String) : Option (List String × Entry) := do
  if path.isEmpty then none
  let names ← t.follow? [] (Path.parts path)
  let entry ← t.entry? names
  if meansDirectory path && entry != .directory then none
  return (names, entry)

/-- The path leads to a directory. -/
def isDirectory (t : Tree) (path : String) : Bool :=
  (t.find? path).any fun found => found.2 == .directory

/-- The path leads to a file. -/
def isFile (t : Tree) (path : String) : Bool :=
  (t.find? path).any fun found => found.2 != .directory

/-- The text of a file. -/
def text? (t : Tree) (path : String) : Option String :=
  match t.find? path with
  | some (_, .file (.text s)) => some s
  | _ => none

/-- Put a text in a file that is there. -/
def write (t : Tree) (path text : String) : Tree :=
  match t.find? path with
  | some (names, .file _) =>
    ⟨t.files.map fun f => if f.1 = names then (f.1, .text text) else f⟩
  | _ => t

/-! ### Walking -/

/-- The name is that of a hidden file or directory. -/
def isHidden (name : String) : Bool :=
  name.toList.head? == some '.'

/-- The beginnings of a list of names, from the shortest that is not empty. -/
def beginnings : List String → List (List String)
  | [] => []
  | name :: names => [name] :: (beginnings names).map (name :: ·)

/-- The names of everything below a directory, by their way from it. Hidden files and directories
are left out, with all that is in them. -/
def below (t : Tree) (names : List String) : List (List String) :=
  (t.files.flatMap fun f =>
    if names.isPrefixOf f.1 then beginnings (f.1.drop names.length) else []).filter fun way =>
      !way.any isHidden

/-- The paths of everything that a path leads to, itself included. -/
def walk (t : Tree) (root : String) : List String :=
  match t.find? root with
  | none => []
  | some (_, .file _) => [root]
  | some (names, .directory) => root :: (t.below names).map fun way => way.foldl Path.join root

end Tree

end VueSetup.Batch
