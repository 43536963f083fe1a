import VueSetup.Batch.Tree

/-!
# VueSetup.Batch.Pattern

The files that a pattern selects. A pattern says where to start walking, its **root**, and which of
the paths found there are meant. Only one kind of wildcard is understood, `**/*.vue` behind a
directory; a pattern that ends otherwise in `.vue` names files by the end of their path, and any
other pattern means all components below its root.
-/

namespace VueSetup.Batch

/-- A pattern with the place to start from. -/
structure Pattern where
  root : String
  text : String
  deriving DecidableEq, Repr

namespace Pattern

/-! ### Texts -/

/-- What stands before the first occurrence of a text. -/
def before? (needle : List Char) : List Char → Option (List Char)
  | [] => if needle.isEmpty then some [] else none
  | c :: cs =>
    if needle.isPrefixOf (c :: cs) then some [] else (before? needle cs).map (c :: ·)

/-- The text without the slashes at its end. -/
def trimSlashes (cs : List Char) : List Char :=
  (cs.reverse.dropWhile (· == '/')).reverse

/-- The text without any number of `./` at its start. -/
def trimHere : List Char → List Char
  | '.' :: '/' :: cs => trimHere cs
  | cs => cs

/-- The text with slashes in the place of backslashes. -/
def forwardSlashes (cs : List Char) : List Char :=
  cs.map fun c => if c == '\\' then '/' else c

/-! ### Reading a pattern -/

/-- The character is a wildcard. -/
def isWildcard (c : Char) : Bool :=
  c == '*' || c == '?'

/-- The directory before the first wildcard. -/
def wildcardRoot (cs : List Char) : List Char :=
  let fixed := cs.takeWhile fun c => !isWildcard c
  match (fixed.reverse.dropWhile (· != '/')).drop 1 with
  | [] => ['.']
  | directory => directory.reverse

/-- Read a pattern. What it means may depend on the files that are there. -/
def read (t : Tree) (pattern : String) : Pattern :=
  let cs := pattern.toList
  if cs.any isWildcard then ⟨String.ofList (wildcardRoot cs), pattern⟩
  else if t.isDirectory pattern then
    let directory := String.ofList (trimSlashes cs)
    ⟨directory, directory ++ "/**/*.vue"⟩
  else if t.isFile pattern && ".vue".toList.isSuffixOf cs then
    let directory := Path.directory pattern
    ⟨if directory.isEmpty then "." else directory, pattern⟩
  else ⟨".", pattern⟩

/-! ### Selecting paths -/

/-- The pattern means the path. -/
def selects (pattern path : String) : Bool :=
  let cs := forwardSlashes path.toList
  let isComponent := ".vue".toList.isSuffixOf cs
  if pattern = "./**/*.vue" || pattern = "**/*.vue" then isComponent
  else
    match before? "**/*.vue".toList pattern.toList with
    | some directory => (trimSlashes directory ++ ['/']).isPrefixOf cs && isComponent
    | none =>
      if ".vue".toList.isSuffixOf pattern.toList then
        let name := trimHere (forwardSlashes pattern.toList)
        trimHere cs == name || ('/' :: name).isSuffixOf cs
      else isComponent

/-- The paths that a pattern means. -/
def paths (t : Tree) (pattern : String) : List String :=
  let p := read t pattern
  (t.walk p.root).filter fun path =>
    Path.extension? path == some "vue" && selects p.text path

end Pattern

/-- Of neighbours with the same parts only the first stays. -/
def dropRepeated : List String → List String
  | [] => []
  | [path] => [path]
  | a :: b :: rest =>
    if Path.same a b then dropRepeated (a :: rest) else a :: dropRepeated (b :: rest)

/-- The paths that patterns mean, in order and each once. -/
def selectFiles (t : Tree) (patterns : List String) : List String :=
  dropRepeated ((patterns.flatMap (Pattern.paths t)).mergeSort Path.le)

end VueSetup.Batch
