/-!
# VueSetup.Path

Paths of files, as texts with slashes. Two paths are compared part by part, where repeated slashes
and single dots inside of a path do not count.
-/

namespace VueSetup.Path

/-! ### Parts -/

/-- A part of a path. -/
inductive Part where
  /-- The slash before an absolute path. -/
  | root
  /-- The dot at the start of a path. -/
  | here
  /-- Two dots. -/
  | parent
  | name (text : String)
  deriving DecidableEq, Repr

/-- The texts between slashes. -/
def segments (path : String) : List (List Char) :=
  path.toList.splitOn '/'

/-- The part that a text between slashes stands for; `first` tells that it starts the path. -/
def Part.ofSegment? (first : Bool) (segment : List Char) : Option Part :=
  match segment with
  | [] => if first then some .root else none
  | ['.'] => if first then some .here else none
  | ['.', '.'] => some .parent
  | segment => some (.name (String.ofList segment))

/-- The parts of a path. The empty path has none. -/
def parts (path : String) : List Part :=
  match segments path with
  | [] => []
  | [[]] => []
  | first :: others =>
    (Part.ofSegment? true first).toList ++ others.filterMap (Part.ofSegment? false)

/-! ### Order -/

/-- Where a part stands among the other kinds. -/
def Part.rank : Part → Nat
  | .root => 0
  | .here => 1
  | .parent => 2
  | .name _ => 3

/-- One part comes before another; names come by their code points. -/
def Part.before : Part → Part → Bool
  | .name a, .name b => a < b
  | a, b => a.rank < b.rank

/-- One list of parts does not come behind another. -/
def partsLe : List Part → List Part → Bool
  | [], _ => true
  | _ :: _, [] => false
  | a :: as, b :: bs => a.before b || (a == b && partsLe as bs)

/-- One path does not come behind another. -/
def le (a b : String) : Bool :=
  partsLe (parts a) (parts b)

/-- Two paths have the same parts. -/
def same (a b : String) : Bool :=
  parts a == parts b

/-! ### Names -/

/-- What stands behind the last dot of a name that does not start with it. -/
def extensionOf? (name : List Char) : Option (List Char) :=
  let extension := (name.reverse.takeWhile (· != '.')).reverse
  if extension.length + 1 < name.length then some extension else none

/-- The extension of the file that a path names. -/
def extension? (path : String) : Option String :=
  match (parts path).getLast? with
  | some (.name text) => (extensionOf? text.toList).map String.ofList
  | _ => none

/-- A path with a name behind it. -/
def join (directory name : String) : String :=
  if directory.toList.getLast? == some '/' then directory ++ name else directory ++ "/" ++ name

/-- Take slashes, and dots behind a slash, off the end of a path, which is given in reverse. -/
def trimReversed : List Char → List Char
  | '/' :: cs => trimReversed cs
  | '.' :: '/' :: cs => trimReversed cs
  | cs => cs

/-- The directory of the file that a path names; the empty path stands for the current one. -/
def directory (path : String) : String :=
  String.ofList (trimReversed (path.toList.reverse.dropWhile (· != '/'))).reverse

end VueSetup.Path
