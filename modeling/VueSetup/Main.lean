import VueSetup.Command

/-!
# VueSetup.Main

The program: it reads the files below the current directory, hands them to the command that its
arguments give, and puts the changed ones back.
-/

namespace VueSetup.Main

/-- A file as text if it is one, and otherwise as its bytes. -/
def contentOf (bytes : ByteArray) : Batch.Content :=
  match String.fromUTF8? bytes with
  | some s => .text s
  | none => .binary bytes.toList

/-- The files that an entry of the directory `names` stands for: itself, or all below it. -/
partial def readEntry (names : List String) (entry : IO.FS.DirEntry) :
    IO (List (List String × Batch.Content)) := do
  let names := names ++ [entry.fileName]
  if ← entry.path.isDir then
    let found ← (← entry.path.readDir).toList.mapM (readEntry names)
    return found.flatten
  else return [(names, contentOf (← IO.FS.readBinFile entry.path))]

/-- The files below the current directory. -/
def readTree : IO Batch.Tree := do
  let found ← (← (← IO.currentDir).readDir).toList.mapM (readEntry [])
  return ⟨found.flatten⟩

/-- Put back the files that are not what they were. -/
def writeChanged (before after : Batch.Tree) : IO Unit := do
  let directory ← IO.currentDir
  for (old, names, new) in before.files.zip after.files do
    if old.2 != new then
      let path := names.foldl (fun path name => path / name) directory
      match new with
      | .text s => IO.FS.writeFile path s
      | .binary bytes => IO.FS.writeBinFile path ⟨bytes.toArray⟩

/-- A time as seconds with four places. -/
def seconds (nanoseconds : Nat) : String :=
  let parts := nanoseconds / 100000
  let fraction := toString (parts % 10000)
  toString (parts / 10000) ++ "." ++ "".pushn '0' (4 - fraction.length) ++ fraction ++ "s"

end VueSetup.Main

/-- Run the command that the arguments give. -/
def main (args : List String) : IO UInt32 := do
  let started ← IO.monoNanosNow
  let tree ← VueSetup.Main.readTree
  let outcome := VueSetup.Command.execute args tree
  VueSetup.Main.writeChanged tree outcome.tree
  IO.print outcome.out
  let elapsed := (← IO.monoNanosNow) - started
  IO.eprint (outcome.err (some (VueSetup.Main.seconds elapsed)))
  return outcome.exitCode.toUInt32
