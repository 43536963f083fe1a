import VueSetup.Json

/-!
# VueSetup.Report

How many files each transformation changed. The entries stand in ascending order of their names.
-/

namespace VueSetup

/-- Counts by name, in ascending order of the names. -/
structure Report where
  entries : List (String × Nat) := []
  deriving Repr

namespace Report

/-- Count one more under a name. -/
def bump (name : String) : List (String × Nat) → List (String × Nat)
  | [] => [(name, 1)]
  | (n, k) :: rest =>
    if name = n then (n, k + 1) :: rest
    else if name < n then (name, 1) :: (n, k) :: rest
    else (n, k) :: bump name rest

/-- Count one changed file. -/
def record (r : Report) (name : String) : Report :=
  ⟨bump name r.entries⟩

/-- How many files were counted under a name. -/
def count (r : Report) (name : String) : Nat :=
  (r.entries.lookup name).getD 0

/-- How many files were counted. -/
def total (r : Report) : Nat :=
  r.entries.foldl (fun n entry => n + entry.2) 0

/-- The report as an object, a field for each name. -/
def toJson (r : Report) : Json :=
  .object (r.entries.map fun (name, n) => (name, Json.ofNat n))

end Report

end VueSetup
