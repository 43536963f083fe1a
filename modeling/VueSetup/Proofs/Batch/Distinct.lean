import VueSetup.Proofs.Batch.Select
import VueSetup.Proofs.Batch.Walk

/-!
# VueSetup.Proofs.Batch.Distinct

Different selected paths lead to different places (`selectFiles_names_ne`), provided that the
patterns spell alike the places where they start.

A selection drops repeated paths by their parts, and the parts of a path tell how its root was
spelled: `b` and `./b` are the same directory and have different parts. Two patterns that reach one
file by roots of different spellings therefore select it twice (`selectFiles_twoSpellings`). Where
one root lies in another, what is asked for is that its spelling goes on from that of the other.
-/

namespace VueSetup.Batch

/-- If the inner place lies in the outer one, its spelling goes on from that of the outer one. -/
def Tree.spelledAlike (t : Tree) (outer inner : String) : Bool :=
  match t.names? outer, t.names? inner with
  | some above, some below =>
    !above.isPrefixOf below ||
      Path.parts inner == Path.parts outer ++ (below.drop above.length).map .name
  | _, _ => true

/-- The places where the patterns start are spelled alike. -/
def RootsAlike (t : Tree) (patterns : List String) : Prop :=
  ∀ a ∈ patterns, ∀ b ∈ patterns,
    t.spelledAlike (Pattern.read t a).root (Pattern.read t b).root = true

instance (t : Tree) (patterns : List String) : Decidable (RootsAlike t patterns) :=
  inferInstanceAs (Decidable (∀ a ∈ patterns, _))

variable {t : Tree} {patterns : List String}

/-- The condition as an equation between parts. -/
theorem Tree.parts_eq_of_spelledAlike {outer inner : String}
    (halike : t.spelledAlike outer inner = true) {above way : List String}
    (houter : t.names? outer = some above) (hinner : t.names? inner = some (above ++ way)) :
    Path.parts inner = Path.parts outer ++ way.map .name := by
  have hinside : above.isPrefixOf (above ++ way) = true :=
    List.isPrefixOf_iff_prefix.2 (List.prefix_append above way)
  simpa [spelledAlike, houter, hinner, hinside] using halike

/-- Walks from places that are spelled alike find a common place by the same parts. -/
theorem Tree.Walked.parts_eq_parts {a b pathA pathB : String}
    {namesA namesB wayA wayB : List String} (hwalkedA : t.Walked a pathA namesA wayA)
    (hwalkedB : t.Walked b pathB namesB wayB) (hab : t.spelledAlike a b = true)
    (hba : t.spelledAlike b a = true)
    (hsame : namesA ++ wayA = namesB ++ wayB) : Path.parts pathA = Path.parts pathB := by
  rw [hwalkedA.parts_eq, hwalkedB.parts_eq]
  rcases List.append_eq_append_iff.1 hsame with ⟨between, rfl, rfl⟩ | ⟨between, rfl, rfl⟩
  · rw [Tree.parts_eq_of_spelledAlike hab hwalkedA.names?_root hwalkedB.names?_root]
    simp
  · rw [Tree.parts_eq_of_spelledAlike hba hwalkedB.names?_root hwalkedA.names?_root]
    simp

/-- Where a pattern starts, and how a path goes on from there that it selects. -/
theorem exists_walked_of_mem_paths (hwf : t.WellFormed) {pattern path : String}
    (hmem : path ∈ Pattern.paths t pattern) :
    ∃ names way, t.Walked (Pattern.read t pattern).root path names way :=
  hwf.exists_of_mem_walk (List.mem_filter.1 hmem).1

/-- What one pattern means is selected, by a path with the same names. -/
theorem exists_selected (hwf : t.WellFormed) {pattern path : String} {place : List String}
    (hmem : path ∈ Pattern.paths t pattern) (hleads : t.names? path = some place) :
    ∃ kept ∈ selectFiles t [pattern], t.names? kept = some place := by
  have hsorted : path ∈ ([pattern].flatMap (Pattern.paths t)).mergeSort Path.le := by
    simpa using hmem
  obtain ⟨kept, hmemkept, hsame⟩ := exists_mem_dropRepeated hsorted
  have hfound := mem_paths_of_mem_selectFiles hmemkept
  obtain ⟨names, way, hwalked⟩ := exists_walked_of_mem_paths hwf hmem
  obtain ⟨names', way', hwalked'⟩ := exists_walked_of_mem_paths hwf hfound
  have hstart : names' = names :=
    Option.some.inj (hwalked'.names?_root.symm.trans hwalked.names?_root)
  rw [hwalked.parts_eq, hwalked'.parts_eq, List.append_cancel_left_eq] at hsame
  have hgoes : way' = way := (List.map_inj_right fun _ _ => Path.Part.name.inj).1 hsame
  refine ⟨kept, hmemkept, ?_⟩
  rw [hwalked'.names?_path, hstart, hgoes, ← hwalked.names?_path, hleads]

/-- **No file is selected twice.** Let the patterns start at places that are spelled alike. Then
every selected path leads to something in the tree, and no two of them lead to the same place. -/
theorem selectFiles_names_ne (t : Tree) (hwf : t.WellFormed) (patterns : List String)
    (halike : RootsAlike t patterns) :
    (∀ path ∈ selectFiles t patterns, ∃ place, t.names? path = some place) ∧
      (selectFiles t patterns).Pairwise fun a b => t.names? a ≠ t.names? b := by
  constructor
  · intro path hmem
    obtain ⟨pattern, -, hfound⟩ := exists_of_mem_selectFiles hmem
    obtain ⟨names, way, hwalked⟩ := exists_walked_of_mem_paths hwf hfound
    exact ⟨_, hwalked.names?_path⟩
  · apply (pairwise_parts_selectFiles t patterns).imp_of_mem
    intro a b hmemA hmemB hdifferent hsame
    obtain ⟨patternA, hinA, hfoundA⟩ := exists_of_mem_selectFiles hmemA
    obtain ⟨patternB, hinB, hfoundB⟩ := exists_of_mem_selectFiles hmemB
    obtain ⟨namesA, wayA, hwalkedA⟩ := exists_walked_of_mem_paths hwf hfoundA
    obtain ⟨namesB, wayB, hwalkedB⟩ := exists_walked_of_mem_paths hwf hfoundB
    rw [hwalkedA.names?_path, hwalkedB.names?_path, Option.some.injEq] at hsame
    exact hdifferent (hwalkedA.parts_eq_parts hwalkedB (halike _ hinA _ hinB) (halike _ hinB _ hinA)
      hsame)

/-- A component at the top and one in a directory. -/
def nestedFiles : Tree :=
  ⟨[(["A.vue"], .text "<p/>\n"), (["b", "B.vue"], .text "<p/>\n")]⟩

/-- The current directory and one inside of it, spelled alike, select each component once. -/
theorem selectFiles_names_ne_nestedFiles :
    nestedFiles.WellFormed ∧ RootsAlike nestedFiles [".", "./b"] ∧
      selectFiles nestedFiles [".", "./b"] = ["./A.vue", "./b/B.vue"] ∧
      (selectFiles nestedFiles [".", "./b"]).Pairwise fun a b =>
        nestedFiles.names? a ≠ nestedFiles.names? b := by
  have hwf : nestedFiles.WellFormed := by decide +kernel
  have halike : RootsAlike nestedFiles [".", "./b"] := by decide +kernel
  have hfound : [".", "./b"].flatMap (Pattern.paths nestedFiles) =
      ["./A.vue", "./b/B.vue", "./b/B.vue"] := by
    decide +kernel
  have hsorted : ["./A.vue", "./b/B.vue", "./b/B.vue"].Pairwise fun a b => Path.le a b = true := by
    decide +kernel
  have hdiffer : Path.parts "./A.vue" ≠ Path.parts "./b/B.vue" := by decide +kernel
  refine ⟨hwf, halike, ?_, (selectFiles_names_ne nestedFiles hwf _ halike).2⟩
  rw [selectFiles, hfound, List.mergeSort_of_pairwise hsorted]
  simp [dropRepeated, hdiffer, Path.same]

/-- A directory by its name and the current one by its dot: what is in the directory is selected
twice, and both paths lead to one file. -/
theorem selectFiles_twoSpellings :
    selectFiles nestedFiles [".", "b"] = ["./A.vue", "./b/B.vue", "b/B.vue"] ∧
      nestedFiles.names? "./b/B.vue" = some ["b", "B.vue"] ∧
      nestedFiles.names? "b/B.vue" = some ["b", "B.vue"] := by
  have hfound : [".", "b"].flatMap (Pattern.paths nestedFiles) =
      ["./A.vue", "./b/B.vue", "b/B.vue"] := by
    decide +kernel
  have hsorted : ["./A.vue", "./b/B.vue", "b/B.vue"].Pairwise fun a b => Path.le a b = true := by
    decide +kernel
  have hdiffer : Path.parts "./A.vue" ≠ Path.parts "./b/B.vue" ∧
      Path.parts "./b/B.vue" ≠ Path.parts "b/B.vue" := by
    decide +kernel
  refine ⟨?_, by decide +kernel, by decide +kernel⟩
  rw [selectFiles, hfound, List.mergeSort_of_pairwise hsorted]
  simp [dropRepeated, hdiffer, Path.same]

end VueSetup.Batch
