import VueSetup.Batch.Tree

/-!
# VueSetup.Proofs.Batch.Tree

What a write does to a tree. It changes what one file holds and neither adds nor takes away a name,
so that every path leads where it led before. Two paths that do not lead to the same place are
**apart**: a write through one of them is not seen through the other, and writes through both
commute.
-/

namespace VueSetup.Batch.Tree

variable {t : Tree} {a b path text : String} {names : List String} {content : Content}

/-- The names that a path leads through. -/
def names? (t : Tree) (path : String) : Option (List String) :=
  (t.find? path).map (·.1)

/-- Two paths do not lead to the same place. -/
def Apart (t : Tree) (a b : String) : Prop :=
  t.names? a = none ∨ t.names? a ≠ t.names? b

instance (t : Tree) (a b : String) : Decidable (t.Apart a b) :=
  inferInstanceAs (Decidable (_ ∨ _))

/-- Put a text in all files of a name. -/
def put (t : Tree) (names : List String) (text : String) : Tree :=
  ⟨t.files.map fun f => if f.1 = names then (f.1, .text text) else f⟩

/-- A write to a file that is there. -/
theorem write_eq_put (hfound : t.find? path = some (names, .file content)) :
    t.write path text = t.put names text := by
  rw [write, hfound, put]

/-- A write to something else, or to nothing, does nothing. -/
theorem write_of_not_file (hmissing : ∀ names content, t.find? path ≠ some (names, .file content)) :
    t.write path text = t := by
  unfold write
  split
  · next hfound => exact absurd hfound (hmissing _ _)
  · rfl

/-! ### What names lead to

A text is put in place of another, and the list of names is not touched. What is a file or a
directory depends on that list only. -/

/-- The names of the files stay. -/
@[simp] theorem map_fst_put : (t.put names text).files.map Prod.fst = t.files.map Prod.fst := by
  simp only [put, List.map_map]
  apply List.map_congr_left
  intro f _
  by_cases h : f.1 = names <;> simp [h]

/-- What is looked up by the names holds the text, and all else what it held. -/
theorem lookup_put (other : List String) :
    (t.put names text).files.lookup other =
      (t.files.lookup other).map fun content => if other = names then .text text else content := by
  obtain ⟨files⟩ := t
  simp only [put]
  induction files with
  | nil => rfl
  | cons f rest ih =>
    obtain ⟨name, content⟩ := f
    by_cases hother : other = name
    · subst hother
      by_cases h : other = names <;> simp [h]
    · have hskipped : ∀ (head : Content) (rest : List (List String × Content)),
          List.lookup other ((name, head) :: rest) = List.lookup other rest := by
        intro head rest
        rw [List.lookup_cons, beq_false_of_ne hother]
      rw [List.map_cons, hskipped, ← ih]
      by_cases h : name = names
      · rw [if_pos h, hskipped]
      · rw [if_neg h, hskipped]

/-- A file stays a file and a directory a directory. -/
theorem entry?_put (other : List String) :
    Tree.entry? (t.put names text) other =
      (t.entry? other).map fun entry =>
        match entry with
        | .file content => .file (if other = names then .text text else content)
        | .directory => .directory := by
  have hkept : ((t.put names text).files.any fun f => other.isPrefixOf f.1) =
      t.files.any fun f => other.isPrefixOf f.1 := by
    have hnamed : ∀ files : List (List String × Content),
        (files.any fun f => other.isPrefixOf f.1) =
          (files.map Prod.fst).any fun name => other.isPrefixOf name := by
      intro files
      simp [List.any_map, Function.comp_def]
    rw [hnamed, hnamed, map_fst_put]
  unfold entry?
  rw [lookup_put, hkept]
  cases t.files.lookup other with
  | some content => rfl
  | none => by_cases h : (other.isEmpty || t.files.any fun f => other.isPrefixOf f.1) <;> simp [h]

/-- The directories are the same. -/
theorem entry?_put_eq_directory_iff (other : List String) :
    Tree.entry? (t.put names text) other = some .directory ↔ t.entry? other = some .directory := by
  rw [entry?_put]
  cases t.entry? other with
  | none => simp
  | some entry => cases entry <;> simp

/-! ### What paths lead to

Following a path asks only what is a directory, and that does not change. -/

/-- Every path is followed as before. -/
@[simp] theorem follow?_put (start : List String) (parts : List Path.Part) :
    (t.put names text).follow? start parts = t.follow? start parts := by
  induction parts generalizing start with
  | nil => rfl
  | cons part rest ih =>
    simp only [follow?, entry?_put_eq_directory_iff, ih]

/-- Every path leads where it led before, and finds the text that was put there. -/
theorem find?_put (other : String) :
    (t.put names text).find? other =
      (t.find? other).map fun found =>
        (found.1, match found.2 with
          | .file content => .file (if found.1 = names then .text text else content)
          | .directory => .directory) := by
  unfold find?
  by_cases hempty : other.isEmpty
  · simp [hempty]
  · simp only [hempty, follow?_put]
    cases t.follow? [] (Path.parts other) with
    | none => simp
    | some place =>
      simp only [Option.bind_eq_bind, Option.bind_some, entry?_put]
      cases t.entry? place with
      | none => simp
      | some entry =>
        cases entry <;> by_cases hmeans : meansDirectory other <;> simp [hmeans]

/-- No path leads elsewhere because of a write. -/
theorem names?_write (other : String) : (t.write path text).names? other = t.names? other := by
  by_cases h : ∃ names content, t.find? path = some (names, .file content)
  · obtain ⟨names, content, hfound⟩ := h
    rw [write_eq_put hfound, names?, find?_put, Option.map_map]
    rfl
  · rw [write_of_not_file fun names content hfound => h ⟨names, content, hfound⟩]

@[simp] theorem apart_write : (t.write path text).Apart a b ↔ t.Apart a b := by
  simp only [Apart, names?_write]

/-- It does not matter which of the two is named first. -/
theorem Apart.symm (h : t.Apart a b) : t.Apart b a := by
  unfold Apart at *
  cases h with
  | inl hnowhere =>
    by_cases hother : t.names? b = none
    · exact .inl hother
    · rw [hnowhere]
      exact .inr hother
  | inr hdifferent => exact .inr (Ne.symm hdifferent)

/-- A path finds what was written through it. -/
theorem find?_write_self (hfound : t.find? path = some (names, .file content)) :
    (t.write path text).find? path = some (names, .file (.text text)) := by
  rw [write_eq_put hfound, find?_put, hfound]
  simp

/-- A write is not seen through a path that leads elsewhere. -/
theorem find?_write (h : t.Apart a b) : (t.write a text).find? b = t.find? b := by
  by_cases hfile : ∃ names content, t.find? a = some (names, .file content)
  · obtain ⟨names, content, hfound⟩ := hfile
    rw [write_eq_put hfound, find?_put]
    cases hfoundThere : t.find? b with
    | none => rfl
    | some there =>
      obtain ⟨place, entry⟩ := there
      have helsewhere : place ≠ names := by
        rintro rfl
        simp [Apart, names?, hfound, hfoundThere] at h
      cases entry <;> simp [helsewhere]
  · rw [write_of_not_file fun names content hfound => hfile ⟨names, content, hfound⟩]

/-- A write leaves everything as it is except for the place that its path leads to. -/
theorem entry?_write (h : t.names? path ≠ some names) :
    Tree.entry? (t.write path text) names = t.entry? names := by
  by_cases hfile : ∃ place content, t.find? path = some (place, .file content)
  · obtain ⟨place, content, hfound⟩ := hfile
    have helsewhere : names ≠ place := by
      rintro rfl
      simp [names?, hfound] at h
    rw [write_eq_put hfound, entry?_put]
    cases t.entry? names with
    | none => rfl
    | some entry => cases entry <;> simp [helsewhere]
  · rw [write_of_not_file fun place content hfound => hfile ⟨place, content, hfound⟩]

/-- Writes to different places commute. -/
theorem write_comm (h : t.Apart a b) (first second : String) :
    (t.write a first).write b second = (t.write b second).write a first := by
  by_cases hfileA : ∃ names content, t.find? a = some (names, .file content)
  · by_cases hfileB : ∃ names content, t.find? b = some (names, .file content)
    · obtain ⟨namesA, contentA, hfoundA⟩ := hfileA
      obtain ⟨namesB, contentB, hfoundB⟩ := hfileB
      have hdifferent : namesA ≠ namesB := by
        rintro rfl
        simp [Apart, names?, hfoundA, hfoundB] at h
      rw [write_eq_put ((find?_write h).trans hfoundB),
        write_eq_put ((find?_write h.symm).trans hfoundA), write_eq_put hfoundA,
          write_eq_put hfoundB]
      simp only [put, List.map_map, Tree.mk.injEq]
      apply List.map_congr_left
      intro f _
      by_cases hA : f.1 = namesA
      · have hB : f.1 ≠ namesB := fun hB => hdifferent (hA.symm.trans hB)
        simp [hA, hdifferent]
      · by_cases hB : f.1 = namesB <;> simp [hA, hB, Ne.symm hdifferent]
    · have hmissing : ∀ names content, t.find? b ≠ some (names, .file content) :=
        fun names content hfound => hfileB ⟨names, content, hfound⟩
      have hstill : ∀ names content, (t.write a first).find? b ≠ some (names, .file content) := by
        rwa [find?_write h]
      rw [write_of_not_file hmissing, write_of_not_file hstill]
  · have hmissing : ∀ names content, t.find? a ≠ some (names, .file content) :=
      fun names content hfound => hfileA ⟨names, content, hfound⟩
    have hstill : ∀ names content, (t.write b second).find? a ≠ some (names, .file content) := by
      rwa [find?_write h.symm]
    rw [write_of_not_file hmissing, write_of_not_file hstill]

end VueSetup.Batch.Tree
