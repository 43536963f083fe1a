import VueSetup.Batch.Pattern

/-!
# VueSetup.Proofs.Batch.Select

The order of the selected paths. Paths are compared part by part, which makes a total preorder; the
sort of the selection is by it, and to drop repeated paths leaves the order as it is.
-/

namespace VueSetup.Path

/-! ### The order of paths

Parts are ordered by their kind and then by their text. The order of lists of parts is the usual one
of lists, with which shorter ones come first. -/

/-- By the kinds of the three parts. -/
theorem Part.before_trans {a b c : Part} (hfirst : a.before b = true)
    (hsecond : b.before c = true) :
    a.before c = true := by
  cases a <;> cases b <;> cases c
  case name.name.name =>
    exact decide_eq_true (String.lt_trans (of_decide_eq_true hfirst) (of_decide_eq_true hsecond))
  all_goals simp_all [Part.before, Part.rank]

/-- Any two parts can be compared. -/
theorem Part.before_or_eq_or_before (a b : Part) :
    a.before b = true ∨ a = b ∨ b.before a = true := by
  cases a <;> cases b
  case name.name first second =>
    by_cases hless : first < second
    · exact .inl (decide_eq_true hless)
    · by_cases hequal : first = second
      · exact .inr (.inl (congrArg Part.name hequal))
      · have hgreater := Std.lt_of_le_of_ne (String.not_lt.1 hless) (Ne.symm hequal)
        exact .inr (.inr (decide_eq_true hgreater))
  all_goals simp [Part.before, Part.rank]

/-- By induction on the three lists. -/
theorem partsLe_trans {a b c : List Part} (hfirst : partsLe a b = true)
    (hsecond : partsLe b c = true) : partsLe a c = true := by
  induction a generalizing b c with
  | nil => rfl
  | cons x xs ih =>
    cases b with
    | nil => simp [partsLe] at hfirst
    | cons y ys =>
      cases c with
      | nil => simp [partsLe] at hsecond
      | cons z zs =>
        simp only [partsLe, Bool.or_eq_true, Bool.and_eq_true, beq_iff_eq] at *
        rcases hfirst with hbefore | ⟨rfl, hrest⟩
        · rcases hsecond with hafter | ⟨rfl, _⟩
          · exact .inl (Part.before_trans hbefore hafter)
          · exact .inl hbefore
        · rcases hsecond with hafter | ⟨rfl, hrest'⟩
          · exact .inl hafter
          · exact .inr ⟨rfl, ih hrest hrest'⟩

/-- By induction on the two lists. -/
theorem partsLe_total (a b : List Part) : partsLe a b = true ∨ partsLe b a = true := by
  induction a generalizing b with
  | nil => exact .inl rfl
  | cons x xs ih =>
    cases b with
    | nil => exact .inr rfl
    | cons y ys =>
      simp only [partsLe, Bool.or_eq_true, Bool.and_eq_true, beq_iff_eq]
      rcases Part.before_or_eq_or_before x y with hbefore | rfl | hafter
      · exact .inl (.inl hbefore)
      · rcases ih ys with hle | hge
        · exact .inl (.inr ⟨rfl, hle⟩)
        · exact .inr (.inr ⟨rfl, hge⟩)
      · exact .inr (.inl hafter)

/-- No part comes before and behind another. -/
theorem Part.not_before_of_before {a b : Part} (h : a.before b = true) : b.before a = false := by
  cases a <;> cases b
  case name.name first second =>
    exact decide_eq_false (String.lt_asymm (of_decide_eq_true h))
  all_goals simp_all [Part.before, Part.rank]

theorem Part.not_before_self (a : Part) : a.before a = false := by
  cases a with
  | name text => exact decide_eq_false (String.lt_irrefl text)
  | root | here | parent => rfl

/-- Two paths that do not come behind each other have the same parts. They may still be spelled in
different ways. -/
theorem partsLe_antisymm {a b : List Part} (hfirst : partsLe a b = true)
    (hsecond : partsLe b a = true) : a = b := by
  induction a generalizing b with
  | nil =>
    cases b with
    | nil => rfl
    | cons y ys => simp [partsLe] at hsecond
  | cons x xs ih =>
    cases b with
    | nil => simp [partsLe] at hfirst
    | cons y ys =>
      simp only [partsLe, Bool.or_eq_true, Bool.and_eq_true, beq_iff_eq] at hfirst hsecond
      rcases hfirst with hbefore | ⟨rfl, hrest⟩
      · rcases hsecond with hafter | ⟨rfl, -⟩
        · rw [Part.not_before_of_before hbefore] at hafter
          cases hafter
        · rw [Part.not_before_self] at hbefore
          cases hbefore
      · rcases hsecond with hafter | ⟨-, hrest'⟩
        · rw [Part.not_before_self] at hafter
          cases hafter
        · rw [ih hrest hrest']

/-- The order of paths is that of their parts. -/
theorem le_trans {a b c : String} (hfirst : le a b = true) (hsecond : le b c = true) :
    le a c = true :=
  partsLe_trans hfirst hsecond

theorem le_total (a b : String) : (le a b || le b a) = true := by
  rw [Bool.or_eq_true]
  exact partsLe_total _ _

end VueSetup.Path

namespace VueSetup.Batch

/-! ### The order of a selection

Sorted paths with the same parts stand next to each other, so that to drop what repeats the path
before leaves one of each. -/

/-- Nothing is put in another place. -/
theorem dropRepeated_sublist (paths : List String) : (dropRepeated paths).Sublist paths := by
  fun_induction dropRepeated paths with
  | case1 => exact .slnil
  | case2 path => exact .refl _
  | case3 a b rest hsame ih =>
    exact ih.trans ((List.sublist_cons_self b rest).cons_cons a)
  | case4 a b rest hdifferent ih => exact ih.cons_cons a

/-- In a list in order no two paths with the same parts are left. -/
theorem pairwise_dropRepeated {paths : List String}
    (hsorted : paths.Pairwise fun a b => Path.le a b = true) :
    (dropRepeated paths).Pairwise fun a b => Path.parts a ≠ Path.parts b := by
  fun_induction dropRepeated paths with
  | case1 => exact .nil
  | case2 path => exact List.pairwise_singleton ..
  | case3 a b rest hsame ih =>
    rw [List.pairwise_cons, List.pairwise_cons] at hsorted
    apply ih
    exact List.pairwise_cons.2
      ⟨fun other hmem => hsorted.1 other (List.mem_cons_of_mem _ hmem), hsorted.2.2⟩
  | case4 a b rest hdifferent ih =>
    rw [List.pairwise_cons] at hsorted
    refine List.pairwise_cons.2 ⟨fun other hmem hequal => ?_, ih hsorted.2⟩
    -- `b` stands between `a` and the other path, so that it would have their parts too
    have hbefore : Path.partsLe (Path.parts a) (Path.parts b) = true :=
      hsorted.1 b List.mem_cons_self
    have hbehind : Path.partsLe (Path.parts b) (Path.parts other) = true := by
      rcases List.mem_cons.1 ((dropRepeated_sublist _).subset hmem) with rfl | hmem
      · exact (Path.partsLe_total _ _).elim id id
      · exact (List.pairwise_cons.1 hsorted.2).1 other hmem
    rw [← hequal] at hbehind
    exact hdifferent (beq_iff_eq.2 (Path.partsLe_antisymm hbefore hbehind))

/-- No two selected paths have the same parts. -/
theorem pairwise_parts_selectFiles (t : Tree) (patterns : List String) :
    (selectFiles t patterns).Pairwise fun a b => Path.parts a ≠ Path.parts b :=
  pairwise_dropRepeated (@List.pairwise_mergeSort String Path.le (fun _ _ _ => Path.le_trans)
    Path.le_total (patterns.flatMap (Pattern.paths t)))

/-- Of paths with the same parts one stays. -/
theorem exists_mem_dropRepeated {paths : List String} {path : String} (hmem : path ∈ paths) :
    ∃ kept ∈ dropRepeated paths, Path.parts kept = Path.parts path := by
  fun_induction dropRepeated paths generalizing path with
  | case1 => cases hmem
  | case2 other => exact ⟨path, hmem, rfl⟩
  | case3 a b rest hsame ih =>
    rcases List.mem_cons.1 hmem with rfl | hmem
    · exact ih List.mem_cons_self
    · rcases List.mem_cons.1 hmem with rfl | hmem
      · obtain ⟨kept, hmemkept, hequal⟩ := ih List.mem_cons_self
        exact ⟨kept, hmemkept, hequal.trans (beq_iff_eq.1 hsame)⟩
      · exact ih (List.mem_cons_of_mem _ hmem)
  | case4 a b rest hdifferent ih =>
    rcases List.mem_cons.1 hmem with rfl | hmem
    · exact ⟨path, List.mem_cons_self, rfl⟩
    · obtain ⟨kept, hmemkept, hequal⟩ := ih hmem
      exact ⟨kept, List.mem_cons_of_mem _ hmemkept, hequal⟩

/-- A selected path was found by one of the patterns. -/
theorem exists_of_mem_selectFiles {t : Tree} {patterns : List String} {path : String}
    (hmem : path ∈ selectFiles t patterns) : ∃ pattern ∈ patterns, path ∈ Pattern.paths t pattern :=
  List.mem_flatMap.1 (List.mem_mergeSort.1 ((dropRepeated_sublist _).subset hmem))

/-- With one pattern everything selected is meant by it. -/
theorem mem_paths_of_mem_selectFiles {t : Tree} {pattern path : String}
    (hmem : path ∈ selectFiles t [pattern]) : path ∈ Pattern.paths t pattern := by
  obtain ⟨other, hpattern, hfound⟩ := exists_of_mem_selectFiles hmem
  rwa [List.mem_singleton.1 hpattern] at hfound

/-- Selected paths come in order. -/
theorem pairwise_selectFiles (t : Tree) (patterns : List String) :
    (selectFiles t patterns).Pairwise fun a b => Path.le a b = true := by
  have hsorted := @List.pairwise_mergeSort String Path.le (fun _ _ _ => Path.le_trans) Path.le_total
    (patterns.flatMap (Pattern.paths t))
  exact hsorted.sublist (dropRepeated_sublist _)

end VueSetup.Batch
