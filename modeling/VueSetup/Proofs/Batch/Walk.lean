import VueSetup.Proofs.Batch.Tree
import VueSetup.Proofs.Path

/-!
# VueSetup.Proofs.Batch.Walk

Where the paths lead that a walk finds.

A tree is **well-formed** if it is one that a file system can hold: names are proper names, and a
file is no directory. In such a tree a walk from a root finds paths that go on from the root by
names, and each of them leads to the place of these names below the place of the root
(`exists_of_mem_walk`).
-/

namespace VueSetup.Batch.Tree

variable {t : Tree} {names way : List String} {path root : String}

/-- Files have proper names, and nothing lies below a file. -/
structure WellFormed (t : Tree) : Prop where
  names_ne_nil : ∀ f ∈ t.files, f.1 ≠ []
  isName : ∀ f ∈ t.files, ∀ name ∈ f.1, Path.isName name = true
  eq_of_prefix : ∀ f ∈ t.files, ∀ g ∈ t.files, f.1 <+: g.1 → f.1 = g.1

instance (t : Tree) : Decidable t.WellFormed :=
  decidable_of_iff ((∀ f ∈ t.files, f.1 ≠ []) ∧
      (∀ f ∈ t.files, ∀ name ∈ f.1, Path.isName name = true) ∧
      ∀ f ∈ t.files, ∀ g ∈ t.files, f.1 <+: g.1 → f.1 = g.1)
    ⟨fun h => ⟨h.1, h.2.1, h.2.2⟩, fun h => ⟨h.names_ne_nil, h.isName, h.eq_of_prefix⟩⟩

/-! ### What names lead to

A tree is a list of files by their names, and directories are what files lie in. In a well-formed
tree the two do not meet. -/

/-- What is looked up is one of the files. -/
theorem exists_of_lookup {content : Content} (h : t.files.lookup names = some content) :
    ∃ f ∈ t.files, f.1 = names := by
  obtain ⟨before, behind, hfiles, -⟩ := List.lookup_eq_some_iff.mp h
  exact ⟨(names, content), by simp [hfiles], rfl⟩

/-- What has a file below it is a directory. -/
theorem WellFormed.entry?_of_prefix (hwf : t.WellFormed) {f : List String × Content}
    (hmem : f ∈ t.files) (h : names <+: f.1) (hne : names ≠ f.1) :
    t.entry? names = some .directory := by
  have hmissing : t.files.lookup names = none := by
    cases hfound : t.files.lookup names with
    | none => rfl
    | some content =>
      obtain ⟨g, hmemG, rfl⟩ := exists_of_lookup hfound
      exact absurd (hwf.eq_of_prefix g hmemG f hmem h) hne
  have hinside : (t.files.any fun f => names.isPrefixOf f.1) = true :=
    List.any_eq_true.mpr ⟨f, hmem, List.isPrefixOf_iff_prefix.mpr h⟩
  simp [ entry?, hmissing, hinside]

/-- The tree itself is a directory. -/
theorem WellFormed.entry?_nil (hwf : t.WellFormed) : t.entry? [] = some .directory := by
  have hmissing : t.files.lookup [] = none := by
    cases hfound : t.files.lookup [] with
    | none => rfl
    | some content =>
      obtain ⟨f, hmem, hempty⟩ := exists_of_lookup hfound
      exact absurd hempty (hwf.names_ne_nil f hmem)
  simp [ entry?, hmissing]

/-- Names that lead to something are the beginning of those of a file. -/
theorem exists_file_of_entry? {entry : Entry} (h : t.entry? names = some entry) (hne : names ≠ []) :
    ∃ f ∈ t.files, names <+: f.1 := by
  unfold entry? at h
  split at h
  · next hfound =>
    obtain ⟨f, hmem, rfl⟩ := exists_of_lookup hfound
    exact ⟨f, hmem, List.prefix_refl _⟩
  · split at h
    · next hinside =>
      simp only [List.isEmpty_iff, hne, Bool.or_eq_true, false_or, List.any_eq_true,
        List.isPrefixOf_iff_prefix] at hinside
      exact hinside
    · cases h

/-- What lies below names does not have the same names. -/
theorem ne_of_prefix_append {file : List String} (hne : way ≠ []) (h : names ++ way <+: file) :
    names ≠ file := by
  rintro rfl
  have hlength := h.length_le
  have hlonger := List.length_pos_iff.mpr hne
  rw [List.length_append] at hlength
  omega

/-! ### Following parts

A path is followed part by part from some place. Dots stay, double dots go up, and names go down
through directories. -/

/-- Parts are followed in two stretches. -/
theorem follow?_append (start : List String) (first second : List Path.Part) :
    t.follow? start (first ++ second) = (t.follow? start first).bind (t.follow? · second) := by
  induction first generalizing start with
  | nil => rfl
  | cons part rest ih =>
    rw [List.cons_append]
    simp only [follow?]
    by_cases hdirectory : t.entry? start = some .directory
    · simp only [hdirectory, if_true]
      cases part with
      | root => rfl
      | here => exact ih start
      | parent => by_cases htop : start.isEmpty = true <;> simp [htop, ih]
      | name text => exact ih (start ++ [text])
    · simp [hdirectory]

/-- Names lead where they say, down to a file. -/
theorem WellFormed.follow?_names (hwf : t.WellFormed) {f : List String × Content}
    (hmem : f ∈ t.files)
    (h : names ++ way <+: f.1) : t.follow? names (way.map .name) = some (names ++ way) := by
  induction way generalizing names with
  | nil => simp [follow?]
  | cons name way ih =>
    have hlonger : names ++ [name] ++ way <+: f.1 := by simpa using h
    have hdirectory : t.entry? names = some .directory :=
      hwf.entry?_of_prefix hmem ((List.prefix_append names _).trans h)
        (ne_of_prefix_append (List.cons_ne_nil _ _) h)
    rw [List.map_cons]
    simp only [follow?, hdirectory, if_true]
    rw [ih hlonger, List.append_assoc]
    rfl

/-- Followed names are added to the place. -/
theorem eq_append_of_follow? {place : List String}
    (h : t.follow? names (way.map .name) = some place) : place = names ++ way := by
  induction way generalizing names with
  | nil => simpa [follow?] using h.symm
  | cons name way ih =>
    simp only [List.map_cons, follow?] at h
    split at h
    · simpa using ih h
    · cases h

/-! ### Finding paths

The steps before the last one are followed through directories, and what is found at the end may be
a file or a directory. -/

/-- A path is found if it is not empty, its parts lead somewhere, and something is there. With a
slash at its end it has to be a directory. -/
theorem find?_eq_some_iff {entry : Entry} :
    t.find? path = some (names, entry) ↔ path ≠ "" ∧ t.follow? [] (Path.parts path) = some names ∧
      t.entry? names = some entry ∧ (meansDirectory path = true → entry = .directory) := by
  unfold find?
  by_cases hempty : path = ""
  · simp [hempty]
  · have hnonempty : path.isEmpty = false := by simpa using hempty
    simp only [hnonempty, Bool.false_eq_true, if_false, ne_eq, hempty, not_false_eq_true, true_and]
    cases t.follow? [] (Path.parts path) with
    | none => simp
    | some place =>
      cases hfound : t.entry? place with
      | none => simp [hfound]; grind
      | some other =>
        by_cases hmeans : meansDirectory path = true <;>
          by_cases hdirectory : other = .directory <;>
          simp [hfound, hmeans, hdirectory] <;> grind

/-- The names of a path are those of what is found. -/
theorem names?_eq_some_iff : t.names? path = some names ↔
    ∃ entry, t.find? path = some (names, entry) := by
  simp only [names?, Option.map_eq_some_iff, Prod.exists, exists_and_right, exists_eq_right]

/-- The steps of a path lead where the path leads. -/
theorem WellFormed.follow?_steps (hwf : t.WellFormed) (h : t.names? path = some names) :
    t.follow? [] (Path.steps path.toList) = some names := by
  obtain ⟨entry, hfound⟩ := names?_eq_some_iff.mp h
  have hfollowed := (find?_eq_some_iff.mp hfound).2.1
  rcases Path.parts_eq path with heq | heq | heq
  · rwa [heq] at hfollowed
  · rw [heq] at hfollowed
    simpa only [follow?, hwf.entry?_nil, if_true] using hfollowed
  · rw [heq] at hfollowed
    simp [follow?] at hfollowed

/-- The plain path of a directory leads to it. -/
theorem WellFormed.find?_plain (hwf : t.WellFormed) {f : List String × Content} (hmem : f ∈ t.files)
    (h : names <+: f.1) (hne : names ≠ f.1) (dotted : Bool) :
    t.find? (Path.plain dotted names) = some (names, .directory) := by
  have hname : ∀ name ∈ names, Path.isName name = true := fun name hinside =>
    hwf.isName f hmem name (h.subset hinside)
  have hfollowed : t.follow? [] (names.map .name) = some names :=
    hwf.follow?_names hmem (show [] ++ names <+: f.1 from h)
  refine find?_eq_some_iff.mpr ⟨Path.plain_ne_empty hname dotted, ?_,
    hwf.entry?_of_prefix hmem h hne, fun _ => rfl⟩
  rw [Path.parts_plain hname]
  split
  · simpa only [List.singleton_append, follow?, hwf.entry?_nil, if_true] using hfollowed
  · exact hfollowed

/-- A file has a last name, and the names before it are those of a directory. -/
theorem WellFormed.exists_concat_of_file (hwf : t.WellFormed) {content : Content}
    (h : t.entry? names = some (.file content)) :
    ∃ front last, names = front ++ [last] ∧ (∀ name ∈ names, Path.isName name = true) ∧
      ∀ dotted, t.find? (Path.plain dotted front) = some (front, .directory) := by
  have hne : names ≠ [] := by
    rintro rfl
    rw [hwf.entry?_nil] at h
    cases h
  obtain ⟨f, hmem, hbegins⟩ := exists_file_of_entry? h hne
  have hname : ∀ name ∈ names, Path.isName name = true := fun name hinside =>
    hwf.isName f hmem name (hbegins.subset hinside)
  obtain ⟨front, last, rfl⟩ := (List.eq_nil_or_concat names).resolve_left hne
  rw [List.concat_eq_append] at hbegins hname ⊢
  have hshorter : front ≠ f.1 := ne_of_prefix_append (List.cons_ne_nil _ _) hbegins
  exact ⟨front, last, rfl, hname,
    hwf.find?_plain hmem ((List.prefix_append front [last]).trans hbegins) hshorter⟩

/-! ### Walking

The walk lists what lies below a place, by names that are joined to the root. Hidden names are left
out with everything below them. -/

/-- Behind a joined name no directory needs to be meant. -/
theorem meansDirectory_foldl_join (hne : way ≠ []) (h : ∀ name ∈ way, Path.isName name = true) :
    meansDirectory (way.foldl Path.join root) = false := by
  obtain ⟨front, name, rfl⟩ := (List.eq_nil_or_concat way).resolve_left hne
  have hname := h name (by simp)
  rw [List.concat_eq_append, List.foldl_append, List.foldl_cons, List.foldl_nil, meansDirectory,
    Path.getLast?_segments_join hname]
  split
  · next heq => exact absurd (Option.some.inj heq) (Path.toList_ne_nil_of_isName hname)
  · next heq =>
    have hdot := Path.ofSegment?_of_isName hname false
    rw [Option.some.inj heq] at hdot
    cases hdot
  · rfl

/-- The beginnings of names, the empty one apart. -/
theorem mem_beginnings : way ∈ beginnings names ↔ way ≠ [] ∧ way <+: names := by
  induction names generalizing way with
  | nil =>
    simp only [beginnings, List.not_mem_nil, List.prefix_nil, false_iff, not_and]
    exact id
  | cons name names ih =>
    cases way with
    | nil => simp [beginnings]
    | cons first rest =>
      simp only [beginnings, List.mem_cons, List.cons.injEq, List.mem_map, ih, ne_eq,
        List.cons_prefix_cons, reduceCtorEq, not_false_eq_true, true_and]
      constructor
      · rintro (⟨rfl, rfl⟩ | ⟨other, ⟨-, hbegins⟩, rfl, rfl⟩)
        · exact ⟨rfl, List.nil_prefix⟩
        · exact ⟨rfl, hbegins⟩
      · rintro ⟨rfl, hbegins⟩
        by_cases hempty : rest = []
        · exact .inl ⟨rfl, hempty⟩
        · exact .inr ⟨rest, ⟨hempty, hbegins⟩, rfl, rfl⟩

/-- Below a place is what files lie in or are, unless something on the way is hidden. -/
theorem mem_below : way ∈ t.below names ↔
    way ≠ [] ∧ (∀ name ∈ way, isHidden name = false) ∧ ∃ f ∈ t.files, names ++ way <+: f.1 := by
  have hinFile : ∀ f : List String × Content,
      way ∈ (if names.isPrefixOf f.1 then beginnings (f.1.drop names.length) else []) ↔
        way ≠ [] ∧ names ++ way <+: f.1 := by
    intro f
    by_cases hbegins : names <+: f.1
    · obtain ⟨rest, heq⟩ := hbegins
      simp [← heq, mem_beginnings, List.prefix_append_right_inj]
    · have hlonger : ¬ names ++ way <+: f.1 := fun h => hbegins ((List.prefix_append _ _).trans h)
      simp [hbegins, hlonger]
  simp only [below, List.mem_filter, List.mem_flatMap, hinFile, Bool.not_eq_true',
    List.any_eq_false, Bool.not_eq_true]
  grind

/-- What lies below a place has a last name, which is not hidden. -/
theorem exists_concat_of_mem_below (h : way ∈ t.below names) :
    ∃ front last, way = front ++ [last] ∧ isHidden last = false := by
  obtain ⟨hne, hshown, -⟩ := mem_below.mp h
  obtain ⟨front, last, rfl⟩ := (List.eq_nil_or_concat way).resolve_left hne
  exact ⟨front, last, List.concat_eq_append, hshown last (by simp)⟩

/-- What lies below the root is found by joining. -/
theorem mem_walk_of_mem_below (hfound : t.find? root = some (names, .directory))
    (h : way ∈ t.below names) : way.foldl Path.join root ∈ t.walk root := by
  simp only [walk, hfound, List.mem_cons, List.mem_map]
  exact .inr ⟨way, h, rfl⟩

/-- What a walk finds: a path that goes on from the root by names. -/
structure Walked (t : Tree) (root path : String) (names way : List String) : Prop where
  names?_root : t.names? root = some names
  path_eq : path = way.foldl Path.join root
  isName : ∀ name ∈ way, Path.isName name = true
  names?_path : t.names? path = some (names ++ way)
  below : way = [] ∨ way ∈ t.below names

/-- The root of a walk is not the empty path. -/
theorem Walked.root_ne_empty (h : t.Walked root path names way) : root ≠ "" := by
  obtain ⟨entry, hfound⟩ := names?_eq_some_iff.mp h.names?_root
  exact (find?_eq_some_iff.mp hfound).1

/-- The names of the walk are added to the parts of the root. -/
theorem Walked.parts_eq (h : t.Walked root path names way) :
    Path.parts path = Path.parts root ++ way.map .name := by
  rw [h.path_eq, Path.parts_foldl_join h.isName h.root_ne_empty]

/-- The names that a walk goes on by are names of files or of directories of files. -/
theorem Walked.exists_file_of_mem (h : t.Walked root path names way) {name : String}
    (hmem : name ∈ way) : ∃ f ∈ t.files, name ∈ f.1 := by
  rcases h.below with rfl | hbelow
  · cases hmem
  · obtain ⟨-, -, f, hmemF, hbegins⟩ := mem_below.mp hbelow
    exact ⟨f, hmemF, hbegins.subset (List.mem_append_right _ hmem)⟩

/-- What is not hidden has the extension that its name ends with. -/
theorem Walked.extension?_iff {last : String} (h : t.Walked root path names (way ++ [last]))
    (hshown : isHidden last = false) :
    Path.extension? path = some "vue" ↔ ".vue".toList <:+ last.toList := by
  have hended : Path.parts path = (Path.parts root ++ way.map .name) ++ [.name last] := by
    simpa using h.parts_eq
  rw [Path.extension?_eq_vue_iff hended]
  constructor
  · rintro ⟨stem, -, hwhole⟩
    exact ⟨stem, hwhole.symm⟩
  · rintro ⟨stem, hwhole⟩
    refine ⟨stem, ?_, hwhole.symm⟩
    rintro rfl
    simp [isHidden, ← hwhole] at hshown

/-- Names below a directory, joined to a path of it, lead to where they were found. -/
theorem WellFormed.walked_of_mem_below (hwf : t.WellFormed)
    (hfound : t.find? root = some (names, .directory)) (hmem : way ∈ t.below names) :
    t.Walked root (way.foldl Path.join root) names way := by
  obtain ⟨hne, -, f, hmemF, hbegins⟩ := mem_below.mp hmem
  obtain ⟨hnonempty, hfollowed, -, -⟩ := find?_eq_some_iff.mp hfound
  have hname : ∀ name ∈ way, Path.isName name = true := by
    intro name hmemname
    exact hwf.isName f hmemF name (hbegins.subset (List.mem_append_right _ hmemname))
  have hleads : t.follow? [] (Path.parts (way.foldl Path.join root)) = some (names ++ way) := by
    rw [Path.parts_foldl_join hname hnonempty, follow?_append, hfollowed, Option.bind_some,
      hwf.follow?_names hmemF hbegins]
  have hentry' : ∃ entry, t.entry? (names ++ way) = some entry := by
    by_cases hwhole : names ++ way = f.1
    · cases hfound : t.files.lookup (names ++ way) with
      | some content => exact ⟨_, by rw [ entry?, hfound]⟩
      | none =>
        rw [hwhole, List.lookup_eq_none_iff] at hfound
        simpa using hfound f hmemF
    · exact ⟨_, hwf.entry?_of_prefix hmemF hbegins hwhole⟩
  obtain ⟨entry, hentry⟩ := hentry'
  refine ⟨names?_eq_some_iff.mpr ⟨_, hfound⟩, rfl, hname, ?_, .inr hmem⟩
  refine names?_eq_some_iff.mpr ⟨entry, find?_eq_some_iff.mpr
    ⟨Path.foldl_join_ne_empty way hnonempty, hleads, hentry, fun hmeans => ?_⟩⟩
  rw [meansDirectory_foldl_join hne hname] at hmeans
  cases hmeans

/-- Every path of a walk is one that goes on from the root by names. -/
theorem WellFormed.exists_of_mem_walk (hwf : t.WellFormed) (hmem : path ∈ t.walk root) :
    ∃ names way, t.Walked root path names way := by
  unfold walk at hmem
  split at hmem
  · cases hmem
  · next names content hfound =>
    obtain rfl := List.mem_singleton.mp hmem
    have hhere := names?_eq_some_iff.mpr ⟨_, hfound⟩
    exact ⟨names, [], hhere, rfl, by simp, by simpa using hhere, .inl rfl⟩
  · next names hfound =>
    rcases List.mem_cons.mp hmem with rfl | hmem
    · have hhere := names?_eq_some_iff.mpr ⟨_, hfound⟩
      exact ⟨names, [], hhere, rfl, by simp, by simpa using hhere, .inl rfl⟩
    · obtain ⟨way, hmemway, rfl⟩ := List.mem_map.mp hmem
      exact ⟨names, way, hwf.walked_of_mem_below hfound hmemway⟩

end VueSetup.Batch.Tree
