import VueSetup.Proofs.Batch.Distinct
import VueSetup.Proofs.Batch.Schedule

/-!
# VueSetup.Proofs.Batch.Named

A pattern that is the path of a component.

Such a pattern starts at the directory of the component and means every path below it that ends with
the pattern. So besides the component it means its **namesakes**: what lies deeper, by names that
end with all names of the component again.
-/

namespace VueSetup.Batch

open VueSetup.Path (Part steps)

/-! ### Namesakes

They are told by the names of a file alone, without a pattern and without a walk, so that they can
stand on the other side of the statement. -/

/-- The places below the directory of a file that end with all names of the file. -/
def Tree.namesakes (t : Tree) (names : List String) : List (List String) :=
  ((t.below names.dropLast).map (names.dropLast ++ ·)).filter names.isSuffixOf

/-- A place is a namesake if it ends with all names of the file and lies below its directory. -/
theorem Tree.mem_namesakes {t : Tree} {names place : List String} : place ∈ t.namesakes names ↔
    names <:+ place ∧ ∃ way ∈ t.below names.dropLast, names.dropLast ++ way = place := by
  simp only [namesakes, List.mem_filter, List.mem_map, List.isSuffixOf_iff_suffix]
  exact And.comm

/-! ### Steps of a pattern

The pattern of a file is compared with paths as a text, from its end. Texts that end alike have
steps that end alike, which is what the places of a tree can be compared by. -/

namespace Pattern

/-- A dot at the start makes no step. -/
theorem steps_trimHere (cs : List Char) : steps (trimHere cs) = steps cs := by
  fun_induction trimHere cs with
  | case1 cs ih =>
    have hapart : '.' :: '/' :: cs = ['.'] ++ '/' :: cs := rfl
    rw [ih, hapart, Path.steps_append, Path.steps_dot, List.nil_append]
  | case2 cs => rfl

/-- Without backslashes nothing is turned. -/
theorem forwardSlashes_eq {cs : List Char} (h : '\\' ∉ cs) : forwardSlashes cs = cs := by
  unfold forwardSlashes
  refine (List.map_congr_left fun c hmem => ?_).trans (List.map_id cs)
  have hne : c ≠ '\\' := fun hequal => h (hequal ▸ hmem)
  simp [hne]

/-- A text is not found where one of its characters is missing. -/
theorem before?_eq_none {needle : List Char} {c : Char} (hmem : c ∈ needle) {cs : List Char}
    (h : c ∉ cs) : before? needle cs = none := by
  induction cs with
  | nil =>
    have hne : needle ≠ [] := List.ne_nil_of_mem hmem
    simp [before?, hne]
  | cons d cs ih =>
    have hrest : c ∉ cs := fun hinside => h (List.mem_cons_of_mem _ hinside)
    have hnoPrefix : needle.isPrefixOf (d :: cs) = false := by
      rw [Bool.eq_false_iff, ne_eq, List.isPrefixOf_iff_prefix]
      intro hbegins
      exact h (hbegins.subset hmem)
    simp [before?, hnoPrefix, ih hrest]

/-- No character of the text is a wildcard. -/
def isFixed (cs : List Char) : Bool :=
  cs.all fun c => !isWildcard c

/-- A fixed text, character by character. -/
theorem isFixed_iff {cs : List Char} : isFixed cs = true ↔ ∀ c ∈ cs, isWildcard c = false := by
  simp [isFixed]

/-- A pattern without wildcards that ends like a component means the paths that end with it. -/
theorem selects_eq {pattern path : String} (hfixed : isFixed pattern.toList = true)
    (hvue : ".vue".toList <:+ pattern.toList) :
    selects pattern path =
      let name := trimHere (forwardSlashes pattern.toList)
      (trimHere (forwardSlashes path.toList) == name ||
        ('/' :: name).isSuffixOf (forwardSlashes path.toList)) := by
  have hstar : '*' ∉ pattern.toList := fun hmem =>
    absurd (isFixed_iff.mp hfixed '*' hmem) (by decide)
  have hfirst : pattern ≠ "./**/*.vue" := by
    rintro rfl
    exact hstar (by decide)
  have hsecond : pattern ≠ "**/*.vue" := by
    rintro rfl
    exact hstar (by decide)
  have hnone := @before?_eq_none "**/*.vue".toList '*' (by decide) _ hstar
  simp only [selects, hfirst, hsecond, hnone, List.isSuffixOf_iff_suffix.mpr hvue, decide_false,
    Bool.or_self, Bool.false_eq_true, if_false, if_true]

/-- The steps of such a pattern are the last ones of each path that it means. -/
theorem steps_suffix_of_selects {pattern path : String}
    (hfixed : isFixed pattern.toList = true)
    (hvue : ".vue".toList <:+ pattern.toList) (hslashes : '\\' ∉ pattern.toList)
    (hslashes' : '\\' ∉ path.toList) (h : selects pattern path = true) :
    steps pattern.toList <:+ steps path.toList := by
  simp only [selects_eq hfixed hvue, forwardSlashes_eq hslashes, forwardSlashes_eq hslashes',
    Bool.or_eq_true, beq_iff_eq, List.isSuffixOf_iff_suffix] at h
  rcases h with hsame | ⟨front, hbehind⟩
  · have hequal : steps path.toList = steps pattern.toList := by
      rw [← steps_trimHere path.toList, hsame, steps_trimHere]
    exact hequal ▸ List.suffix_refl _
  · rw [← hbehind, Path.steps_append, steps_trimHere]
    exact List.suffix_append _ _

end Pattern

/-! ### Where the pattern starts

The walk starts at the directory of the file, or at the current one if the pattern has no slash. -/

namespace Pattern

variable {t : Tree} {pattern : String} {names : List String} {content : Content}

/-- The directory of the file that a pattern names. -/
def parent (pattern : String) : String :=
  if (Path.directory pattern).isEmpty then "." else Path.directory pattern

/-- The pattern of a file is known by the file being there. -/
theorem read_of_file (hfound : t.find? pattern = some (names, .file content))
    (hfixed : isFixed pattern.toList = true)
    (hvue : ".vue".toList <:+ pattern.toList) : read t pattern = ⟨parent pattern, pattern⟩ := by
  have hwildcards : pattern.toList.any isWildcard = false := by simpa [isFixed] using hfixed
  have hnoDirectory : t.isDirectory pattern = false := by simp [Tree.isDirectory, hfound]
  have hfile : t.isFile pattern = true := by simp [Tree.isFile, hfound]
  simp only [read, hwildcards, hnoDirectory, hfile, List.isSuffixOf_iff_suffix.mpr hvue, parent,
    Bool.false_eq_true, if_false, Bool.and_self, if_true]

/-- A dot for the current directory makes no step. -/
theorem steps_parent (pattern : String) :
    steps (parent pattern).toList = steps (Path.directory pattern).toList := by
  unfold parent
  split
  · next hempty =>
    rw [String.isEmpty_iff.mp hempty]
    rfl
  · rfl

/-- The directory is made of characters of the pattern, and perhaps a dot. -/
theorem parent_subset {c : Char} (hdot : c ≠ '.') (h : c ∉ pattern.toList) :
    c ∉ (parent pattern).toList := by
  unfold parent
  split
  · simpa using hdot
  · exact fun hmem => h (Path.directory_subset pattern hmem)

/-- The last step of such a pattern is the name of the file. -/
theorem exists_name_of_file (hfound : t.find? pattern = some (names, .file content))
    (hvue : ".vue".toList <:+ pattern.toList) :
    ∃ name, Path.isName name = true ∧
      steps pattern.toList = steps (parent pattern).toList ++ [.name name] := by
  have hmeans : Tree.meansDirectory pattern = false := by
    cases hmeans : Tree.meansDirectory pattern with
    | false => rfl
    | true => cases (Tree.find?_eq_some_iff.mp hfound).2.2.2 hmeans
  rw [Tree.meansDirectory, Path.getLast?_segments] at hmeans
  have hdouble : Path.lastSegment pattern ≠ ['.', '.'] := by
    intro hdots
    have hends : ['.', '.'] <:+ pattern.toList := by
      rcases Path.eq_lastSegment_or pattern with ⟨hwhole, -⟩ | ⟨front, hwhole, -⟩
      · exact ⟨[], by simp [hwhole, hdots]⟩
      · exact ⟨front ++ ['/'], by simp [hwhole, hdots]⟩
    have hboth := List.suffix_of_suffix_length_le hends hvue (by decide)
    exact absurd hboth (by decide)
  have hpart : ∃ name, Part.ofSegment? false (Path.lastSegment pattern) = some (.name name) := by
    unfold Part.ofSegment?
    split
    · next hempty => simp [hempty] at hmeans
    · next hdot => simp [hdot] at hmeans
    · next hdots => exact absurd hdots hdouble
    · exact ⟨_, rfl⟩
  obtain ⟨name, hpart⟩ := hpart
  obtain ⟨hname, hsame⟩ := Path.isName_of_ofSegment? (Path.slash_notMem_lastSegment pattern) hpart
  refine ⟨name, hname, ?_⟩
  rw [Path.steps_directory, steps_parent, ← hsame, Path.steps_of_isName hname]

/-! ### What it means

A path that is meant ends with the steps of the pattern. In a tree its steps are the directory of
the file and names below it, so the place that it leads to ends with all names of the file. -/

/-- Neither the pattern nor the tree has backslashes, which are read as slashes. -/
def NoBackslash (t : Tree) (pattern : String) : Prop :=
  '\\' ∉ pattern.toList ∧ ∀ f ∈ t.files, ∀ name ∈ f.1, '\\' ∉ name.toList

/-- The paths of a walk have no backslashes either. -/
theorem NoBackslash.notMem_of_walked (h : NoBackslash t pattern) {path : String}
    {place way : List String} (hwalked : t.Walked (parent pattern) path place way) :
    '\\' ∉ path.toList := by
  rw [hwalked.path_eq]
  apply Path.notMem_foldl_join (by decide) _ (parent_subset (by decide) h.1)
  intro name hinWay
  obtain ⟨f, hmemF, hinside⟩ := hwalked.exists_file_of_mem hinWay
  exact h.2 f hmemF name hinside

/-- Steps that come back behind further names are names that come back, and the place they lead to
has them as its last names. -/
theorem suffix_of_steps {front : List Part} {place way : List String} {name : String}
    (hleads : t.follow? [] front = some place)
    (hsuffix : front ++ [.name name] <:+ front ++ way.map .name) :
    place ++ [name] <:+ place ++ way := by
  by_cases hnamed : ∀ part ∈ front, part.isNamed = true
  · obtain ⟨names, rfl⟩ := Path.exists_names hnamed
    obtain rfl : place = names := Tree.eq_append_of_follow? hleads
    have hmapped : (place ++ [name]).map Part.name <:+ (place ++ way).map Part.name := by
      simpa using hsuffix
    obtain ⟨again, hsuffix, hsame⟩ := List.suffix_map_iff.mp hmapped
    rwa [(List.map_inj_right fun _ _ => Part.name.inj).mp hsame]
  · have hunnamed : ∃ part ∈ front, part.isNamed = false := by simpa using hnamed
    have hsame := Path.eq_singleton_of_suffix hunnamed hsuffix
    exact hsame ▸ List.suffix_refl _

/-- The pattern of a component means paths of its namesakes only. -/
theorem exists_of_mem_paths (hwf : t.WellFormed)
    (hfound : t.find? pattern = some (names, .file content))
    (hfixed : isFixed pattern.toList = true)
    (hvue : ".vue".toList <:+ pattern.toList) (hslashes : NoBackslash t pattern) {path : String}
    (hmem : path ∈ paths t pattern) : ∃ place ∈ t.namesakes names, t.names? path = some place := by
  simp only [paths, read_of_file hfound hfixed hvue, List.mem_filter, Bool.and_eq_true] at hmem
  obtain ⟨hinWalk, -, hselected⟩ := hmem
  obtain ⟨place, way, hwalked⟩ := hwf.exists_of_mem_walk hinWalk
  obtain ⟨name, hname, hsteps⟩ := exists_name_of_file hfound hvue
  have hstart := hwf.follow?_steps hwalked.names?_root
  -- the component is found one step behind the root
  have hfollowed := hwf.follow?_steps (Tree.names?_eq_some_iff.mpr ⟨_, hfound⟩)
  rw [hsteps, Tree.follow?_append, hstart, Option.bind_some] at hfollowed
  obtain rfl : names = place ++ [name] :=
    Tree.eq_append_of_follow? (show t.follow? place ([name].map .name) = some names from hfollowed)
  have hsuffix :=
    steps_suffix_of_selects hfixed hvue hslashes.1 (hslashes.notMem_of_walked hwalked) hselected
  rw [hsteps, hwalked.path_eq, Path.steps_foldl_join hwalked.isName] at hsuffix
  have hlast := suffix_of_steps hstart hsuffix
  have hbelow : way ∈ t.below place := by
    apply hwalked.below.resolve_left
    rintro rfl
    have hlength := hlast.length_le
    rw [List.append_nil, List.length_append, List.length_singleton] at hlength
    omega
  have hnamesake : place ++ way ∈ t.namesakes (place ++ [name]) := by
    rw [Tree.mem_namesakes, List.dropLast_concat]
    exact ⟨hlast, way, hbelow, rfl⟩
  exact ⟨_, hnamesake, hwalked.names?_path⟩

end Pattern

/-! ### Plainly spelled patterns

With a plain spelling the paths that the walk finds are plain too, so that every namesake can be
shown to be meant: its path is the directory and names behind it, and ends with the pattern. -/

namespace Pattern

open VueSetup.Path (plain spell isName)

/-- A name does not start with `./`. -/
theorem trimHere_of_isName {name : String} (h : isName name = true) (rest : List Char) :
    trimHere (name.toList ++ rest) = name.toList ++ rest := by
  have hunslashed := Path.slash_notMem_of_isName h
  cases hchars : name.toList with
  | nil => exact absurd hchars (Path.toList_ne_nil_of_isName h)
  | cons c cs =>
    rw [hchars] at hunslashed
    rw [List.cons_append]
    unfold trimHere
    split
    · next heq =>
      cases cs with
      | nil =>
        obtain ⟨rfl, -⟩ := List.cons.inj heq
        simp [isName, hchars] at h
      | cons d cs => simp_all
    · rfl

/-- A plain path without the dot at its start, behind a slash. -/
theorem slash_trimHere_plain {names : List String} (h : ∀ name ∈ names, isName name = true)
    (hne : names ≠ []) (dotted : Bool) :
    '/' :: trimHere (plain dotted names).toList = spell names := by
  obtain ⟨name, rest, rfl⟩ := List.exists_cons_of_ne_nil hne
  have htrimmed := trimHere_of_isName (h name List.mem_cons_self) (spell rest)
  rw [Path.toList_plain h]
  split
  · rw [Path.spell_cons, List.cons_append, trimHere, htrimmed]
  · rw [Path.spell_cons, List.cons_append, List.drop_one, List.tail_cons, htrimmed]

/-- The directory of a plain path is plain. -/
theorem parent_plain {front : List String} {last : String}
    (h : ∀ name ∈ front ++ [last], isName name = true) (dotted : Bool) :
    parent (plain dotted (front ++ [last])) = plain dotted front := by
  have hnames : ∀ name ∈ front, isName name = true := fun name hmem => h name (by simp [hmem])
  have hlast := h last (by simp)
  rw [Path.plain_concat hnames]
  split
  · have hnonempty : (plain dotted front).isEmpty = false := by
      simpa using Path.plain_ne_empty hnames dotted
    rw [parent, Path.directory_plain hnames hlast, hnonempty]
    rfl
  · next hbare =>
    have halone : dotted = false ∧ front = [] := by simpa using hbare
    rw [parent, Path.directory_of_isName hlast, halone.1, halone.2]
    rfl

/-- A plain path that ends like a component ends with a name that does. -/
theorem vue_suffix_of_plain {front : List String} {last : String}
    (h : ∀ name ∈ front ++ [last], isName name = true) {dotted : Bool}
    (hvue : ".vue".toList <:+ (plain dotted (front ++ [last])).toList) :
    ".vue".toList <:+ last.toList := by
  rcases Path.exists_toList_plain h dotted with hwhole | ⟨before, hwhole⟩
  · rwa [hwhole] at hvue
  · rw [hwhole] at hvue
    have hbehind : '/' :: last.toList <:+ before ++ '/' :: last.toList := List.suffix_append _ _
    rcases List.suffix_or_suffix_of_suffix hvue hbehind with hinside | houtside
    · exact (List.suffix_cons_iff.mp hinside).resolve_left fun hsame => by
        have hslash : '/' ∈ ".vue".toList := by simp [hsame]
        exact absurd hslash (by decide)
    · exact absurd (houtside.subset List.mem_cons_self) (by decide)

/-- The path by which a walk from the directory of a component finds a namesake is meant. -/
theorem selects_plain {front names : List String} (h : ∀ name ∈ front ++ names, isName name = true)
    (hne : names ≠ []) {dotted : Bool} (dotted' : Bool)
    (hfixed : isFixed (plain dotted names).toList = true)
    (hvue : ".vue".toList <:+ (plain dotted names).toList)
    (hslashes : '\\' ∉ (plain dotted names).toList)
    (hslashes' : '\\' ∉ (plain dotted' (front ++ names)).toList) :
    selects (plain dotted names) (plain dotted' (front ++ names)) = true := by
  have hnames : ∀ name ∈ names, isName name = true := fun name hmem => h name (by simp [hmem])
  have htrimmed := slash_trimHere_plain hnames hne dotted
  simp only [selects_eq hfixed hvue, forwardSlashes_eq hslashes, forwardSlashes_eq hslashes',
    Bool.or_eq_true, beq_iff_eq, List.isSuffixOf_iff_suffix]
  cases front with
  | nil =>
    left
    have htrimmed' := slash_trimHere_plain hnames hne dotted'
    exact List.tail_eq_of_cons_eq (htrimmed'.trans htrimmed.symm)
  | cons name front =>
    right
    rw [htrimmed, Path.toList_plain h]
    split
    · exact ⟨'.' :: spell (name :: front), by simp⟩
    · exact ⟨(spell (name :: front)).drop 1, by simp⟩

/-- Where a component is named plainly, each of its namesakes is meant. -/
theorem exists_of_mem_namesakes {t : Tree} (hwf : t.WellFormed) {names : List String}
    {content : Content} {dotted : Bool}
    (hfound : t.find? (plain dotted names) = some (names, .file content))
    (hfixed : isFixed (plain dotted names).toList = true)
    (hvue : ".vue".toList <:+ (plain dotted names).toList)
    (hslashes : NoBackslash t (plain dotted names)) {place : List String}
    (hmem : place ∈ t.namesakes names) :
    ∃ path ∈ paths t (plain dotted names), t.names? path = some place := by
  obtain ⟨-, -, hfile, -⟩ := Tree.find?_eq_some_iff.mp hfound
  obtain ⟨front, last, rfl, hnames, habove⟩ := hwf.exists_concat_of_file hfile
  obtain ⟨⟨before, hwhole⟩, way, hbelow, rfl⟩ := Tree.mem_namesakes.mp hmem
  rw [List.dropLast_concat] at hbelow hwhole ⊢
  have hwalked := hwf.walked_of_mem_below (habove dotted) hbelow
  have hunslashed := hslashes.notMem_of_walked (by rwa [parent_plain hnames])
  -- behind what comes `before` them, the names of the component end the path once more
  have hspelled : way.foldl Path.join (plain dotted front) =
      plain (dotted || front.isEmpty) (before ++ (front ++ [last])) := by
    rw [Path.foldl_join_plain, hwhole]
  have hnames' : ∀ name ∈ before ++ (front ++ [last]), isName name = true := by
    rw [hwhole]
    intro name hinside
    rcases List.mem_append.mp hinside with hinFront | hinWay
    · exact hnames name (List.mem_append_left _ hinFront)
    · exact hwalked.isName name hinWay
  refine ⟨_, ?_, hwalked.names?_path⟩
  simp only [paths, read_of_file hfound hfixed hvue, parent_plain hnames, List.mem_filter,
    Bool.and_eq_true, beq_iff_eq]
  constructor
  · exact Tree.mem_walk_of_mem_below (habove dotted) hbelow
  constructor
  · obtain ⟨upTo, name, rfl, hshown⟩ := Tree.exists_concat_of_mem_below hbelow
    rw [← List.append_assoc, ← List.append_assoc] at hwhole
    obtain ⟨-, hsame⟩ := List.append_inj' hwhole rfl
    obtain rfl : last = name := by simpa using hsame
    exact (hwalked.extension?_iff hshown).mpr (vue_suffix_of_plain hnames hvue)
  · rw [hspelled] at hunslashed ⊢
    exact selects_plain hnames' (by simp) _ hfixed hvue hslashes.1 hunslashed

end Pattern

/-! ### Files of a run

A run touches the places of the selected paths only, whatever becomes of the files there. -/

section Run

variable {s : Settings} {options : Options} {t : Tree} {paths names : List String}

/-- What no path leads to is as it was. -/
theorem entry?_processFiles (h : ∀ path ∈ paths, t.names? path ≠ some names) :
    Tree.entry? (processFiles s options t paths).1 names = t.entry? names := by
  induction paths generalizing t with
  | nil => rfl
  | cons path paths ih =>
    simp only [processFiles, processFile_eq]
    cases statusIn s options t path with
    | none => rfl
    | some status =>
      simp only [Option.map_some]
      rw [ih, Status.entry?_store _ fun _ => h path List.mem_cons_self]
      intro other hmem
      rw [Status.names?_store]
      exact h other (List.mem_cons_of_mem _ hmem)

/-- What is not selected is as it was. -/
theorem entry?_run (h : ∀ path ∈ selectFiles t s.patterns, t.names? path ≠ some names) :
    Tree.entry? (run s t).tree names = t.entry? names := by
  have hkept := @entry?_processFiles s (s.options t) t _ names h
  unfold run runOn
  split
  · rfl
  · split
    · next hrun => rwa [hrun] at hkept
    · next hrun =>
      rw [hrun] at hkept
      cases s.format <;> exact hkept

end Run

/-- **A component by its path.** Let a pattern without wildcards be the path of a component. What it
selects are namesakes of the component, and a run on it leaves everything else as it was. Where the
pattern is spelled plainly, all namesakes are selected: the component is alone only if it has no
other namesake than itself. -/
theorem selectFiles_namesakes (t : Tree) (hwf : t.WellFormed) (pattern : String)
    (names : List String) (content : Content)
    (hfound : t.find? pattern = some (names, .file content))
    (hfixed : Pattern.isFixed pattern.toList = true)
    (hvue : ".vue".toList <:+ pattern.toList) (hslashes : Pattern.NoBackslash t pattern) :
    (∀ path ∈ selectFiles t [pattern], ∃ place ∈ t.namesakes names, t.names? path = some place) ∧
      (∀ s : Settings, s.patterns = [pattern] → ∀ place, place ∉ t.namesakes names →
        Tree.entry? (run s t).tree place = t.entry? place) ∧
      ∀ dotted, pattern = Path.plain dotted names → ∀ place ∈ t.namesakes names,
        ∃ path ∈ selectFiles t [pattern], t.names? path = some place := by
  have hleads : ∀ path ∈ selectFiles t [pattern],
      ∃ place ∈ t.namesakes names, t.names? path = some place := by
    intro path hmem
    have hmeant := mem_paths_of_mem_selectFiles hmem
    exact Pattern.exists_of_mem_paths hwf hfound hfixed hvue hslashes hmeant
  constructor
  · exact hleads
  constructor
  · intro s honly place hother
    apply entry?_run
    rw [honly]
    intro path hmem hsame
    obtain ⟨place', hnamesake, hleads'⟩ := hleads path hmem
    rw [Option.some.inj (hsame.symm.trans hleads')] at hother
    exact hother hnamesake
  · rintro dotted rfl place hnamesake
    obtain ⟨path, hmem, hleads'⟩ :=
      Pattern.exists_of_mem_namesakes hwf hfound hfixed hvue hslashes hnamesake
    exact exists_selected hwf hmem hleads'

/-- A component, and a deeper one of the same name beside another. -/
def namesakeFiles : Tree :=
  ⟨[(["A.vue"], .text "<p/>\n"), (["b", "A.vue"], .text "<p/>\n"),
    (["b", "C.vue"], .text "<p/>\n")]⟩

/-- A component without namesakes is selected alone. -/
theorem selectFiles_namesakes_alone :
    namesakeFiles.find? "b/C.vue" = some (["b", "C.vue"], .file (.text "<p/>\n")) ∧
      namesakeFiles.namesakes ["b", "C.vue"] = [["b", "C.vue"]] ∧
      (∃ path ∈ selectFiles namesakeFiles ["b/C.vue"],
        namesakeFiles.names? path = some ["b", "C.vue"]) ∧
      ∀ path ∈ selectFiles namesakeFiles ["b/C.vue"],
        namesakeFiles.names? path = some ["b", "C.vue"] := by
  have hwf : namesakeFiles.WellFormed := by decide +kernel
  have hfound : namesakeFiles.find? "b/C.vue" = some (["b", "C.vue"], .file (.text "<p/>\n")) := by
    decide +kernel
  have hfixed : Pattern.isFixed "b/C.vue".toList = true := by decide +kernel
  have hslashes : Pattern.NoBackslash namesakeFiles "b/C.vue" := by
    constructor <;> decide +kernel
  have halone : namesakeFiles.namesakes ["b", "C.vue"] = [["b", "C.vue"]] := by decide +kernel
  obtain ⟨honly, -, hall⟩ := selectFiles_namesakes namesakeFiles hwf "b/C.vue"
    ["b", "C.vue"] _ hfound
    hfixed (by decide +kernel) hslashes
  rw [halone] at honly hall
  refine ⟨hfound, halone, hall false (by decide +kernel) _ List.mem_cons_self, fun path hmem => ?_⟩
  obtain ⟨place, hnamesake, hleads⟩ := honly path hmem
  rw [hleads, List.mem_singleton.mp hnamesake]

/-- The component at the top is named, and the deeper one is selected with it. -/
theorem selectFiles_namesake_deeper :
    namesakeFiles.find? "A.vue" = some (["A.vue"], .file (.text "<p/>\n")) ∧
      selectFiles namesakeFiles ["A.vue"] = ["./A.vue", "./b/A.vue"] ∧
      namesakeFiles.names? "./b/A.vue" = some ["b", "A.vue"] := by
  have hfound : ["A.vue"].flatMap (Pattern.paths namesakeFiles) = ["./A.vue", "./b/A.vue"] := by
    decide +kernel
  have hsorted : ["./A.vue", "./b/A.vue"].Pairwise fun a b => Path.le a b = true := by
    decide +kernel
  have hdiffer : Path.parts "./A.vue" ≠ Path.parts "./b/A.vue" := by decide +kernel
  refine ⟨by decide +kernel, ?_, by decide +kernel⟩
  rw [selectFiles, hfound, List.mergeSort_of_pairwise hsorted]
  simp [dropRepeated, hdiffer, Path.same]

end VueSetup.Batch
