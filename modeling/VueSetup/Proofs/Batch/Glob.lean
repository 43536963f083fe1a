import VueSetup.Proofs.Batch.Named

/-!
# VueSetup.Proofs.Batch.Glob

Patterns with wildcards, against the rules of globs.

By these rules a star stands for characters of one name, a question mark for one character, and two
stars before a slash for any number of names. Of all such patterns a selection knows one kind, that
of everything deep below a directory, and there it keeps to the rules (`exists_selected_iff`). It
takes any other wildcard for a character of a name and finds nothing (`selectFiles_eq_nil`).
-/

namespace VueSetup.Batch

open VueSetup.Path (plain spell isName)

/-! ### Globs

The documented meaning of patterns, as relations that do not look at any search. They serve as the
other side of what the program does, and nothing in the program refers to them. -/

namespace Glob

open Pattern (isWildcard isFixed isFixed_iff)

/-- A segment of a pattern matches a name. -/
inductive MatchesName : List Char → List Char → Prop where
  | nil : MatchesName [] []
  | star {ps cs : List Char} (skipped : List Char) (hrest : MatchesName ps cs) :
    MatchesName ('*' :: ps) (skipped ++ cs)
  | one {ps cs : List Char} (c : Char) (hrest : MatchesName ps cs) :
    MatchesName ('?' :: ps) (c :: cs)
  | same {c : Char} {ps cs : List Char} (hfixed : isWildcard c = false)
      (hrest : MatchesName ps cs) :
    MatchesName (c :: ps) (c :: cs)

/-- The segments of a pattern match names. -/
inductive MatchesNames : List (List Char) → List String → Prop where
  | nil : MatchesNames [] []
  /-- Two stars with a slash behind them stand for any number of names. -/
  | deep {ps : List (List Char)} {names : List String} (skipped : List String) (hmore : ps ≠ [])
    (hrest : MatchesNames ps names) : MatchesNames ("**".toList :: ps) (skipped ++ names)
  | name {p : List Char} {name : String} {ps : List (List Char)} {names : List String}
    (hfirst : MatchesName p name.toList) (hrest : MatchesNames ps names) :
    MatchesNames (p :: ps) (name :: names)

/-- A pattern matches a place, by its segments behind any `./` at its start. -/
def Matches (pattern : String) (place : List String) : Prop :=
  MatchesNames ((Pattern.trimHere pattern.toList).splitOn '/') place

/-- Without wildcards a segment matches itself only. -/
theorem matchesName_iff_eq {ps cs : List Char} (hfixed : isFixed ps = true) :
    MatchesName ps cs ↔ cs = ps := by
  rw [isFixed_iff] at hfixed
  constructor
  · intro h
    induction h with
    | nil => rfl
    | star => cases hfixed '*' List.mem_cons_self
    | one => cases hfixed '?' List.mem_cons_self
    | same _ _ ih => rw [ih fun c hmem => hfixed c (List.mem_cons_of_mem _ hmem)]
  · rintro rfl
    induction cs with
    | nil => exact .nil
    | cons c cs ih =>
      have hothers := ih fun d hmem => hfixed d (List.mem_cons_of_mem _ hmem)
      exact .same (hfixed c List.mem_cons_self) hothers

/-- A star before fixed characters matches what ends with them. -/
theorem matchesName_star_iff {ps cs : List Char} (hfixed : isFixed ps = true) :
    MatchesName ('*' :: ps) cs ↔ ps <:+ cs := by
  constructor
  · intro h
    cases h with
    | star skipped hrest =>
      rw [(matchesName_iff_eq hfixed).mp hrest]
      exact List.suffix_append _ _
    | same hwildcard => cases hwildcard
  · rintro ⟨skipped, rfl⟩
    exact .star skipped ((matchesName_iff_eq hfixed).mpr rfl)

/-- A fixed segment is the next name. It cannot be two stars, which are wildcards. -/
theorem matchesNames_cons_iff {p : List Char} (hfixed : isFixed p = true)
    {ps : List (List Char)} {place : List String} :
    MatchesNames (p :: ps) place ↔
      ∃ name names, place = name :: names ∧ name.toList = p ∧ MatchesNames ps names := by
  constructor
  · intro h
    cases h with
    | deep => cases hfixed
    | name hfirst hrest => exact ⟨_, _, rfl, (matchesName_iff_eq hfixed).mp hfirst, hrest⟩
  · rintro ⟨name, names, rfl, rfl, hrest⟩
    exact .name ((matchesName_iff_eq hfixed).mpr rfl) hrest

/-- The last segment of the patterns in question. -/
theorem matchesNames_vue_iff {place : List String} : MatchesNames ["*.vue".toList] place ↔
    ∃ last, place = [last] ∧ ".vue".toList <:+ last.toList := by
  have hfixed : isFixed ".vue".toList = true := by decide
  constructor
  · intro h
    cases h with
    | name hfirst hrest =>
      cases hrest
      exact ⟨_, rfl, (matchesName_star_iff hfixed).mp hfirst⟩
  · rintro ⟨last, rfl, hvue⟩
    exact .name ((matchesName_star_iff hfixed).mpr hvue) .nil

/-- Components at any depth below a directory. -/
theorem matchesNames_deep_iff {dirs place : List String}
    (hfixed : ∀ dir ∈ dirs, isFixed dir.toList = true) :
    MatchesNames ((dirs ++ ["**", "*.vue"]).map String.toList) place ↔
      ∃ way last, place = dirs ++ (way ++ [last]) ∧ ".vue".toList <:+ last.toList := by
  induction dirs generalizing place with
  | nil =>
    constructor
    · intro h
      cases h with
      | deep skipped _ hrest =>
        obtain ⟨last, rfl, hvue⟩ := matchesNames_vue_iff.mp hrest
        exact ⟨skipped, last, rfl, hvue⟩
      | name _ hrest =>
        obtain ⟨last, rfl, hvue⟩ := matchesNames_vue_iff.mp hrest
        exact ⟨[_], last, rfl, hvue⟩
    · rintro ⟨way, last, rfl, hvue⟩
      exact .deep way (by simp) (matchesNames_vue_iff.mpr ⟨last, rfl, hvue⟩)
  | cons dir dirs ih =>
    have hown := hfixed dir List.mem_cons_self
    have hothers : ∀ other ∈ dirs, isFixed other.toList = true :=
      fun other hmem => hfixed other (List.mem_cons_of_mem _ hmem)
    rw [List.cons_append, List.map_cons, matchesNames_cons_iff hown]
    constructor
    · rintro ⟨name, names, rfl, hsame, hrest⟩
      obtain ⟨way, last, rfl, hvue⟩ := (ih hothers).mp hrest
      rw [String.toList_inj.mp hsame]
      exact ⟨way, last, rfl, hvue⟩
    · rintro ⟨way, last, rfl, hvue⟩
      exact ⟨dir, _, rfl, rfl, (ih hothers).mpr ⟨way, last, rfl, hvue⟩⟩

/-- Names with slashes between them have themselves as segments. -/
theorem splitOn_spell {names : List String} (h : ∀ name ∈ names, isName name = true)
    (hne : names ≠ []) : ((spell names).drop 1).splitOn '/' = names.map String.toList := by
  induction names with
  | nil => exact absurd rfl hne
  | cons name names ih =>
    have hsingle := List.splitOn_eq_singleton
      (Path.slash_notMem_of_isName (h name List.mem_cons_self))
    cases names with
    | nil => simpa using hsingle
    | cons second rest =>
      have hbehind := ih (fun other hmem => h other (List.mem_cons_of_mem _ hmem)) (by simp)
      have hapart : (spell (name :: second :: rest)).drop 1 =
          name.toList ++ '/' :: (spell (second :: rest)).drop 1 := by simp
      rw [hapart, List.splitOn_append_cons_self, hsingle, hbehind]
      rfl

/-- The segments of a plain path are its names. -/
theorem matches_plain {names : List String} (h : ∀ name ∈ names, isName name = true)
    (hne : names ≠ []) (dotted : Bool) (place : List String) :
    Matches (plain dotted names) place ↔ MatchesNames (names.map String.toList) place := by
  have htrimmed : Pattern.trimHere (plain dotted names).toList = (spell names).drop 1 := by
    rw [← Pattern.slash_trimHere_plain h hne dotted, List.drop_one, List.tail_cons]
  rw [Matches, htrimmed, splitOn_spell h hne]

end Glob

/-! ### Everything deep below a directory

The one kind of pattern that is known besides paths. Its text is found again character by character,
as the program looks for it: where the stars begin, what stands before them, and that no wildcard
stands there. -/

namespace Pattern

/-- Directories that a pattern can name as they are. -/
def Proper (dirs : List String) : Prop :=
  ∀ dir ∈ dirs, isName dir = true ∧ isFixed dir.toList = true ∧ '\\' ∉ dir.toList

instance (dirs : List String) : Decidable (Proper dirs) :=
  inferInstanceAs (Decidable (∀ dir ∈ dirs, _))

/-- The pattern of all components below a directory. -/
def deep (dotted : Bool) (dirs : List String) : String :=
  plain dotted (dirs ++ ["**", "*.vue"])

variable {dirs : List String}

/-- Such directories have proper names. -/
theorem Proper.isName (h : Proper dirs) : ∀ dir ∈ dirs, isName dir = true :=
  fun dir hmem => (h dir hmem).1

/-- The stars are proper names, too, as far as paths are concerned. -/
theorem Proper.isName_deep (h : Proper dirs) :
    ∀ name ∈ dirs ++ ["**", "*.vue"], Path.isName name = true := by
  intro name hmem
  rcases List.mem_append.mp hmem with hinside | hends
  · exact h.isName name hinside
  · have hall : ∀ name ∈ ["**", "*.vue"], Path.isName name = true := by decide
    exact hall name hends

/-- Before the stars stands the path of the directory with a slash, if there is one. -/
theorem toList_deep (h : Proper dirs) (dotted : Bool) :
    (deep dotted dirs).toList = "**/*.vue".toList ∧ plain dotted dirs = "." ∨
      (deep dotted dirs).toList = (plain dotted dirs).toList ++ '/' :: "**/*.vue".toList := by
  rw [deep, Path.toList_plain h.isName_deep, Path.toList_plain h.isName]
  cases dotted with
  | true => exact .inr (by simp)
  | false =>
    cases dirs with
    | nil => exact .inl (by decide)
    | cons dir dirs => exact .inr (by simp)

/-- No wildcard stands in the path of the directory. -/
theorem Proper.isFixed_plain (h : Proper dirs) (dotted : Bool) :
    isFixed (plain dotted dirs).toList = true := by
  rw [isFixed_iff]
  intro c hmem
  rcases Path.mem_plain h.isName hmem with rfl | rfl | ⟨dir, hmemdir, hinside⟩
  · rfl
  · rfl
  · exact isFixed_iff.mp (h dir hmemdir).2.1 c hinside

/-- No backslash stands there either. -/
theorem Proper.backslash_notMem_plain (h : Proper dirs) (dotted : Bool) :
    '\\' ∉ (plain dotted dirs).toList := by
  intro hmem
  rcases Path.mem_plain h.isName hmem with hdot | hslash | ⟨dir, hmemdir, hinside⟩
  · exact absurd hdot (by decide)
  · exact absurd hslash (by decide)
  · exact (h dir hmemdir).2.2 hinside

/-- What stands before the first wildcard, up to the slash. -/
theorem wildcardRoot_eq {front behind : List Char} (hfixed : isFixed front = true)
    (hne : front ≠ []) : wildcardRoot (front ++ '/' :: '*' :: behind) = front := by
  have hkept : (front ++ '/' :: '*' :: behind).takeWhile (fun c => !isWildcard c) =
      front ++ ['/'] := by
    rw [List.takeWhile_append_of_pos (by simpa [isFixed] using hfixed)]
    rfl
  simp only [wildcardRoot, hkept, List.reverse_append, List.reverse_cons, List.reverse_nil,
    List.nil_append, List.singleton_append, bne_self_eq_false, Bool.false_eq_true,
    not_false_eq_true, List.dropWhile_cons_of_neg, List.drop_succ_cons, List.drop_zero]
  split
  · next hempty => exact absurd (List.reverse_eq_nil_iff.mp hempty) hne
  · exact List.reverse_reverse front

/-- The walk starts at the directory, and the pattern stays as it is. -/
theorem read_deep (h : Proper dirs) (dotted : Bool) (t : Tree) :
    read t (deep dotted dirs) = ⟨plain dotted dirs, deep dotted dirs⟩ := by
  have hwild : (deep dotted dirs).toList.any isWildcard = true := by
    rcases toList_deep h dotted with ⟨hwhole, -⟩ | hwhole <;> rw [hwhole]
    · decide
    · simp [isWildcard]
  have hroot : String.ofList (wildcardRoot (deep dotted dirs).toList) = plain dotted dirs := by
    rcases toList_deep h dotted with ⟨hwhole, hhere⟩ | hwhole
    · rw [hwhole, hhere]
      decide
    · have hne : (plain dotted dirs).toList ≠ [] := fun hempty =>
        Path.plain_ne_empty h.isName dotted (String.toList_eq_nil_iff.mp hempty)
      have hfound := @wildcardRoot_eq _ "*/*.vue".toList (h.isFixed_plain dotted) hne
      rw [hwhole]
      show String.ofList (wildcardRoot (_ ++ '/' :: '*' :: "*/*.vue".toList)) = _
      rw [hfound, String.ofList_toList]
  rw [read, if_pos hwild, hroot]

/-- The first occurrence of a text is found if it cannot start before it. -/
theorem before?_append {c : Char} {needle front : List Char} (h : c ∉ front)
    (behind : List Char) :
    before? (c :: needle) (front ++ (c :: needle ++ behind)) = some front := by
  induction front with
  | nil =>
    have hbegins : (c :: needle).isPrefixOf (c :: needle ++ behind) = true :=
      List.isPrefixOf_iff_prefix.mpr (List.prefix_append _ _)
    rw [List.nil_append, before?.eq_def]
    exact if_pos hbegins
  | cons d front ih =>
    have hne : c ≠ d := fun hsame => h (hsame ▸ List.mem_cons_self)
    have hrest : c ∉ front := fun hmem => h (List.mem_cons_of_mem _ hmem)
    rw [List.cons_append, before?, if_neg (by simp [List.isPrefixOf, hne]), ih hrest]
    rfl

/-- One slash is taken off, and no more is there. -/
theorem trimSlashes_append {cs : List Char} (h : cs.getLast? ≠ some '/') :
    trimSlashes (cs ++ ['/']) = cs := by
  have hstops : cs.reverse.dropWhile (· == '/') = cs.reverse := by
    cases hlast : cs.reverse with
    | nil => rfl
    | cons c rest =>
      have hne : c ≠ '/' := by
        rintro rfl
        rw [← List.head?_reverse, hlast] at h
        exact h rfl
      simp [hne]
  unfold trimSlashes
  rw [List.reverse_append, List.reverse_singleton, List.singleton_append,
    List.dropWhile_cons_of_pos rfl, hstops, List.reverse_reverse]

/-- With a directory it is neither of the two patterns that have none, which start elsewhere. -/
theorem deep_cons_ne {dir : String} (h : Proper (dir :: dirs)) (dotted : Bool) :
    deep dotted (dir :: dirs) ≠ "./**/*.vue" ∧ deep dotted (dir :: dirs) ≠ "**/*.vue" := by
  have hne := Path.plain_cons_ne_here h.isName dotted
  have hroot := congrArg Pattern.root (read_deep h dotted ⟨[]⟩)
  constructor
  · intro hsame
    rw [hsame, show (read ⟨[]⟩ "./**/*.vue").root = "." by decide] at hroot
    exact hne hroot.symm
  · intro hsame
    rw [hsame, show (read ⟨[]⟩ "**/*.vue").root = "." by decide] at hroot
    exact hne hroot.symm

/-- The stars are found where they were put. -/
theorem before?_deep {dir : String} (h : Proper (dir :: dirs)) (dotted : Bool) :
    before? "**/*.vue".toList (deep dotted (dir :: dirs)).toList =
      some ((plain dotted (dir :: dirs)).toList ++ ['/']) := by
  have hstar : '*' ∉ (plain dotted (dir :: dirs)).toList ++ ['/'] := by
    intro hmem
    rcases List.mem_append.mp hmem with hinside | hslash
    · exact absurd (isFixed_iff.mp (h.isFixed_plain dotted) '*' hinside) (by decide)
    · exact absurd hslash (by decide)
  have hfound := @before?_append '*' "*/*.vue".toList _ hstar []
  have hne := Path.plain_cons_ne_here h.isName dotted
  rw [(toList_deep h dotted).resolve_left fun hbare => hne hbare.2]
  simpa using hfound

/-- Such a pattern means components, and if it names a directory, those that lie in it. -/
theorem selects_deep (h : Proper dirs) (dotted : Bool) (path : String) :
    selects (deep dotted dirs) path =
      (let cs := forwardSlashes path.toList
      (dirs.isEmpty || ((plain dotted dirs).toList ++ ['/']).isPrefixOf cs) &&
        ".vue".toList.isSuffixOf cs) := by
  cases dirs with
  | nil =>
    have hhere : deep dotted [] = "./**/*.vue" ∨ deep dotted [] = "**/*.vue" := by
      cases dotted <;> decide
    rw [selects, if_pos (by simpa using hhere)]
    rfl
  | cons dir dirs =>
    have htrimmed := trimSlashes_append (Path.getLast?_plain h.isName dotted)
    simp only [selects, deep_cons_ne h, before?_deep h, htrimmed]
    simp

/-- As a glob the pattern matches what lies below the directory and ends like a component. -/
theorem matches_deep_iff (h : Proper dirs) (dotted : Bool) {place : List String} :
    Glob.Matches (deep dotted dirs) place ↔
      ∃ way last, place = dirs ++ (way ++ [last]) ∧ ".vue".toList <:+ last.toList := by
  have hfixed : ∀ dir ∈ dirs, isFixed dir.toList = true := fun dir hmem => (h dir hmem).2.1
  rw [deep, Glob.matches_plain h.isName_deep (by simp), Glob.matchesNames_deep_iff hfixed]

/-! ### What it means

Both directions of the comparison: what is selected lies below the directory and is a component, and
whatever is one there is selected. -/

variable {t : Tree} {dotted : Bool}

/-- The plain path of a directory leads to its own names. -/
theorem eq_of_names?_plain (hwf : t.WellFormed) (h : ∀ dir ∈ dirs, Path.isName dir = true)
    {names : List String} (hleads : t.names? (plain dotted dirs) = some names) : names = dirs := by
  have hfollowed := hwf.follow?_steps hleads
  rw [Path.steps_plain h] at hfollowed
  exact Tree.eq_append_of_follow? hfollowed

/-- The directory itself is not meant, whatever its name ends with. -/
theorem not_selects_deep_self (h : Proper dirs)
    (hvue : Path.extension? (plain dotted dirs) = some "vue") :
    selects (deep dotted dirs) (plain dotted dirs) = false := by
  cases dirs with
  | nil => cases dotted <;> exact absurd hvue (by decide)
  | cons dir dirs =>
    -- the walk starts with the directory itself, but nothing follows there behind a slash
    have hlonger : ¬ (plain dotted (dir :: dirs)).toList ++ ['/'] <+:
        forwardSlashes (plain dotted (dir :: dirs)).toList := by
      intro hbegins
      have hlength := hbegins.length_le
      rw [forwardSlashes, List.length_map, List.length_append, List.length_singleton] at hlength
      omega
    rw [selects_deep h]
    simp [hlonger]

/-- What is meant lies below the directory and is a component. -/
theorem exists_of_mem_paths_deep (hwf : t.WellFormed) (h : Proper dirs) {path : String}
    (hmem : path ∈ paths t (deep dotted dirs)) : ∃ way last,
      t.names? path = some (dirs ++ (way ++ [last])) ∧ ".vue".toList <:+ last.toList := by
  simp only [paths, read_deep h, List.mem_filter, Bool.and_eq_true, beq_iff_eq] at hmem
  obtain ⟨hinWalk, hvue, hselected⟩ := hmem
  obtain ⟨names, way, hwalked⟩ := hwf.exists_of_mem_walk hinWalk
  obtain rfl := eq_of_names?_plain hwf h.isName hwalked.names?_root
  rcases hwalked.below with rfl | hbelow
  · have hsame : path = plain dotted names := hwalked.path_eq
    rw [hsame] at hvue hselected
    rw [not_selects_deep_self h hvue] at hselected
    cases hselected
  · obtain ⟨way, last, rfl, hshown⟩ := Tree.exists_concat_of_mem_below hbelow
    exact ⟨way, last, hwalked.names?_path, (hwalked.extension?_iff hshown).mp hvue⟩

/-- The end of a component's name has no backslash. -/
theorem vue_suffix_forwardSlashes {cs : List Char} (h : ".vue".toList <:+ cs) :
    ".vue".toList <:+ forwardSlashes cs := by
  obtain ⟨front, rfl⟩ := h
  exact ⟨forwardSlashes front, by simp [forwardSlashes]⟩

/-- Turning backslashes leaves the start of a path that has none. -/
theorem prefix_forwardSlashes {root : List Char} (hslashes : '\\' ∉ root) {names : List String}
    (hne : names ≠ []) : root ++ ['/'] <+: forwardSlashes (root ++ spell names) := by
  obtain ⟨name, names, rfl⟩ := List.exists_cons_of_ne_nil hne
  have hfront := forwardSlashes_eq hslashes
  unfold forwardSlashes at hfront ⊢
  rw [List.map_append, hfront]
  exact ⟨forwardSlashes (name.toList ++ spell names), by simp [forwardSlashes]⟩

/-- Every component below the directory is meant. -/
theorem exists_mem_paths_deep (hwf : t.WellFormed) (h : Proper dirs) {way : List String}
    {last : String} (hbelow : way ++ [last] ∈ t.below dirs) (hvue : ".vue".toList <:+ last.toList) :
    ∃ path ∈ paths t (deep dotted dirs), t.names? path = some (dirs ++ (way ++ [last])) := by
  obtain ⟨-, hshown, f, hmemF, hbegins⟩ := Tree.mem_below.mp hbelow
  have hshorter : dirs ≠ f.1 := Tree.ne_of_prefix_append (by simp) hbegins
  have hfound := hwf.find?_plain hmemF ((List.prefix_append _ _).trans hbegins) hshorter dotted
  have hwalked := hwf.walked_of_mem_below hfound hbelow
  have hspelled : ((way ++ [last]).foldl Path.join (plain dotted dirs)).toList =
      (plain dotted dirs).toList ++ spell (way ++ [last]) :=
    Path.toList_foldl_join hwalked.isName (Path.getLast?_plain h.isName dotted)
  refine ⟨_, ?_, hwalked.names?_path⟩
  simp only [paths, read_deep h, List.mem_filter, Bool.and_eq_true, beq_iff_eq]
  constructor
  · exact Tree.mem_walk_of_mem_below hfound hbelow
  constructor
  · exact (hwalked.extension?_iff (hshown last (by simp))).mpr hvue
  · have hbehind := prefix_forwardSlashes (h.backslash_notMem_plain dotted)
      (show way ++ [last] ≠ [] by simp)
    have hends : ".vue".toList <:+ (plain dotted dirs).toList ++ spell (way ++ [last]) :=
      hvue.trans ⟨(plain dotted dirs).toList ++ spell way ++ ['/'], by simp⟩
    rw [selects_deep h, hspelled]
    simp only [List.isPrefixOf_iff_prefix.mpr hbehind, Bool.or_true, Bool.true_and,
      List.isSuffixOf_iff_suffix.mpr (vue_suffix_forwardSlashes hends)]

end Pattern

/-- Nothing in the tree is hidden. -/
def Tree.NoneHidden (t : Tree) : Prop :=
  ∀ f ∈ t.files, ∀ name ∈ f.1, isHidden name = false

instance (t : Tree) : Decidable t.NoneHidden :=
  inferInstanceAs (Decidable (∀ f ∈ t.files, _))

/-- What is selected deep below a directory is what the pattern matches. -/
theorem exists_selected_iff {t : Tree} (hwf : t.WellFormed) (hshown : t.NoneHidden)
    {dirs : List String} (h : Pattern.Proper dirs) (dotted : Bool) (place : List String) :
    (∃ path ∈ selectFiles t [Pattern.deep dotted dirs], t.names? path = some place) ↔
      (∃ entry, t.entry? place = some entry) ∧ Glob.Matches (Pattern.deep dotted dirs) place := by
  rw [Pattern.matches_deep_iff h]
  constructor
  · rintro ⟨path, hmem, hleads⟩
    have hmeant := mem_paths_of_mem_selectFiles hmem
    obtain ⟨way, last, hleads', hvue⟩ := Pattern.exists_of_mem_paths_deep hwf h hmeant
    obtain rfl := Option.some.inj (hleads.symm.trans hleads')
    obtain ⟨entry, hfound⟩ := Tree.names?_eq_some_iff.mp hleads
    exact ⟨⟨entry, (Tree.find?_eq_some_iff.mp hfound).2.2.1⟩, way, last, rfl, hvue⟩
  · rintro ⟨⟨entry, hthere⟩, way, last, rfl, hvue⟩
    obtain ⟨f, hmemF, hbegins⟩ := Tree.exists_file_of_entry? hthere (by simp)
    have hbelow : way ++ [last] ∈ t.below dirs := by
      rw [Tree.mem_below]
      refine ⟨by simp, fun name hmem => ?_, f, hmemF, hbegins⟩
      exact hshown f hmemF name (hbegins.subset (List.mem_append_right _ hmem))
    obtain ⟨path, hmem, hleads⟩ := Pattern.exists_mem_paths_deep hwf h hbelow hvue
    exact exists_selected hwf hmem hleads

/-! ### Other wildcards

Any other pattern with a wildcard is compared character by character, or starts at a directory that
has the wildcard in its path. No place of a tree without wildcards in its names is found that way.
-/

namespace Pattern

variable {c : Char}

/-- Taking `./` off the start takes no wildcard off. -/
theorem mem_trimHere_iff (hwild : isWildcard c = true) {cs : List Char} :
    c ∈ trimHere cs ↔ c ∈ cs := by
  fun_induction trimHere cs with
  | case1 cs ih =>
    have hdot : c ≠ '.' := by rintro rfl; cases hwild
    have hslash : c ≠ '/' := by rintro rfl; cases hwild
    simp [ih, hdot, hslash]
  | case2 => rfl

/-- Turning backslashes makes and takes no wildcard. -/
theorem mem_forwardSlashes_iff (hwild : isWildcard c = true) {cs : List Char} :
    c ∈ forwardSlashes cs ↔ c ∈ cs := by
  have hslash : c ≠ '/' := by rintro rfl; cases hwild
  have hbackslash : c ≠ '\\' := by rintro rfl; cases hwild
  simp only [forwardSlashes, List.mem_map]
  constructor
  · rintro ⟨d, hmem, hsame⟩
    split at hsame
    · exact absurd hsame.symm hslash
    · exact hsame ▸ hmem
  · intro hmem
    exact ⟨c, hmem, by simp [hbackslash]⟩

/-- Taking slashes off the end takes no other character off. -/
theorem mem_trimSlashes (hslash : c ≠ '/') {cs : List Char} (hmem : c ∈ cs) :
    c ∈ trimSlashes cs := by
  have hwhole := @List.takeWhile_append_dropWhile _ (· == '/') cs.reverse
  rw [← List.mem_reverse, ← hwhole] at hmem
  rcases List.mem_append.mp hmem with htrimmed | hkept
  · have hequal := List.all_eq_true.mp List.all_takeWhile c htrimmed
    exact absurd (beq_iff_eq.mp hequal) hslash
  · exact List.mem_reverse.mpr hkept

/-- What is found stands in the text. -/
theorem exists_of_before? {needle cs directory : List Char}
    (h : before? needle cs = some directory) : ∃ behind, cs = directory ++ (needle ++ behind) := by
  induction cs generalizing directory with
  | nil =>
    simp only [before?] at h
    split at h
    · next hempty =>
      cases h
      exact ⟨[], by simpa using hempty⟩
    · cases h
  | cons c cs ih =>
    simp only [before?] at h
    split at h
    · next hbegins =>
      cases h
      obtain ⟨behind, hwhole⟩ := List.isPrefixOf_iff_prefix.mp hbegins
      exact ⟨behind, hwhole.symm⟩
    · obtain ⟨front, hfound, rfl⟩ := Option.map_eq_some_iff.mp h
      obtain ⟨behind, rfl⟩ := ih hfound
      exact ⟨behind, rfl⟩

/-- A text is not fixed if it has a wildcard. -/
theorem isFixed_eq_false_iff {cs : List Char} :
    isFixed cs = false ↔ ∃ c ∈ cs, isWildcard c = true := by
  simp [isFixed]

/-- The first wildcard of the pattern does not begin a `**/*.vue`. -/
def Unknown (pattern : String) : Prop :=
  isFixed pattern.toList = false ∧
    ¬ "**/*.vue".toList <+: pattern.toList.dropWhile fun c => !isWildcard c

instance (pattern : String) : Decidable (Unknown pattern) :=
  inferInstanceAs (Decidable (_ ∧ _))

/-- A path that an unknown wildcard means has a wildcard among its own characters. -/
theorem Unknown.isFixed_path {pattern path : String} (h : Unknown pattern)
    (hvue : ".vue".toList <:+ pattern.toList) (hselected : selects pattern path = true) :
    isFixed path.toList = false := by
  obtain ⟨hwild, hunknown⟩ := h
  rw [isFixed_eq_false_iff] at hwild ⊢
  obtain ⟨c, hmem, hwild⟩ := hwild
  have hfirst : pattern ≠ "./**/*.vue" := by
    rintro rfl
    exact hunknown (by decide)
  have hsecond : pattern ≠ "**/*.vue" := by
    rintro rfl
    exact hunknown (by decide)
  simp only [selects, hfirst, hsecond, List.isSuffixOf_iff_suffix.mpr hvue, decide_false,
    Bool.or_self, Bool.false_eq_true, if_false, if_true] at hselected
  -- Before `**/*.vue` stands a part with another wildcard, or the pattern does not hold it. Then
  -- the whole pattern has to be the end of the path.
  split at hselected
  · next directory hfound =>
    obtain ⟨behind, hwhole⟩ := exists_of_before? hfound
    have hwildcard : isFixed directory = false := by
      cases hfixed : isFixed directory with
      | false => rfl
      | true =>
        have hkept : ∀ d ∈ directory, (!isWildcard d) = true := by simpa [isFixed] using hfixed
        apply absurd _ hunknown
        rw [hwhole, List.dropWhile_append_of_pos hkept]
        exact ⟨behind, rfl⟩
    obtain ⟨d, hmemD, hwild⟩ := isFixed_eq_false_iff.mp hwildcard
    have hslash : d ≠ '/' := by rintro rfl; cases hwild
    simp only [Bool.and_eq_true, List.isPrefixOf_iff_prefix] at hselected
    have hinPath := hselected.1.subset (List.mem_append_left _ (mem_trimSlashes hslash hmemD))
    exact ⟨d, (mem_forwardSlashes_iff hwild).mp hinPath, hwild⟩
  · have hinName : c ∈ trimHere (forwardSlashes pattern.toList) :=
      (mem_trimHere_iff hwild).mpr ((mem_forwardSlashes_iff hwild).mpr hmem)
    refine ⟨c, (mem_forwardSlashes_iff hwild).mp ?_, hwild⟩
    simp only [Bool.or_eq_true, beq_iff_eq, List.isSuffixOf_iff_suffix] at hselected
    rcases hselected with hsame | hsuffix
    · rw [← mem_trimHere_iff hwild, hsame]
      exact hinName
    · exact hsuffix.subset (List.mem_cons_of_mem _ hinName)

/-- What stands before the first wildcard has none. -/
theorem isFixed_wildcardRoot (cs : List Char) : isFixed (wildcardRoot cs) = true := by
  rw [isFixed_iff]
  intro c hmem
  simp only [wildcardRoot] at hmem
  split at hmem
  · rw [List.mem_singleton.mp hmem]
    rfl
  · have hkept := List.mem_of_mem_drop (List.mem_reverse.mp hmem)
    have hfixed := List.mem_reverse.mp ((List.dropWhile_sublist _).subset hkept)
    simpa using List.all_eq_true.mp List.all_takeWhile c hfixed

end Pattern

/-- No name of the tree has a wildcard in it. -/
def Tree.NoWildcards (t : Tree) : Prop :=
  ∀ f ∈ t.files, ∀ name ∈ f.1, Pattern.isFixed name.toList = true

instance (t : Tree) : Decidable t.NoWildcards :=
  inferInstanceAs (Decidable (∀ f ∈ t.files, _))

/-- A wildcard that is not known finds nothing, not even what it matches. -/
theorem selectFiles_eq_nil {t : Tree} (hwf : t.WellFormed) (hfixed : t.NoWildcards)
    {pattern : String}
    (hvue : ".vue".toList <:+ pattern.toList) (hunknown : Pattern.Unknown pattern) :
    selectFiles t [pattern] = [] := by
  rw [List.eq_nil_iff_forall_not_mem]
  intro path hmem
  have hmeant := mem_paths_of_mem_selectFiles hmem
  have hwild' : pattern.toList.any Pattern.isWildcard = true := by
    simpa [Pattern.isFixed] using hunknown.1
  simp only [Pattern.paths, Pattern.read, hwild', if_true, List.mem_filter, Bool.and_eq_true]
    at hmeant
  obtain ⟨hinWalk, -, hselected⟩ := hmeant
  obtain ⟨names, way, hwalked⟩ := hwf.exists_of_mem_walk hinWalk
  obtain ⟨c, hinPath, hwild⟩ :=
    Pattern.isFixed_eq_false_iff.mp (hunknown.isFixed_path hvue hselected)
  have hnotFixed : ∀ {cs : List Char}, Pattern.isFixed cs = true → c ∉ cs := by
    intro cs hfixed' hinside
    rw [Pattern.isFixed_iff.mp hfixed' c hinside] at hwild
    cases hwild
  have hslash : c ≠ '/' := by
    rintro rfl
    cases hwild
  -- a path is made of its root and of names, and neither has wildcards
  have hnamesFixed : ∀ name ∈ way, c ∉ name.toList := by
    intro name hinWay
    obtain ⟨f, hmemF, hinFile⟩ := hwalked.exists_file_of_mem hinWay
    exact hnotFixed (hfixed f hmemF name hinFile)
  have hrootFixed : c ∉ (String.ofList (Pattern.wildcardRoot pattern.toList)).toList := by
    rw [String.toList_ofList]
    exact hnotFixed (Pattern.isFixed_wildcardRoot _)
  rw [hwalked.path_eq] at hinPath
  exact Path.notMem_foldl_join hslash hnamesFixed hrootFixed hinPath

/-- **Selection by wildcards.** In a tree without hidden names the pattern of all components below a
directory selects just the places that it matches as a glob. A wildcard in any other place finds
nothing, unless names have wildcards in them. -/
theorem selectFiles_wildcards (t : Tree) (hwf : t.WellFormed) (hshown : t.NoneHidden) :
    (∀ (dotted : Bool) (dirs : List String), Pattern.Proper dirs → ∀ place,
      ((∃ path ∈ selectFiles t [Pattern.deep dotted dirs], t.names? path = some place) ↔
        (∃ entry, t.entry? place = some entry) ∧ Glob.Matches (Pattern.deep dotted dirs) place)) ∧
      (t.NoWildcards → ∀ pattern : String, ".vue".toList <:+ pattern.toList →
        Pattern.Unknown pattern → selectFiles t [pattern] = []) := by
  constructor
  · intro dotted dirs hproper place
    exact exists_selected_iff hwf hshown hproper dotted place
  · intro hfixed pattern hvue hunknown
    exact selectFiles_eq_nil hwf hfixed hvue hunknown

/-- Below a directory its component is selected, and the one beside the directory is not. -/
theorem selectFiles_wildcards_nestedFiles :
    nestedFiles.WellFormed ∧ nestedFiles.NoneHidden ∧ nestedFiles.NoWildcards ∧
      Pattern.deep false ["b"] = "b/**/*.vue" ∧
      (∃ path ∈ selectFiles nestedFiles ["b/**/*.vue"],
        nestedFiles.names? path = some ["b", "B.vue"]) ∧
      ¬ ∃ path ∈ selectFiles nestedFiles ["b/**/*.vue"],
        nestedFiles.names? path = some ["A.vue"] := by
  have hwf : nestedFiles.WellFormed := by decide +kernel
  have hshown : nestedFiles.NoneHidden := by decide +kernel
  have hspelled : Pattern.deep false ["b"] = "b/**/*.vue" := by decide +kernel
  have hproper : Pattern.Proper ["b"] := by decide +kernel
  have hselected := (selectFiles_wildcards nestedFiles hwf hshown).1 false ["b"] hproper
  refine ⟨hwf, hshown, by decide +kernel, hspelled, ?_, ?_⟩ <;>
    rw [← hspelled, hselected, Pattern.matches_deep_iff hproper]
  · exact ⟨⟨.file (.text "<p/>\n"), by decide +kernel⟩, [], "B.vue", rfl, by decide +kernel⟩
  · rintro ⟨-, way, last, hsame, -⟩
    simp at hsame

/-- A star matches the name of the component at the top, which is not selected. -/
theorem selectFiles_star :
    Glob.Matches "*.vue" ["A.vue"] ∧
      nestedFiles.entry? ["A.vue"] = some (.file (.text "<p/>\n")) ∧
      selectFiles nestedFiles ["*.vue"] = [] := by
  have hmatched : Glob.Matches "*.vue" ["A.vue"] := by
    have hstar : Glob.MatchesName "*.vue".toList "A.vue".toList :=
      (Glob.matchesName_star_iff (by decide)).mpr (by decide)
    exact .name hstar .nil
  exact ⟨hmatched, by decide +kernel,
    selectFiles_eq_nil (by decide +kernel) (by decide +kernel) (by decide +kernel)
      (by decide +kernel)⟩

end VueSetup.Batch
