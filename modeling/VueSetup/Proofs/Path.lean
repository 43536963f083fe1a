import VueSetup.Path

/-!
# VueSetup.Proofs.Path

The parts of paths that are put together.

Behind a slash or a dot at its very start a path consists of **steps**: names and double dots. The
steps of two texts with a slash between them are those of the one and then those of the other
(`steps_append`), so that to join a name adds one step (`parts_join`), and to follow names from a
path adds them all (`parts_foldl_join`).
-/

namespace VueSetup.Path

/-! ### Names and steps

Steps are defined on the characters of a text, where a slash parts two segments. An empty segment
and a single dot make no step, so that several spellings of a path have the same steps. -/

/-- The text can be the name of a file or of a directory. -/
def isName (text : String) : Bool :=
  text.toList != [] && text.toList != ['.'] && text.toList != ['.', '.'] &&
    !text.toList.contains '/'

/-- The parts of a text that follows other parts: no slash and no dot at its start counts. -/
def steps (cs : List Char) : List Part :=
  (cs.splitOn '/').filterMap (Part.ofSegment? false)

@[simp] theorem steps_nil : steps [] = [] := rfl

@[simp] theorem steps_dot : steps ['.'] = [] := by decide

/-- A slash between two texts parts their steps. -/
theorem steps_append (before behind : List Char) :
    steps (before ++ '/' :: behind) = steps before ++ steps behind := by
  rw [steps, List.splitOn_append_cons_self, List.filterMap_append, steps, steps]

variable {name : String}

/-- A name is not empty. -/
theorem toList_ne_nil_of_isName (h : isName name = true) : name.toList ≠ [] := by
  simp only [isName, Bool.and_eq_true, bne_iff_ne] at h
  exact h.1.1.1

theorem ne_empty_of_isName (h : isName name = true) : name ≠ "" := by
  rintro rfl
  exact toList_ne_nil_of_isName h rfl

/-- A name has no slash, so it is one segment. -/
theorem slash_notMem_of_isName (h : isName name = true) : '/' ∉ name.toList := by
  simp only [isName, Bool.and_eq_true, Bool.not_eq_true', List.contains_eq_mem,
    decide_eq_false_iff_not] at h
  exact h.2

/-- The segment of a name is that name, at the start of a path and behind it. -/
theorem ofSegment?_of_isName (h : isName name = true) (first : Bool) :
    Part.ofSegment? first name.toList = some (.name name) := by
  simp only [isName, Bool.and_eq_true, bne_iff_ne] at h
  unfold Part.ofSegment?
  split
  · next heq => exact absurd heq h.1.1.1
  · next heq => exact absurd heq h.1.1.2
  · next heq => exact absurd heq h.1.2
  · rw [String.ofList_toList]

/-- A name is one step. -/
theorem steps_of_isName (h : isName name = true) : steps name.toList = [.name name] := by
  rw [steps, List.splitOn_eq_singleton (slash_notMem_of_isName h), List.filterMap_cons,
    ofSegment?_of_isName h]
  rfl

/-- A segment that is a part and no double dot is a name. -/
theorem isName_of_ofSegment? {segment : List Char} (hslash : '/' ∉ segment)
    (h : Part.ofSegment? false segment = some (.name name)) :
    isName name = true ∧ name.toList = segment := by
  unfold Part.ofSegment? at h
  split at h
  · cases h
  · cases h
  · cases h
  · next hempty hhere hparent =>
    cases h
    rw [String.toList_ofList]
    refine ⟨?_, rfl⟩
    simp only [isName, String.toList_ofList, Bool.and_eq_true, bne_iff_ne, Bool.not_eq_true',
      List.contains_eq_mem, decide_eq_false_iff_not]
    exact ⟨⟨⟨hempty, hhere⟩, hparent⟩, hslash⟩

/-- The part is a name. -/
def Part.isNamed : Part → Bool
  | .name _ => true
  | _ => false

/-- Parts that are all names, as the names that they are. -/
theorem exists_names {front : List Part} (h : ∀ part ∈ front, part.isNamed = true) :
    ∃ names : List String, front = names.map .name := by
  induction front with
  | nil => exact ⟨[], rfl⟩
  | cons part front ih =>
    obtain ⟨names, rfl⟩ := ih fun other hmem => h other (List.mem_cons_of_mem _ hmem)
    cases part with
    | name text => exact ⟨text :: names, rfl⟩
    | root | here | parent => cases h _ List.mem_cons_self

/-- Parts of which not all are names do not come back behind further names. -/
theorem eq_singleton_of_suffix {front : List Part} (h : ∃ part ∈ front, part.isNamed = false)
    {names : List String} (hsuffix : front ++ [.name name] <:+ front ++ names.map .name) :
    names = [name] := by
  -- what counts is how many names stand behind the last part that is none
  have hstops : ¬ ∀ part ∈ front.reverse, part.isNamed = true := by
    obtain ⟨part, hmem, hunnamed⟩ := h
    intro hall
    simp [hall part (List.mem_reverse.mpr hmem)] at hunnamed
  have hshorter : (front.reverse.takeWhile Part.isNamed).length ≠ front.reverse.length := by
    intro hsame
    exact hstops fun part hmem => by
      rw [← (List.takeWhile_prefix _).eq_of_length hsame] at hmem
      exact List.all_eq_true.mp List.all_takeWhile part hmem
  have hnamed : ∀ part ∈ (names.map Part.name).reverse, part.isNamed = true := by
    simp [Part.isNamed]
  obtain ⟨before, hequal⟩ := hsuffix
  have htails := congrArg (fun parts => (parts.reverse.takeWhile Part.isNamed)) hequal
  simp only [List.reverse_append, List.reverse_cons, List.reverse_nil, List.nil_append,
    List.cons_append, List.takeWhile_append_of_pos hnamed] at htails
  rw [List.takeWhile_cons_of_pos rfl, List.takeWhile_append, if_neg hshorter] at htails
  have hlast := List.append_cancel_right (show [Part.name name] ++ _ = _ from htails)
  simpa using (congrArg List.reverse hlast).symm

/-! ### Parts of a path

The first segment counts in another way than the others: an empty one is the root and a single dot
stays. All the rest of a path are steps. -/

/-- Only the empty path has nothing but an empty segment. -/
theorem segments_ne_of_ne {path : String} (h : path ≠ "") : segments path ≠ [[]] := by
  intro heq
  have hjoined := @List.intercalate_splitOn _ path.toList _ _ '/'
  rw [segments] at heq
  rw [heq] at hjoined
  exact h (String.toList_eq_nil_iff.mp hjoined.symm)

/-- The parts segment by segment, where the path is not empty. -/
theorem parts_of_segments {path : String} {first : List Char} {others : List (List Char)}
    (h : segments path = first :: others) (hnonempty : path ≠ "") :
    parts path =
      (Part.ofSegment? true first).toList ++ others.filterMap (Part.ofSegment? false) := by
  have hne := segments_ne_of_ne hnonempty
  unfold parts
  split
  · next heq => rw [h] at heq; cases heq
  · next heq => exact absurd heq hne
  · next heq => rw [h] at heq; cases heq; rfl

/-- A path has its steps, and at most a dot or a slash before them. -/
theorem parts_eq (path : String) : parts path = steps path.toList ∨
    parts path = .here :: steps path.toList ∨ parts path = .root :: steps path.toList := by
  by_cases hnonempty : path = ""
  · subst hnonempty
    exact .inl (by decide)
  · obtain ⟨first, others, h⟩ := List.exists_cons_of_ne_nil (List.splitOn_ne_nil '/' path.toList)
    rw [parts_of_segments h hnonempty, steps, h, List.filterMap_cons]
    unfold Part.ofSegment?
    split <;> simp

/-- Behind a path, a slash and a text add the steps of the text. -/
theorem parts_append {path : String} (hnonempty : path ≠ "") (text : String) :
    parts (path ++ "/" ++ text) = parts path ++ steps text.toList := by
  obtain ⟨first, others, h⟩ := List.exists_cons_of_ne_nil (List.splitOn_ne_nil '/' path.toList)
  have hlonger : segments (path ++ "/" ++ text) = first :: (others ++ segments text) := by
    have htoList : (path ++ "/" ++ text).toList = path.toList ++ '/' :: text.toList := by simp
    rw [segments, htoList, List.splitOn_append_cons_self, h]
    rfl
  have hnonempty' : path ++ "/" ++ text ≠ "" := by simp
  rw [parts_of_segments hlonger hnonempty', parts_of_segments h hnonempty, List.filterMap_append,
    List.append_assoc]
  rfl

/-- A path from the root. -/
theorem parts_slash (text : String) : parts ("/" ++ text) = .root :: steps text.toList := by
  have hlonger : segments ("/" ++ text) = [] :: segments text := by
    have htoList : ("/" ++ text).toList = [] ++ '/' :: text.toList := by simp
    rw [segments, htoList, List.splitOn_append_cons_self]
    rfl
  rw [parts_of_segments hlonger (by simp)]
  rfl

/-! ### Joined names

To join puts a slash between a directory and a name, unless one stands there already. Either way the
name is one more step. -/

/-- A joined path is never empty. -/
theorem join_ne_empty {directory : String} (hnonempty : directory ≠ "") (name : String) :
    join directory name ≠ "" := by
  unfold join
  split <;> simp [hnonempty]

/-- A directory with a slash at its end. -/
theorem exists_of_getLast?_slash {directory : String} (h : directory.toList.getLast? = some '/') :
    ∃ front, directory = front ++ "/" := by
  obtain ⟨front, hfront⟩ := List.getLast?_eq_some_iff.mp h
  refine ⟨String.ofList front, ?_⟩
  rw [← String.toList_inj, hfront]
  simp

/-- To join a name adds it to the parts, also behind a slash. -/
theorem parts_join {directory : String} (hnonempty : directory ≠ "") (h : isName name = true) :
    parts (join directory name) = parts directory ++ [.name name] := by
  unfold join
  split
  · next hslash =>
    obtain ⟨front, rfl⟩ := exists_of_getLast?_slash (beq_iff_eq.mp hslash)
    by_cases hempty : front = ""
    · rw [hempty, String.empty_append, parts_slash, steps_of_isName h]
      rfl
    · have hbare := parts_append hempty ""
      rw [String.append_empty, String.toList_empty, steps_nil, List.append_nil] at hbare
      rw [parts_append hempty, steps_of_isName h, hbare]
  · rw [parts_append hnonempty, steps_of_isName h]

/-- By induction on the names. -/
theorem parts_foldl_join {names : List String} (h : ∀ name ∈ names, isName name = true)
    {directory : String} (hnonempty : directory ≠ "") :
    parts (names.foldl join directory) = parts directory ++ names.map .name := by
  induction names generalizing directory with
  | nil => simp
  | cons name names ih =>
    rw [List.foldl_cons, ih (fun other hmem => h other (List.mem_cons_of_mem _ hmem))
      (join_ne_empty hnonempty name), parts_join hnonempty (h name List.mem_cons_self)]
    simp

/-- In a joined path a slash stands before the name. -/
theorem exists_join_eq (directory name : String) :
    ∃ front, join directory name = front ++ "/" ++ name := by
  unfold join
  split
  · next hslash =>
    obtain ⟨front, rfl⟩ := exists_of_getLast?_slash (beq_iff_eq.mp hslash)
    exact ⟨front, rfl⟩
  · exact ⟨directory, rfl⟩

/-- A path ends with the name that was joined last. -/
theorem getLast?_segments_join (h : isName name = true) (directory : String) :
    (segments (join directory name)).getLast? = some name.toList := by
  obtain ⟨front, hfront⟩ := exists_join_eq directory name
  have htoList : (front ++ "/" ++ name).toList = front.toList ++ '/' :: name.toList := by simp
  rw [hfront, segments, htoList, List.splitOn_append_cons_self,
    List.splitOn_eq_singleton (slash_notMem_of_isName h), List.getLast?_append]
  rfl

/-- The steps of a joined path, whatever stands before them. -/
theorem steps_join (h : isName name = true) (directory : String) :
    steps (join directory name).toList = steps directory.toList ++ [.name name] := by
  have happend : ∀ front : String, steps (front ++ "/" ++ name).toList =
      steps front.toList ++ [.name name] := by
    intro front
    have htoList : (front ++ "/" ++ name).toList = front.toList ++ '/' :: name.toList := by simp
    rw [htoList, steps_append, steps_of_isName h]
  unfold join
  split
  · next hslash =>
    obtain ⟨front, rfl⟩ := exists_of_getLast?_slash (beq_iff_eq.mp hslash)
    have htoList : (front ++ "/").toList = front.toList ++ '/' :: [] := by simp
    rw [happend, htoList, steps_append, steps_nil, List.append_nil]
  · exact happend directory

/-- By induction on the names. -/
theorem steps_foldl_join {names : List String} (h : ∀ name ∈ names, isName name = true)
    (directory : String) :
    steps (names.foldl join directory).toList = steps directory.toList ++ names.map .name := by
  induction names generalizing directory with
  | nil => simp
  | cons name names ih =>
    rw [List.foldl_cons, ih (fun other hmem => h other (List.mem_cons_of_mem _ hmem)),
      steps_join (h name List.mem_cons_self)]
    simp

/-- A character of a joined path is one of the path, of a name, or a slash. -/
theorem notMem_foldl_join {c : Char} (hslash : c ≠ '/') {names : List String}
    (h : ∀ name ∈ names, c ∉ name.toList) {directory : String} (hnotMem : c ∉ directory.toList) :
    c ∉ (names.foldl join directory).toList := by
  induction names generalizing directory with
  | nil => exact hnotMem
  | cons name names ih =>
    refine ih (fun other hmem => h other (List.mem_cons_of_mem _ hmem)) ?_
    have hown := h name List.mem_cons_self
    unfold join
    split <;> simp [hnotMem, hown, hslash]

/-- Joining further names keeps a path from being empty. -/
theorem foldl_join_ne_empty (names : List String) {directory : String}
    (hnonempty : directory ≠ "") :
    names.foldl join directory ≠ "" := by
  induction names generalizing directory with
  | nil => exact hnonempty
  | cons name names ih => exact ih (join_ne_empty hnonempty name)

/-! ### Plain paths

The paths that a walk of a directory makes: names joined one after the other, with a dot before them
if the walk starts at one. They are spelled in one way only, so that equal parts mean equal texts.
-/

/-- Names with a slash before each. -/
def spell (names : List String) : List Char :=
  names.flatMap fun name => '/' :: name.toList

@[simp] theorem spell_nil : spell [] = [] := rfl

@[simp] theorem spell_cons (name : String) (names : List String) :
    spell (name :: names) = '/' :: name.toList ++ spell names := rfl

@[simp] theorem spell_append (front behind : List String) :
    spell (front ++ behind) = spell front ++ spell behind :=
  List.flatMap_append

/-- A path of nothing but names. A dot comes first if it is `dotted` or there is no name. -/
def plain : Bool → List String → String
  | false, name :: names => names.foldl join name
  | _, names => names.foldl join "."

/-- Joining names to a plain path makes a plain path. -/
theorem foldl_join_plain (dotted : Bool) (front behind : List String) :
    behind.foldl join (plain dotted front) = plain (dotted || front.isEmpty) (front ++ behind) := by
  cases front with
  | nil => cases dotted <;> simp [plain]
  | cons name front => cases dotted <;> simp [plain, List.foldl_append]

/-- A name does not end with a slash. -/
theorem getLast?_ne_slash (h : isName name = true) : name.toList.getLast? ≠ some '/' :=
  fun hslash => slash_notMem_of_isName h (List.mem_of_getLast? hslash)

/-- Where no slash is at the end, every join adds one and the name. -/
theorem toList_foldl_join {names : List String} (h : ∀ name ∈ names, isName name = true)
    {directory : String} (hunslashed : directory.toList.getLast? ≠ some '/') :
    (names.foldl join directory).toList = directory.toList ++ spell names := by
  induction names generalizing directory with
  | nil => simp
  | cons name names ih =>
    have hname := h name List.mem_cons_self
    have hjoined : (join directory name).toList = directory.toList ++ '/' :: name.toList := by
      simp [join, hunslashed]
    have hunslashed' : (join directory name).toList.getLast? ≠ some '/' := by
      have hapart : directory.toList ++ '/' :: name.toList =
          directory.toList ++ ['/'] ++ name.toList := by simp
      rw [hjoined, hapart, List.getLast?_append]
      cases hlast : name.toList.getLast? with
      | none => exact absurd (List.getLast?_eq_none_iff.mp hlast) (toList_ne_nil_of_isName hname)
      | some c => simpa [hlast] using getLast?_ne_slash hname
    rw [List.foldl_cons, ih (fun other hmem => h other (List.mem_cons_of_mem _ hmem)) hunslashed',
      hjoined]
    simp

/-- A plain path as a text. -/
theorem toList_plain {names : List String} (h : ∀ name ∈ names, isName name = true)
    (dotted : Bool) : (plain dotted names).toList =
      if dotted || names.isEmpty then '.' :: spell names else (spell names).drop 1 := by
  have hbehindDot : (names.foldl join ".").toList = '.' :: spell names :=
    toList_foldl_join h (by decide)
  cases dotted with
  | true => simpa [plain] using hbehindDot
  | false =>
    cases names with
    | nil => rfl
    | cons name names =>
      have hname := h name List.mem_cons_self
      simpa [plain] using toList_foldl_join
        (fun other hmem => h other (List.mem_cons_of_mem _ hmem)) (getLast?_ne_slash hname)

/-- A plain path without names is a dot. -/
theorem plain_ne_empty {names : List String} (h : ∀ name ∈ names, isName name = true)
    (dotted : Bool) : plain dotted names ≠ "" := by
  unfold plain
  split
  · exact foldl_join_ne_empty _ (ne_empty_of_isName (h _ List.mem_cons_self))
  · exact foldl_join_ne_empty _ (by decide)

/-- A name alone is one part. -/
theorem parts_of_isName (h : isName name = true) : parts name = [.name name] := by
  have hsingle : segments name = [name.toList] :=
    List.splitOn_eq_singleton (slash_notMem_of_isName h)
  rw [parts_of_segments hsingle (ne_empty_of_isName h), ofSegment?_of_isName h]
  rfl

/-- The parts are the names, with a dot before them if one is written. -/
theorem parts_plain {names : List String} (h : ∀ name ∈ names, isName name = true) (dotted : Bool) :
    parts (plain dotted names) =
      (if dotted || names.isEmpty then [.here] else []) ++ names.map .name := by
  have hbehindDot : parts (names.foldl join ".") = [.here] ++ names.map .name :=
    parts_foldl_join h (by decide)
  cases dotted with
  | true => simpa [plain] using hbehindDot
  | false =>
    cases names with
    | nil => decide
    | cons name names =>
      have hname := h name List.mem_cons_self
      have hbehind := parts_foldl_join (fun other hmem => h other (List.mem_cons_of_mem _ hmem))
        (ne_empty_of_isName hname)
      rw [parts_of_isName hname] at hbehind
      simpa [plain] using hbehind

/-- A plain path with a name is no dot. -/
theorem plain_cons_ne_here {names : List String} (h : ∀ other ∈ name :: names, isName other = true)
    (dotted : Bool) : plain dotted (name :: names) ≠ "." := by
  intro hhere
  have hparts := parts_plain h dotted
  rw [hhere, show parts "." = [.here] by decide] at hparts
  split at hparts <;> simp at hparts

/-- A character of a plain path is a dot, a slash, or one of a name. -/
theorem mem_plain {names : List String} (h : ∀ name ∈ names, isName name = true) {dotted : Bool}
    {c : Char} (hmem : c ∈ (plain dotted names).toList) :
    c = '.' ∨ c = '/' ∨ ∃ name ∈ names, c ∈ name.toList := by
  have hspelled : ∀ {cs : List Char}, cs ⊆ spell names → c ∈ cs →
      c = '/' ∨ ∃ name ∈ names, c ∈ name.toList := by
    intro cs hinside hinCs
    obtain ⟨name, hmemname, hown⟩ := List.mem_flatMap.mp (hinside hinCs)
    rcases List.mem_cons.mp hown with hslash | hown
    · exact .inl hslash
    · exact .inr ⟨name, hmemname, hown⟩
  rw [toList_plain h] at hmem
  split at hmem
  · rcases List.mem_cons.mp hmem with hdot | hinside
    · exact .inl hdot
    · exact .inr (hspelled (List.Subset.refl _) hinside)
  · exact .inr (hspelled (List.drop_subset 1 _) hmem)

/-- The steps are the names in any case. -/
theorem steps_plain {names : List String} (h : ∀ name ∈ names, isName name = true) (dotted : Bool) :
    steps (plain dotted names).toList = names.map .name := by
  have hbehindDot : steps (names.foldl join ".").toList = [] ++ names.map .name :=
    steps_foldl_join h "."
  cases dotted with
  | true => simpa [plain] using hbehindDot
  | false =>
    cases names with
    | nil => decide
    | cons name names =>
      rw [plain, steps_foldl_join fun other hmem => h other (List.mem_cons_of_mem _ hmem),
        steps_of_isName (h name List.mem_cons_self)]
      rfl

/-! ### The directory of a path

What stands before the last segment, without the slashes between. It is found from the end of the
text, so that the lemmas are about the text in reverse. -/

/-- Taking slashes and dots off the end takes off no step. -/
theorem steps_trimReversed (cs : List Char) :
    steps (trimReversed cs).reverse = steps cs.reverse := by
  fun_induction trimReversed cs with
  | case1 cs ih => rw [ih, List.reverse_cons, steps_append, steps_nil, List.append_nil]
  | case2 cs ih =>
    have hapart : ('.' :: '/' :: cs).reverse = cs.reverse ++ '/' :: ['.'] := by simp
    rw [ih, hapart, steps_append, steps_dot, List.append_nil]
  | case3 cs => rfl

/-- What is taken off stands at the end. -/
theorem trimReversed_suffix (cs : List Char) : trimReversed cs <:+ cs := by
  fun_induction trimReversed cs with
  | case1 cs ih => exact ih.trans (List.suffix_cons _ _)
  | case2 cs ih => exact ih.trans ((List.suffix_cons _ _).trans (List.suffix_cons _ _))
  | case3 cs => exact List.suffix_refl _

/-- What stands behind the last slash of a path. -/
def lastSegment (path : String) : List Char :=
  (path.toList.reverse.takeWhile (· != '/')).reverse

/-- The last segment is one segment. -/
theorem slash_notMem_lastSegment (path : String) : '/' ∉ lastSegment path := by
  intro hmem
  have hkept := List.all_eq_true.mp (@List.all_takeWhile _ (· != '/') path.toList.reverse) '/'
    (List.mem_reverse.mp hmem)
  simp at hkept

/-- A path is its last segment, or has it behind a slash; the directory has all steps before it. -/
theorem eq_lastSegment_or (path : String) :
    path.toList = lastSegment path ∧ directory path = "" ∨
      ∃ front, path.toList = front ++ '/' :: lastSegment path ∧
        directory path = String.ofList (trimReversed front.reverse).reverse := by
  have hwhole : path.toList =
      (path.toList.reverse.dropWhile (· != '/')).reverse ++ lastSegment path := by
    rw [lastSegment, ← List.reverse_append, List.takeWhile_append_dropWhile, List.reverse_reverse]
  cases hbehind : path.toList.reverse.dropWhile (· != '/') with
  | nil =>
    rw [hbehind] at hwhole
    exact .inl ⟨hwhole, by rw [directory, hbehind]; rfl⟩
  | cons c front =>
    have hslash : c = '/' := by
      have hstops := List.head_dropWhile_not (· != '/') (l := path.toList.reverse)
        (by simp [hbehind])
      simpa [hbehind] using hstops
    subst hslash
    refine .inr ⟨front.reverse, ?_, ?_⟩
    · rw [hbehind] at hwhole
      simpa using hwhole
    · rw [directory, hbehind, trimReversed, List.reverse_reverse]

/-- Nothing is taken off a name. -/
theorem trimReversed_of_isName (h : isName name = true) (rest : List Char) :
    trimReversed (name.toList.reverse ++ rest) = name.toList.reverse ++ rest := by
  have hunslashed : '/' ∉ name.toList.reverse := by
    rw [List.mem_reverse]
    exact slash_notMem_of_isName h
  cases hchars : name.toList.reverse with
  | nil => exact absurd (List.reverse_eq_nil_iff.mp hchars) (toList_ne_nil_of_isName h)
  | cons c cs =>
    rw [hchars] at hunslashed
    rw [List.cons_append]
    unfold trimReversed
    split
    · next heq => simp_all
    · next heq =>
      cases cs with
      | nil =>
        have hdot : name.toList = ['.'] := by
          rw [← List.reverse_reverse name.toList, hchars]
          simp_all
        simp [isName, hdot] at h
      | cons d cs => simp_all
    · rfl

/-- A plain path ends with its last name, behind a slash unless it is all there is. -/
theorem exists_toList_plain {front : List String} {last : String}
    (h : ∀ name ∈ front ++ [last], isName name = true) (dotted : Bool) :
    (plain dotted (front ++ [last])).toList = last.toList ∨
      ∃ before, (plain dotted (front ++ [last])).toList = before ++ '/' :: last.toList := by
  rw [toList_plain h]
  split
  · exact .inr ⟨'.' :: spell front, by simp⟩
  · cases front with
    | nil => exact .inl (by simp)
    | cons name front => exact .inr ⟨name.toList ++ spell front, by simp⟩

/-- A plain path does not end with a slash. -/
theorem getLast?_plain {names : List String} (h : ∀ name ∈ names, isName name = true)
    (dotted : Bool) : (plain dotted names).toList.getLast? ≠ some '/' := by
  rcases List.eq_nil_or_concat names with rfl | ⟨front, last, rfl⟩
  · cases dotted <;> decide
  · rw [List.concat_eq_append] at h ⊢
    have hunslashed := getLast?_ne_slash (h last (by simp))
    rcases exists_toList_plain h dotted with hwhole | ⟨before, hwhole⟩
    · rwa [hwhole]
    · have hne := toList_ne_nil_of_isName (h last (by simp))
      rw [hwhole, List.getLast?_append, List.getLast?_cons_of_ne_nil hne]
      cases hbehind : last.toList.getLast? with
      | none => exact absurd (List.getLast?_eq_none_iff.mp hbehind) hne
      | some c => simpa [hbehind] using hunslashed

/-- One more name, behind a slash. -/
theorem plain_concat {front : List String} (h : ∀ name ∈ front, isName name = true) (last : String)
    (dotted : Bool) : plain dotted (front ++ [last]) =
      if dotted || !front.isEmpty then plain dotted front ++ "/" ++ last else last := by
  have hunslashed := getLast?_plain h dotted
  split
  · next hdot =>
    have hsame : (dotted || front.isEmpty) = dotted := by cases dotted <;> simp_all
    have hjoined := foldl_join_plain dotted front [last]
    rw [hsame] at hjoined
    rw [← hjoined, List.foldl_cons, List.foldl_nil, join, if_neg (by simpa using hunslashed)]
  · next hbare =>
    simp only [Bool.or_eq_true, Bool.not_eq_true', not_or, Bool.not_eq_true, Bool.not_eq_false,
      List.isEmpty_iff] at hbare
    obtain ⟨rfl, rfl⟩ := hbare
    rfl

/-- A plain path is the directory of each of its names. -/
theorem directory_plain {names : List String} (h : ∀ name ∈ names, isName name = true)
    (hname : isName name = true) (dotted : Bool) :
    directory (plain dotted names ++ "/" ++ name) = plain dotted names := by
  -- nothing is taken off behind a dot or a name
  have htrimmed : trimReversed (plain dotted names).toList.reverse =
      (plain dotted names).toList.reverse := by
    rcases List.eq_nil_or_concat names with rfl | ⟨front, last, rfl⟩
    · cases dotted <;> decide
    · rw [List.concat_eq_append] at h ⊢
      have hlast := h last (by simp)
      rcases exists_toList_plain h dotted with hwhole | ⟨before, hwhole⟩
      · simpa [hwhole] using trimReversed_of_isName hlast []
      · simpa [hwhole] using trimReversed_of_isName hlast ('/' :: before.reverse)
  have hbehind : (plain dotted names ++ "/" ++ name).toList.reverse.dropWhile (· != '/') =
      '/' :: (plain dotted names).toList.reverse := by
    have hunslashed : ∀ c ∈ name.toList.reverse, (c != '/') = true := by
      intro c hmem
      rw [List.mem_reverse] at hmem
      exact bne_iff_ne.mpr fun hslash => slash_notMem_of_isName hname (hslash ▸ hmem)
    simp only [String.toList_append, List.reverse_append, List.append_assoc]
    rw [List.dropWhile_append_of_pos hunslashed]
    rfl
  rw [directory, hbehind, trimReversed, htrimmed, List.reverse_reverse, String.ofList_toList]

/-- The last of the segments is what stands behind the last slash. -/
theorem getLast?_segments (path : String) : (segments path).getLast? = some (lastSegment path) := by
  have hsingle := List.splitOn_eq_singleton (slash_notMem_lastSegment path)
  rcases eq_lastSegment_or path with ⟨hwhole, -⟩ | ⟨front, hwhole, -⟩
  · rw [segments, hwhole, hsingle]
    rfl
  · rw [segments, hwhole, List.splitOn_append_cons_self, hsingle, List.getLast?_append]
    rfl

/-- The directory is made of characters of the path. -/
theorem directory_subset (path : String) : (directory path).toList ⊆ path.toList := by
  rcases eq_lastSegment_or path with ⟨-, hempty⟩ | ⟨front, hwhole, hrest⟩
  · rw [hempty]
    exact List.nil_subset _
  · intro c hmem
    rw [hrest, String.toList_ofList, List.mem_reverse] at hmem
    have hinFront := (trimReversed_suffix front.reverse).subset hmem
    rw [hwhole]
    exact List.mem_append_left _ (List.mem_reverse.mp hinFront)

/-- A name alone has no directory. -/
theorem directory_of_isName (h : isName name = true) : directory name = "" := by
  rcases eq_lastSegment_or name with ⟨-, hempty⟩ | ⟨front, hwhole, -⟩
  · exact hempty
  · exact absurd (by simp [hwhole]) (slash_notMem_of_isName h)

/-- The steps of a path are those of its directory and the one of its last segment. -/
theorem steps_directory (path : String) :
    steps path.toList = steps (directory path).toList ++ steps (lastSegment path) := by
  rcases eq_lastSegment_or path with ⟨hwhole, hempty⟩ | ⟨front, hwhole, hrest⟩
  · rw [hempty, ← hwhole]
    rfl
  · rw [hrest, String.toList_ofList, steps_trimReversed, List.reverse_reverse, ← steps_append,
      ← hwhole]

/-! ### Extensions

Which files are taken depends on the extension of their name only, and the name is the last part of
the path. -/

/-- An extension is what stands behind the last dot, if something stands before it. -/
theorem extensionOf?_eq_some_iff {cs extension : List Char} :
    extensionOf? cs = some extension ↔
      '.' ∉ extension ∧ ∃ front, front ≠ [] ∧ cs = front ++ '.' :: extension := by
  constructor
  · intro h
    -- There is an extension if what stands behind the last dot is shorter than the name by two at
    -- least: by the dot, and by what stands before it.
    simp only [extensionOf?] at h
    split at h
    · next hshorter =>
      cases h
      have hdotless : ∀ c ∈ cs.reverse.takeWhile (· != '.'), c ≠ '.' := by
        intro c hmem
        exact bne_iff_ne.mp (List.all_eq_true.mp List.all_takeWhile c hmem)
      have hwhole := @List.takeWhile_append_dropWhile _ (· != '.') cs.reverse
      refine ⟨fun hmem => hdotless _ (List.mem_reverse.mp hmem) rfl, ?_⟩
      cases hbehind : cs.reverse.dropWhile (· != '.') with
      | nil =>
        rw [hbehind, List.append_nil] at hwhole
        rw [List.length_reverse, hwhole, List.length_reverse] at hshorter
        omega
      | cons c front =>
        have hdot : c = '.' := by
          have hstops := List.head_dropWhile_not (· != '.') (l := cs.reverse) (by simp [hbehind])
          simpa [hbehind] using hstops
        subst hdot
        rw [hbehind] at hwhole
        have hequal : cs = front.reverse ++ '.' :: (cs.reverse.takeWhile (· != '.')).reverse := by
          have hreversed := congrArg List.reverse hwhole
          simpa using hreversed.symm
        refine ⟨front.reverse, ?_, hequal⟩
        rintro hempty
        rw [hempty, List.nil_append] at hequal
        have hlength := congrArg List.length hequal
        rw [List.length_cons] at hlength
        omega
    · cases h
  · rintro ⟨hdotless, front, hne, rfl⟩
    have hkept : (front ++ '.' :: extension).reverse.takeWhile (· != '.') = extension.reverse := by
      have hall : ∀ c ∈ extension.reverse, (c != '.') = true := by
        intro c hmem
        exact bne_iff_ne.mpr fun hdot => hdotless (hdot ▸ List.mem_reverse.mp hmem)
      rw [List.reverse_append, List.reverse_cons, List.append_assoc,
        List.takeWhile_append_of_pos hall]
      simp
    have hlonger : 0 < front.length := List.length_pos_iff.mpr hne
    simp only [extensionOf?, hkept, List.reverse_reverse, List.length_append, List.length_cons]
    rw [if_pos (by omega)]

/-- A path that ends with a name has the extension of the name. -/
theorem extension?_eq_vue_iff {path : String} {front : List Part}
    (h : parts path = front ++ [.name name]) : extension? path = some "vue" ↔
      ∃ stem, stem ≠ [] ∧ name.toList = stem ++ ".vue".toList := by
  rw [extension?, h, List.getLast?_append]
  simp only [List.getLast?_singleton, Option.some_or, Option.map_eq_some_iff]
  constructor
  · rintro ⟨extension, hfound, hsame⟩
    obtain rfl : extension = "vue".toList := by rw [← hsame, String.toList_ofList]
    exact (extensionOf?_eq_some_iff.mp hfound).2
  · intro hstem
    exact ⟨"vue".toList, extensionOf?_eq_some_iff.mpr ⟨by decide, hstem⟩, by simp⟩

end VueSetup.Path
