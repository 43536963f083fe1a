import VueSetup.Prop.Table

/-!
# VueSetup.Proofs.Prop.Table

Which props a `props` object gives, and in which order (`PropTable.ofComponent_exact`).

Keys are collected in one pass through the members, and their values are looked up one by one in
another. Both are described here by the members alone: `Node.HasKey` says that a member counts under
a key, and `Node.First` that no member before it does. That one key comes before another is said by
a front part of the members in which the one occurs and the other does not.
-/

namespace VueSetup

open Script (Node)

namespace Script.Node

/-! ### Members and their keys

A member counts under a key if the key is plain to see, as a word or as a string. The first member
with a key hides all others with it. -/

/-- The member has the key, which is a word or a string and not computed, and the value. -/
def HasKey (m : Node) (key : String) (value : Node) : Prop :=
  ∃ span keySpan, m = .property span false (.plainName keySpan key) value ∨
    m = .property span false (.string keySpan key) value

/-- One of the members has the key. -/
def Occurs (members : List Node) (key : String) : Prop :=
  ∃ m ∈ members, ∃ value, m.HasKey key value

/-- The first of the members that has the key has the value. -/
def First (members : List Node) (key : String) (value : Node) : Prop :=
  ∃ before m behind, members = before ++ m :: behind ∧ m.HasKey key value ∧ ¬ Occurs before key

/-- A word or a string is a key, and nothing else. -/
theorem keyName?_eq_some_iff {n : Node} {key : String} :
    n.keyName? = some key ↔ ∃ span, n = .plainName span key ∨ n = .string span key := by
  cases n <;> simp [keyName?, eq_comm]

/-- A property has a key unless it is computed. -/
@[simp] theorem hasKey_property_iff {span : Span} {computed : Bool} {node v : Node} {key : String}
    {value : Node} : (property span computed node v).HasKey key value ↔
      computed = false ∧ node.keyName? = some key ∧ v = value := by
  rw [keyName?_eq_some_iff]
  constructor
  · rintro ⟨_, keySpan, h | h⟩
    · cases h
      exact ⟨rfl, ⟨keySpan, .inl rfl⟩, rfl⟩
    · cases h
      exact ⟨rfl, ⟨keySpan, .inr rfl⟩, rfl⟩
  · rintro ⟨rfl, ⟨keySpan, rfl | rfl⟩, rfl⟩
    · exact ⟨span, keySpan, .inl rfl⟩
    · exact ⟨span, keySpan, .inr rfl⟩

/-- A look-up among one member tells whether it has the key. -/
theorem findProperty?_singleton_iff {m : Node} {key : String} {value : Node} :
    (findProperty? [m] key).map Property.value = some value ↔ m.HasKey key value := by
  cases m
  case property span computed node v =>
    cases computed with
    | true => simp [findProperty?]
    | false => by_cases hkey : node.keyName? = some key <;> simp [findProperty?, hkey]
  all_goals simp [findProperty?, HasKey]

/-- A look-up among members is one among the first and then among the rest. -/
theorem findProperty?_cons (m : Node) (members : List Node) (key : String) :
    findProperty? (m :: members) key = (findProperty? [m] key).or (findProperty? members key) := by
  rw [← List.singleton_append]
  exact List.findSome?_append

/-- A look-up finds nothing exactly if no member has the key. -/
theorem findProperty?_eq_none_iff {members : List Node} {key : String} :
    findProperty? members key = none ↔ ¬ Occurs members key := by
  induction members with
  | nil => simp [findProperty?, Occurs]
  | cons m members ih =>
    rw [findProperty?_cons, Option.or_eq_none_iff, ih]
    have hm : findProperty? [m] key = none ↔ ¬ ∃ value, m.HasKey key value := by
      simp only [← findProperty?_singleton_iff, ← Option.isSome_iff_exists, Option.isSome_map,
        Bool.not_eq_true, Option.isSome_eq_false_iff, Option.isNone_iff_eq_none]
    rw [hm]
    simp [Occurs]

/-- A look-up finds something if the key occurs. -/
theorem isSome_findProperty?_iff {members : List Node} {key : String} :
    (findProperty? members key).isSome ↔ Occurs members key := by
  cases h : findProperty? members key with
  | none => simpa using findProperty?_eq_none_iff.mp h
  | some p => simpa using Classical.not_not.mp (mt findProperty?_eq_none_iff.mpr (by simp [h]))

/-- A look-up finds the first member with the key. -/
theorem findProperty?_iff_first {members : List Node} {key : String} {value : Node} :
    (findProperty? members key).map Property.value = some value ↔ First members key value := by
  constructor
  · intro h
    induction members with
    | nil => cases h
    | cons m members ih =>
      rw [findProperty?_cons] at h
      cases hm : findProperty? [m] key with
      | some p =>
        rw [hm] at h
        exact ⟨[], m, members, rfl, findProperty?_singleton_iff.mp (hm ▸ h), by simp [Occurs]⟩
      | none =>
        rw [hm] at h
        obtain ⟨before, m', behind, rfl, hkey, hbefore⟩ := ih h
        refine ⟨m :: before, m', behind, rfl, hkey, ?_⟩
        rw [← findProperty?_eq_none_iff] at hbefore ⊢
        rw [findProperty?_cons, hm, hbefore]
        rfl
  · rintro ⟨before, m, behind, rfl, hkey, hbefore⟩
    rw [← findProperty?_eq_none_iff] at hbefore
    have hm := findProperty?_singleton_iff.mpr hkey
    rw [findProperty?, List.findSome?_append, ← findProperty?, ← findProperty?, hbefore,
      Option.none_or, findProperty?_cons]
    cases hp : findProperty? [m] key with
    | some p => rw [hp] at hm; exact hm
    | none => rw [hp] at hm; cases hm

end Script.Node

/-! ### Distinct keys in order

Keys are listed in the order in which they occur first. -/

/-- What is left of a list without repetitions comes in the order of the first occurrences: some
front part of the list has the one and not the other. -/
theorem pairwise_eraseDups (keys : List String) : keys.eraseDups.Pairwise fun a b =>
    ∃ front back, keys = front ++ back ∧ a ∈ front ∧ b ∉ front := by
  match keys with
  | [] => exact .nil
  | key :: keys =>
    rw [List.eraseDups_cons, List.pairwise_cons]
    have hother : ∀ {b}, b ∈ (keys.filter fun b => !b == key).eraseDups → b ≠ key := by
      intro b hb
      simpa using (List.mem_filter.mp (List.mem_eraseDups.mp hb)).2
    refine ⟨fun b hb => ⟨[key], keys, rfl, by simp, by simpa using hother hb⟩, ?_⟩
    refine (pairwise_eraseDups (keys.filter fun b => !b == key)).imp_of_mem fun ha hb hab => ?_
    obtain ⟨front, back, hsplit, hafront, hbfront⟩ := hab
    -- a front part of what is filtered comes from a front part of all
    obtain ⟨front', back', rfl, rfl, -⟩ := List.filter_eq_append_iff.mp hsplit
    refine ⟨key :: front', back', rfl, ?_, ?_⟩
    · exact List.mem_cons_of_mem _ (List.mem_filter.mp hafront).1
    · intro hmem
      rcases List.mem_cons.mp hmem with rfl | hmem
      · exact hother hb rfl
      · exact hbfront (List.mem_filter.mpr ⟨hmem, by simpa using hother hb⟩)
termination_by keys.length
decreasing_by exact Nat.lt_succ_of_le (List.length_filter_le _ _)

namespace PropTable

/-- The key under which a member counts. -/
def memberKey? : Node → Option String
  | .property _ false key _ => key.keyName?
  | _ => none

/-- The key of a member is the one that it has. -/
theorem memberKey?_eq_some_iff {m : Node} {key : String} :
    memberKey? m = some key ↔ ∃ value, m.HasKey key value := by
  cases m
  case property span computed node v => cases computed <;> simp [memberKey?]
  all_goals simp [memberKey?, Node.HasKey]

/-- The keys are those of the members, without repetitions. -/
theorem keys_eq (members : List Node) : keys members =
    (members.filterMap memberKey?).eraseDups := by
  rw [keys]
  congr 2

/-- A key of a member occurs among the members. -/
theorem mem_filterMap_memberKey? {members : List Node} {key : String} :
    key ∈ members.filterMap memberKey? ↔ Node.Occurs members key := by
  simp only [List.mem_filterMap, memberKey?_eq_some_iff, Node.Occurs]

/-- The first key occurs in a front part of the members in which the second one does not. -/
def Before (members : List Node) (a b : String) : Prop :=
  ∃ front back, members = front ++ back ∧ Node.Occurs front a ∧ ¬ Node.Occurs front b

/-- Keys come in the order of their first members. -/
theorem pairwise_keys (members : List Node) : (keys members).Pairwise (Before members) := by
  rw [keys_eq]
  refine (pairwise_eraseDups _).imp fun hab => ?_
  obtain ⟨front, back, hsplit, ha, hb⟩ := hab
  obtain ⟨front', back', rfl, rfl, -⟩ := List.filterMap_eq_append_iff.mp hsplit
  rw [mem_filterMap_memberKey?] at ha hb
  exact ⟨front', back', rfl, ha, hb⟩

/-- Each key has a first member. -/
theorem mem_keys_iff {members : List Node} {key : String} :
    key ∈ keys members ↔ ∃ value, Node.First members key value := by
  simp only [keys_eq, List.mem_eraseDups, mem_filterMap_memberKey?, ← Node.findProperty?_iff_first,
    ← Option.isSome_iff_exists, Option.isSome_map, Node.isSome_findProperty?_iff]

/-! ### Records

Each key is looked up on its own, and only the value that is found makes its record. A value that
tells no type makes none, even if a later member with the same key has another value. -/

/-- The value tells the type of a prop: it is a name, an array, or an object with a `type`. -/
def TellsType : Node → Prop
  | .reference _ _ => True
  | .array _ _ => True
  | .object _ members => Node.Occurs members "type"
  | _ => False

variable {source : List Char}

/-- A record is listed under its key. -/
theorem key_of_record? {key : String} {value : Node} {r : PropRecord}
    (h : record? source key value = some r) : r.key = key := by
  unfold record? at h
  split at h
  · cases h
    rfl
  · cases h
    rfl
  · obtain ⟨type, -, h⟩ := Option.bind_eq_some_iff.mp h
    cases h
    rfl
  · cases h

/-- A default is the text of its value. -/
theorem text_of_defaultOf? {value : Node} {d : PropDefault} (h : defaultOf? source value = some d) :
    d.text = textOf source value := by
  unfold defaultOf? at h
  dsimp only at h
  split at h
  case h_8 => cases h
  all_goals
    cases h
    rfl

/-- There is a record exactly for a value that tells a type. -/
theorem isSome_record?_iff {key : String} {value : Node} :
    (record? source key value).isSome ↔ TellsType value := by
  cases value
  case reference => simp [record?, TellsType]
  case array => simp [record?, TellsType]
  case object span members =>
    rw [TellsType, ← Node.isSome_findProperty?_iff, record?]
    cases findProperty? members "type" <;> simp
  all_goals simp [record?, TellsType]

/-- The first `required` counts, if it is written as `true` or `false`. -/
theorem requiredFlag?_eq_some_iff {members : List Node} {flag : Bool} :
    requiredFlag? members = some flag ↔
      ∃ span, Node.First members "required" (.boolean span flag) := by
  simp only [← Node.findProperty?_iff_first, requiredFlag?]
  split
  · next span value h =>
    rw [h]
    simp
  · next hother =>
    simp only [reduceCtorEq, false_iff, not_exists]
    exact fun span h => hother span flag h

/-- A prop must be given exactly if its value is an object that says so. -/
theorem optional_eq_false_iff {key : String} {value : Node} {r : PropRecord}
    (h : record? source key value = some r) : r.optional = false ↔
      ∃ span members flagSpan, value = .object span members ∧
        Node.First members "required" (.boolean flagSpan true) := by
  have hrequired : r.optional = false ↔ r.required = some true := by
    simp [PropRecord.optional]
  rw [hrequired]
  unfold record? at h
  split at h
  · cases h
    simp
  · cases h
    simp
  · next span members =>
    obtain ⟨type, -, h⟩ := Option.bind_eq_some_iff.mp h
    cases h
    rw [requiredFlag?_eq_some_iff]
    constructor
    · rintro ⟨flagSpan, hfirst⟩
      exact ⟨span, members, flagSpan, rfl, hfirst⟩
    · rintro ⟨_, _, flagSpan, heq, hfirst⟩
      cases heq
      exact ⟨flagSpan, hfirst⟩
  · cases h

/-- The records are those of the first members. -/
theorem mem_ofMembers_iff {members : List Node} {r : PropRecord} :
    r ∈ ofMembers source members ↔
      ∃ value, Node.First members r.key value ∧ record? source r.key value = some r := by
  simp only [ofMembers, List.mem_filterMap]
  constructor
  · rintro ⟨key, -, h⟩
    obtain ⟨p, hp, hr⟩ := Option.bind_eq_some_iff.mp h
    obtain rfl := key_of_record? hr
    exact ⟨p.value, Node.findProperty?_iff_first.mp (by rw [hp]; rfl), hr⟩
  · rintro ⟨value, hfirst, hr⟩
    refine ⟨r.key, mem_keys_iff.mpr ⟨value, hfirst⟩, ?_⟩
    obtain ⟨p, hp, rfl⟩ := Option.map_eq_some_iff.mp (Node.findProperty?_iff_first.mpr hfirst)
    rw [hp]
    exact hr

/-- They come in the order of these. -/
theorem pairwise_ofMembers (source : List Char) (members : List Node) :
    (ofMembers source members).Pairwise fun r r' => Before members r.key r'.key := by
  rw [ofMembers, List.pairwise_filterMap]
  refine (pairwise_keys members).imp fun hab r hr r' hr' => ?_
  obtain ⟨p, -, hr⟩ := Option.bind_eq_some_iff.mp hr
  obtain ⟨p', -, hr'⟩ := Option.bind_eq_some_iff.mp hr'
  rwa [key_of_record? hr, key_of_record? hr']

/-- An object under `props` gives the table. -/
theorem ofComponent_of_first {c : Component} {span : Span} {members : List Node}
    (h : Node.First c.members "props" (.object span members)) :
    ofComponent source c = ofMembers source members := by
  rw [ofComponent, Component.property?, Node.findProperty?_iff_first.mpr h]

/-- Anything else gives none. -/
theorem ofComponent_of_not_first {c : Component}
    (h : ∀ span members, ¬ Node.First c.members "props" (.object span members)) :
    ofComponent source c = [] := by
  unfold ofComponent
  split
  · next span members hprops =>
      exact absurd (Node.findProperty?_iff_first.mp hprops) (h span members)
  · rfl

/-- **The table of props is exact.** Let the first `props` of a component that is not computed be an
object. Then the keys of the table are those of its members' keys, words or strings that are not
computed, whose first member has a name, an array, or an object with a `type` as its value. Each key
has one record, and they come in the order of the first members. A record is made of the value of
the first member with its key and of nothing else, and it may not be left out exactly if that value
is an object whose first `required` is `true`. A component without such an object has an empty
table. -/
theorem ofComponent_exact (source : List Char) (c : Component) :
    (∀ span members, Node.First c.members "props" (.object span members) →
      (∀ key, key ∈ (ofComponent source c).map PropRecord.key ↔
        ∃ value, Node.First members key value ∧ TellsType value) ∧
      ((ofComponent source c).map PropRecord.key).Nodup ∧
      (ofComponent source c).Pairwise (fun r r' => ∃ front back, members = front ++ back ∧
        Node.Occurs front r.key ∧ ¬ Node.Occurs front r'.key) ∧
      ∀ r ∈ ofComponent source c, ∃ value, Node.First members r.key value ∧
        record? source r.key value = some r ∧
        (r.optional = false ↔ ∃ span members flagSpan, value = .object span members ∧
          Node.First members "required" (.boolean flagSpan true))) ∧
    ((∀ span members, ¬ Node.First c.members "props" (.object span members)) →
      ofComponent source c = []) := by
  refine ⟨fun span members hprops => ?_, ofComponent_of_not_first⟩
  rw [ofComponent_of_first hprops]
  have hordered := pairwise_ofMembers source members
  refine ⟨fun key => ?_, ?_, hordered, fun r hr => ?_⟩
  · rw [List.mem_map]
    constructor
    · rintro ⟨r, hr, rfl⟩
      obtain ⟨value, hfirst, hrecord⟩ := mem_ofMembers_iff.mp hr
      exact ⟨value, hfirst, isSome_record?_iff.mp (Option.isSome_of_eq_some hrecord)⟩
    · rintro ⟨value, hfirst, htells⟩
      have hsome : (record? source key value).isSome = true := isSome_record?_iff.mpr htells
      obtain ⟨r, hrecord⟩ := Option.isSome_iff_exists.mp hsome
      obtain rfl := key_of_record? hrecord
      exact ⟨r, mem_ofMembers_iff.mpr ⟨value, hfirst, hrecord⟩, rfl⟩
  · rw [List.Nodup, List.pairwise_map]
    refine hordered.imp fun hbefore heq => ?_
    obtain ⟨front, back, -, ha, hb⟩ := hbefore
    exact hb (heq ▸ ha)
  · obtain ⟨value, hfirst, hrecord⟩ := mem_ofMembers_iff.mp hr
    exact ⟨value, hfirst, hrecord, optional_eq_false_iff hrecord⟩

/-- The props of `{ props: { 'b-c': { type: A }, a: A, [a]: A, 'a': f, d: {} } }`, with a repeated
key, a computed one and a value that tells no type. -/
def mixedProps : List Node :=
  [.property ⟨11, 27⟩ false (.string ⟨11, 16⟩ "b-c") (.object ⟨18, 29⟩
      [.property ⟨20, 27⟩ false (.plainName ⟨20, 24⟩ "type") (.reference ⟨26, 27⟩ "A")]),
    .property ⟨31, 35⟩ false (.plainName ⟨31, 32⟩ "a") (.reference ⟨34, 35⟩ "A"),
    .property ⟨37, 43⟩ true (.reference ⟨38, 39⟩ "a") (.reference ⟨42, 43⟩ "A"),
    .property ⟨45, 51⟩ false (.string ⟨45, 48⟩ "a") (.reference ⟨50, 51⟩ "f"),
    .property ⟨53, 58⟩ false (.plainName ⟨53, 54⟩ "d") (.object ⟨56, 58⟩ [])]

theorem ofComponent_exact_mixedProps :
    let c : Component := ⟨⟨0, 62⟩,
      [.property ⟨2, 60⟩ false (.plainName ⟨2, 7⟩ "props") (.object ⟨9, 60⟩ mixedProps)]⟩
    Node.First c.members "props" (.object ⟨9, 60⟩ mixedProps) ∧
      (ofComponent [] c).map PropRecord.key = ["b-c", "a"] ∧
      ∀ key, key ∈ ["b-c", "a"] ↔ ∃ value, Node.First mixedProps key value ∧ TellsType value := by
  intro c
  have hfirst : Node.First c.members "props" (.object ⟨9, 60⟩ mixedProps) :=
    Node.findProperty?_iff_first.mp rfl
  have hkeys : (ofComponent [] c).map PropRecord.key = ["b-c", "a"] := by
    decide +kernel
  refine ⟨hfirst, hkeys, fun key => ?_⟩
  rw [← hkeys]
  exact ((ofComponent_exact [] c).1 _ _ hfirst).1 key

end PropTable

end VueSetup
