import VueSetup.Proofs.Sfc.Located

/-!
# VueSetup.Proofs.Sfc.Tag

What is read of an opening tag depends on the tag alone, whatever follows it, and an attribute that
is put in right behind the tag's name leaves the others as they were.

A tag is not asked to be well spelled. This is why an attribute without a value can go wrong: where
a lone `=` follows the name, what stands behind it becomes the value of the new attribute.
-/

namespace VueSetup.Sfc

/-! ### Attributes in the order of reading

The attributes of a tag are kept with the last value that was given to each. To compare two tags,
the attributes are listed as they are read, and set afterwards. -/

/-- Set attributes, one after the other. -/
def Attributes.insertAll (attrs : Attributes) (entries : List (String × String)) : Attributes :=
  entries.foldl (fun attrs entry => attrs.insert entry.1 entry.2) attrs

namespace Attributes

/-- The first entry of a list counts. -/
theorem lookup_cons (key name value : String) (attrs : List (String × String)) :
    List.lookup key ((name, value) :: attrs) = if key =
      name then some value else attrs.lookup key := by
  rw [List.lookup_cons]
  by_cases h : key = name
  · simp [h]
  · rw [beq_false_of_ne h, if_neg h]

/-- An attribute that is set has its value, and the others keep theirs. -/
theorem lookup_insert (attrs : Attributes) (name value key : String) :
    (attrs.insert name value).lookup key = if key = name then some value else attrs.lookup key := by
  induction attrs with
  | nil => rw [insert, lookup_cons]
  | cons entry attrs ih =>
    obtain ⟨n, v⟩ := entry
    by_cases hname : n = name
    · subst hname
      rw [insert, if_pos rfl, lookup_cons, lookup_cons]
      by_cases h : key = n <;> simp [h]
    · rw [insert, if_neg hname, lookup_cons, lookup_cons, ih]
      by_cases h : key = n
      · subst h
        simp [hname]
      · simp [h]

/-- The last value that was set counts. -/
theorem lookup_insertAll (attrs : Attributes) (entries : List (String × String)) (key : String) :
    (attrs.insertAll entries).lookup key = (entries.reverse.lookup key).or (attrs.lookup key) := by
  induction entries generalizing attrs with
  | nil => rfl
  | cons entry entries ih =>
    rw [insertAll, List.foldl_cons, ← insertAll, ih, List.reverse_cons, lookup_insert,
      List.lookup_append, lookup_cons, Option.or_assoc]
    by_cases h : key = entry.1 <;> simp [h]

end Attributes

/-- One attribute, and what follows it. -/
def readAttribute (cs : List Char) : (String × String) × List Char :=
  let name := String.ofList (cs.takeWhile isAttributeChar)
  match (cs.dropWhile isAttributeChar).dropWhile isTagSpace with
  | '=' :: rest =>
    let value := attributeValue (rest.dropWhile isTagSpace)
    ((name, value.1), value.2)
  | rest => ((name, ""), rest)

/-- What the attributes of a tag are read from starts with blanks. -/
theorem readAttributes_succ (n : Nat) (attrs : Attributes) (cs : List Char) :
    readAttributes (n + 1) attrs cs =
      match cs.dropWhile isTagBlank with
      | [] => (attrs, [])
      | c :: cs =>
        if c == '>' || c == '/' then (attrs, c :: cs)
        else if c == '=' then readAttributes n attrs cs
        else
          let read := readAttribute (c :: cs)
          readAttributes n (attrs.insert read.1.1 read.1.2) read.2 := by
  rw [readAttributes]
  cases cs.dropWhile isTagBlank with
  | nil => rfl
  | cons c cs =>
    simp only [readAttribute]
    generalize ((c :: cs).dropWhile isAttributeChar).dropWhile isTagSpace = behind
    split
    · rfl
    · split
      · rfl
      · cases behind with
        | nil => rfl
        | cons b behind =>
          by_cases hb : b = '='
          · subst hb
            rfl
          · simp [hb]

/-- The attributes of a tag in the order of reading, each time that one stands there, and what
follows them. -/
def readEntries : Nat → List Char → List (String × String) × List Char
  | 0, cs => ([], cs)
  | n + 1, cs =>
    match cs.dropWhile isTagBlank with
    | [] => ([], [])
    | c :: cs =>
      if c == '>' || c == '/' then ([], c :: cs)
      else if c == '=' then readEntries n cs
      else
        let read := readAttribute (c :: cs)
        let more := readEntries n read.2
        (read.1 :: more.1, more.2)

/-- The attributes of a tag are those read, set one after the other. Which are read does not depend
on those set before. -/
theorem readAttributes_eq_insertAll (n : Nat) (attrs : Attributes) (cs : List Char) :
    readAttributes n attrs cs =
      (Attributes.insertAll attrs (readEntries n cs).1, (readEntries n cs).2) := by
  induction n generalizing attrs cs with
  | zero => rfl
  | succ n ih =>
    rw [readAttributes_succ, readEntries]
    cases cs.dropWhile isTagBlank with
    | nil => rfl
    | cons c cs =>
      dsimp only
      split
      · rfl
      · split
        · exact ih attrs cs
        · exact ih _ _

/-! ### What is read of a tag depends on the tag alone

Each reading function is followed up to the character where it stops. With another text behind that
character it stops there too, and has read the same. -/

/-- The character ends a tag, alone or with the next one. -/
def IsTagEnd (c : Char) : Prop := c = '>' ∨ c = '/'

/-- A character that ends a tag is no blank. -/
theorem IsTagEnd.cannot_blank {c : Char} (h : IsTagEnd c) : isTagBlank c = false := by
  rcases h with rfl | rfl <;> decide

/-- A character that is none of the marks of a tag can stand in the name of an attribute. -/
theorem isAttributeChar_of_ne {c : Char} (hblank : isTagBlank c = false)
    (hstop : ¬ (c == '>' || c == '/') = true) (hequals : ¬ (c == '=') = true) :
    isAttributeChar c = true := by
  rw [Bool.not_eq_true] at hstop hequals
  simp [isAttributeChar, isBareChar, hblank, hstop, bne, hequals]

/-- A text starts with the same character whatever stands behind a later one. -/
theorem head_swap {a x r cs : List Char} {c q : Char} (h : q :: cs = a ++ (x ++ c :: r))
    (R : List Char) : ∃ ys, a ++ (x ++ c :: R) = q :: ys := by
  cases a with
  | cons b a =>
    obtain ⟨rfl, -⟩ := List.cons.inj h
    exact ⟨_, rfl⟩
  | nil =>
    cases x with
    | cons b x =>
      obtain ⟨rfl, -⟩ := List.cons.inj h
      exact ⟨_, rfl⟩
    | nil =>
      obtain ⟨rfl, -⟩ := List.cons.inj h
      exact ⟨_, rfl⟩

/-- Where a front part is cut off by a property of its characters, the cut falls at the same place
whatever stands behind a later character. -/
theorem span_swap {p : Char → Bool} {cs x r : List Char} {c : Char}
    (h : cs.dropWhile p = x ++ c :: r) :
    ∃ front, cs = front ++ (x ++ c :: r) ∧ cs.takeWhile p = front ∧ ∀ R : List Char,
      (front ++ (x ++ c :: R)).dropWhile p = x ++ c :: R ∧
      (front ++ (x ++ c :: R)).takeWhile p = front := by
  have hcs : cs = cs.takeWhile p ++ (x ++ c :: r) := by
    rw [← h, List.takeWhile_append_dropWhile]
  refine ⟨_, hcs, rfl, fun R => ?_⟩
  have htake : ∀ y ∈ cs.takeWhile p, p y = true := List.all_eq_true.mp List.all_takeWhile
  obtain ⟨y, ys, hys⟩ := List.exists_cons_of_ne_nil (show x ++ c :: r ≠ [] by simp)
  have hy : p y = false := by
    have hhead := List.head?_dropWhile_not p cs
    rw [h, hys] at hhead
    simpa using hhead
  obtain ⟨ys', hys'⟩ := head_swap (a := []) hys.symm R
  rw [List.nil_append] at hys'
  rw [hys', List.dropWhile_append_of_pos htake, List.takeWhile_append_of_pos htake,
    List.dropWhile_cons_of_neg (by simp [hy]), List.takeWhile_cons_of_neg (by simp [hy]),
    List.append_nil]
  exact ⟨rfl, rfl⟩

/-- The value of an attribute is read up to where the rest starts. -/
theorem attributeValue_swap {cs x r : List Char} {c : Char} {value : String}
    (h : attributeValue cs = (value, x ++ c :: r)) :
    ∃ read, cs = read ++ (x ++ c :: r) ∧
      ∀ R, attributeValue (read ++ (x ++ c :: R)) = (value, x ++ c :: R) := by
  cases cs with
  | nil =>
    rw [attributeValue, Prod.mk.injEq] at h
    cases x <;> cases h.2
  | cons q cs =>
    rw [attributeValue] at h
    by_cases hquote : (q == '\x22' || q == '\'') = true
    · rw [if_pos hquote, Prod.mk.injEq] at h
      cases hdrop : cs.dropWhile (· != q) with
      | nil =>
        rw [hdrop] at h
        cases x <;> cases h.2
      | cons y ys =>
        obtain rfl := eq_of_dropWhile_bne hdrop
        rw [hdrop, List.drop_one, List.tail_cons] at h
        obtain ⟨front, hcs, hfront, hswap⟩ := span_swap (x := []) hdrop
        refine ⟨y :: (front ++ [y]), ?_, fun R => ?_⟩
        · rw [← h.2]
          simpa using hcs
        · obtain ⟨hdrop', htake'⟩ := hswap (x ++ c :: R)
          rw [List.nil_append] at hdrop' htake'
          have hsplit : y :: (front ++ [y]) ++ (x ++ c :: R) =
              y :: (front ++ y :: (x ++ c :: R)) := by simp
          rw [hsplit, attributeValue, if_pos hquote, hdrop', htake', ← hfront, h.1, List.drop_one,
            List.tail_cons]
    · rw [if_neg hquote, Prod.mk.injEq] at h
      obtain ⟨front, hcs, hfront, hswap⟩ := span_swap h.2
      refine ⟨front, hcs, fun R => ?_⟩
      obtain ⟨hdrop', htake'⟩ := hswap R
      obtain ⟨ys, hys⟩ := head_swap hcs R
      rw [hys] at hdrop' htake' ⊢
      rw [attributeValue, if_neg hquote, hdrop', htake', ← hfront, h.1]

/-- One attribute is read up to where the rest starts. -/
theorem readAttribute_swap {cs x r : List Char} {c : Char} {entry : String × String}
    (h : readAttribute cs = (entry, x ++ c :: r)) :
    ∃ read, cs = cs.takeWhile isAttributeChar ++ read ++ (x ++ c :: r) ∧
      ∀ R, readAttribute (cs.takeWhile isAttributeChar ++ read ++ (x ++ c :: R)) =
        (entry, x ++ c :: R) := by
  unfold readAttribute at h
  dsimp only at h
  split at h
  · next behind hequals =>
    obtain ⟨hentry, hrest⟩ := Prod.mk.inj h
    obtain ⟨value, hvalue⟩ : ∃ value, attributeValue (behind.dropWhile isTagSpace) = value :=
      ⟨_, rfl⟩
    rw [hvalue] at hentry hrest
    obtain ⟨read, hread, hreadSwap⟩ := attributeValue_swap (hvalue.trans (Prod.ext rfl hrest))
    -- behind the name: a gap, the `=`, spaces, and what the value is read from
    have hvalued : behind.dropWhile isTagSpace = read ++ x ++ c :: r := by
      rw [hread, List.append_assoc]
    obtain ⟨spaces, hbehind, -, hspaces⟩ := span_swap hvalued
    have hassigned : (cs.dropWhile isAttributeChar).dropWhile isTagSpace =
        '=' :: (spaces ++ (read ++ x)) ++ c :: r := by rw [hequals, hbehind]; simp
    obtain ⟨gap, hgap, -, hgapSwap⟩ := span_swap hassigned
    have hnamed : cs.dropWhile isAttributeChar =
        gap ++ '=' :: (spaces ++ (read ++ x)) ++ c :: r := by rw [hgap]; simp
    obtain ⟨name, hcs, hname, hnameSwap⟩ := span_swap hnamed
    rw [hname] at hentry ⊢
    refine ⟨gap ++ '=' :: (spaces ++ read), by rw [hcs]; simp, fun R => ?_⟩
    have hdropName : (name ++ (gap ++ '=' :: (spaces ++ read)) ++ (x ++ c :: R)).dropWhile
        isAttributeChar = gap ++ ('=' :: (spaces ++ (read ++ x)) ++ c :: R) := by
      simpa using (hnameSwap R).1
    have htakeName : (name ++ (gap ++ '=' :: (spaces ++ read)) ++ (x ++ c :: R)).takeWhile
        isAttributeChar = name := by
      simpa using (hnameSwap R).2
    have hdropSpaces : (spaces ++ (read ++ x) ++ c :: R).dropWhile isTagSpace =
        read ++ (x ++ c :: R) := by
      simpa using (hspaces R).1
    unfold readAttribute
    rw [hdropName, htakeName, (hgapSwap R).1, List.cons_append]
    simp only [hdropSpaces, hreadSwap R, hentry]
  · next hequals =>
    obtain ⟨hentry, hrest⟩ := Prod.mk.inj h
    obtain ⟨gap, hgap, -, hgapSwap⟩ := span_swap hrest
    have hnamed : cs.dropWhile isAttributeChar = gap ++ x ++ c :: r := by rw [hgap]; simp
    obtain ⟨name, hcs, hname, hnameSwap⟩ := span_swap hnamed
    rw [hname] at hentry ⊢
    refine ⟨gap, by rw [hcs]; simp, fun R => ?_⟩
    have hdropName : (name ++ gap ++ (x ++ c :: R)).dropWhile isAttributeChar =
        gap ++ (x ++ c :: R) := by
      simpa using (hnameSwap R).1
    have htakeName : (name ++ gap ++ (x ++ c :: R)).takeWhile isAttributeChar = name := by
      simpa using (hnameSwap R).2
    unfold readAttribute
    rw [hdropName, htakeName, (hgapSwap R).1]
    dsimp only
    split
    · next behind hsame =>
      -- then the text was read from an `=` before, too
      obtain ⟨ys, hys⟩ := head_swap (a := []) hsame.symm r
      exact absurd (hrest.trans hys) (hequals ys)
    · rw [hentry]

/-- **Attributes are read from the tag alone.** With another text behind the tag, and with other
attributes read before, the same ones are read and reading ends at the same place. -/
theorem readAttributes_swap {n : Nat} {attrs attrs' : Attributes} {cs r : List Char} {c : Char}
    (hc : IsTagEnd c) (h : readAttributes n attrs cs = (attrs', c :: r)) :
    ∃ region entries, cs = region ++ c :: r ∧ attrs' = attrs.insertAll entries ∧
      ∀ R m acc, region.length < m →
        readAttributes m acc (region ++ c :: R) = (Attributes.insertAll acc entries, c :: R) := by
  have hblank := hc.cannot_blank
  have hstops : (c == '>' || c == '/') = true := by rcases hc with rfl | rfl <;> decide
  induction n generalizing attrs cs with
  | zero =>
    obtain ⟨rfl, rfl⟩ := Prod.mk.inj h
    refine ⟨[], [], rfl, rfl, fun R m acc hm => ?_⟩
    obtain ⟨m, rfl⟩ := Nat.exists_eq_add_one_of_ne_zero (Nat.ne_zero_of_lt hm)
    rw [readAttributes_succ, List.nil_append, List.dropWhile_cons_of_neg (by simp [hblank])]
    simp only [hstops, if_true]
    rfl
  | succ n ih =>
    rw [readAttributes_succ] at h
    cases hdrop : cs.dropWhile isTagBlank with
    | nil =>
      rw [hdrop] at h
      cases (Prod.mk.inj h).2
    | cons d rest =>
      rw [hdrop] at h
      dsimp only at h
      by_cases hstop : (d == '>' || d == '/') = true
      · rw [if_pos hstop] at h
        obtain ⟨rfl, hrest⟩ := Prod.mk.inj h
        rw [hrest] at hdrop
        obtain ⟨blanks, hcs, -, hswap⟩ := span_swap (x := []) hdrop
        refine ⟨blanks, [], hcs, rfl, fun R m acc hm => ?_⟩
        obtain ⟨m, rfl⟩ := Nat.exists_eq_add_one_of_ne_zero (Nat.ne_zero_of_lt hm)
        have hdrop' : (blanks ++ c :: R).dropWhile isTagBlank = c :: R := (hswap R).1
        rw [readAttributes_succ, hdrop']
        simp only [hstops, if_true]
        rfl
      · rw [if_neg hstop] at h
        by_cases hequals : (d == '=') = true
        · rw [if_pos hequals] at h
          obtain ⟨region, entries, rfl, hattrs, hread⟩ := ih h
          obtain ⟨blanks, hcs, -, hswap⟩ := span_swap (x := d :: region) hdrop
          refine ⟨blanks ++ d :: region, entries, by simpa using hcs, hattrs, fun R m acc hm => ?_⟩
          rw [List.length_append, List.length_cons] at hm
          obtain ⟨m, rfl⟩ := Nat.exists_eq_add_one_of_ne_zero (Nat.ne_zero_of_lt hm)
          rw [readAttributes_succ, List.append_assoc, (hswap R).1, List.cons_append]
          dsimp only
          rw [if_neg hstop, if_pos hequals]
          exact hread R m acc (by omega)
        · rw [if_neg hequals] at h
          obtain ⟨region, entries, hrest, hattrs, hread⟩ := ih h
          obtain ⟨read, hsplit, hreadSwap⟩ := readAttribute_swap (Prod.ext rfl hrest)
          -- the name has a character at least, so that the region gets shorter
          have hchar : isAttributeChar d = true := by
            have hhead := List.head?_dropWhile_not isTagBlank cs
            rw [hdrop] at hhead
            exact isAttributeChar_of_ne (by simpa using hhead) hstop hequals
          obtain ⟨name, hname⟩ : ∃ name, (d :: rest).takeWhile isAttributeChar = d :: name :=
            ⟨_, List.takeWhile_cons_of_pos hchar⟩
          rw [hname] at hsplit hreadSwap
          have hdropped : cs.dropWhile isTagBlank = d :: name ++ read ++ region ++ c :: r := by
            rw [hdrop, hsplit, List.append_assoc _ region]
          obtain ⟨blanks, hcs, -, hswap⟩ := span_swap hdropped
          refine ⟨blanks ++ (d :: name ++ read ++ region), (readAttribute (d :: rest)).1 :: entries,
            by simpa using hcs, hattrs, fun R m acc hm => ?_⟩
          obtain ⟨m, rfl⟩ := Nat.exists_eq_add_one_of_ne_zero (Nat.ne_zero_of_lt hm)
          have hdrop' : (blanks ++ (d :: name ++ read ++ region) ++ c :: R).dropWhile isTagBlank =
              d :: (name ++ read ++ (region ++ c :: R)) := by
            simpa using (hswap R).1
          have hread' : readAttribute (d :: (name ++ read ++ (region ++ c :: R))) =
              ((readAttribute (d :: rest)).1, region ++ c :: R) := by
            simpa using hreadSwap R
          rw [readAttributes_succ, hdrop']
          dsimp only
          rw [if_neg hstop, if_neg hequals, hread']
          simp only [List.length_append, List.length_cons] at hm
          exact hread R m _ (by omega)

/-! ### Attributes behind the name of a tag

An opening tag is put down as name, region and end, so that something can be written between the
name and the region. -/

namespace OpenTag

/-- What an opening tag is made of: its name, the region of its attributes, and its end. -/
structure Spells (tag : OpenTag) (region closing : List Char) (entries : List (String × String)) :
    Prop where
  name_ne : tag.name.toList ≠ []
  name_chars : ∀ c ∈ tag.name.toList, isNameChar c = true
  behind_name : ∃ x xs, region ++ closing = x :: xs ∧ isNameChar x = false
  closing_eq : closing = ['>'] ∨ closing = ['/', '>']
  attributes_eq : tag.attributes = Attributes.insertAll [] entries
  reads : ∀ (R : List Char) (m : Nat) (acc : Attributes), region.length < m →
    readAttributes m acc (region ++ closing ++ R) = (Attributes.insertAll acc entries, closing ++ R)

/-- Every opening tag that is read is made of these parts. -/
theorem exists_spells {cs : List Char} {tag : OpenTag} (h : OpenTag.read? cs = some tag) :
    ∃ region closing entries, cs = tag.name.toList ++ (region ++ closing ++ tag.rest) ∧
      tag.Spells region closing entries := by
  unfold OpenTag.read? at h
  split at h
  · cases h
  · next name hne =>
    have hname : ∀ c ∈ cs.takeWhile isNameChar, isNameChar c = true :=
      List.all_eq_true.mp List.all_takeWhile
    obtain ⟨⟨attrs, rest⟩, hread⟩ : ∃ read, readAttributes (cs.length + 1) []
        (cs.dropWhile isNameChar) = read := ⟨_, rfl⟩
    -- the tag ends in what reading stops at
    have hspells : ∀ {c : Char} (tail : List Char) {r : List Char} {selfClosing : Bool},
        IsTagEnd c →
        rest = c :: (tail ++ r) → (c :: tail = ['>'] ∨ c :: tail = ['/', '>']) →
        ∃ region closing entries,
          cs = (String.ofList (cs.takeWhile isNameChar)).toList ++ (region ++ closing ++ r) ∧
          Spells ⟨String.ofList (cs.takeWhile isNameChar), attrs, selfClosing, r⟩ region closing
            entries := by
      intro c tail r selfClosing hc hrest hclosing
      rw [hrest] at hread
      obtain ⟨region, entries, hregion, hattrs, hreads⟩ := readAttributes_swap hc hread
      obtain ⟨x, xs, hx⟩ := List.exists_cons_of_ne_nil (show region ++ c :: tail ≠ [] by simp)
      refine ⟨region, c :: tail, entries, ?_, ?_, ?_, ?_, hclosing, hattrs, ?_⟩
      · conv => lhs; rw [← @List.takeWhile_append_dropWhile _ isNameChar cs, hregion]
        simp
      · simpa using hne
      · simpa using hname
      · refine ⟨x, xs, hx, ?_⟩
        have hhead := List.head?_dropWhile_not isNameChar cs
        have hcons : cs.dropWhile isNameChar = x :: (xs ++ r) := by
          rw [hregion, ← List.cons_append, ← List.cons_append, ← List.append_assoc, hx]
        rw [hcons] at hhead
        simpa using hhead
      · intro R m acc hm
        simpa using hreads (tail ++ R) m acc hm
    simp only [hread] at h
    split at h
    · cases h
      exact hspells ['>'] (.inr rfl) rfl (.inr rfl)
    · cases h
      exact hspells [] (.inl rfl) rfl (.inl rfl)
    · cases h

/-- A tag is read once its attributes are. -/
theorem read?_of_reads {tag : OpenTag} {region closing : List Char}
    {entries : List (String × String)} (h : tag.Spells region closing entries) {added : List Char}
    (hadded : added = [] ∨ ∃ more, added = ' ' :: more) (R : List Char) {key value : String}
    (hread : ∀ m, added.length + region.length < m → ∃ attrs,
      readAttributes m [] (added ++ (region ++ closing ++ R)) = (attrs, closing ++ R) ∧
      attrs.lookup key = some value) :
    ∃ tag', OpenTag.read? (tag.name.toList ++ added ++ (region ++ closing) ++ R) = some tag' ∧
      tag'.name = tag.name ∧ tag'.attributes.lookup key = some value := by
  have hsplit : tag.name.toList ++ added ++ (region ++ closing) ++ R =
      tag.name.toList ++ (added ++ (region ++ closing ++ R)) := by simp
  obtain ⟨y, ys, hy, hchar⟩ : ∃ y ys, added ++ (region ++ closing ++ R) = y :: ys ∧
      isNameChar y = false := by
    rcases hadded with rfl | ⟨more, rfl⟩
    · obtain ⟨x, xs, hx, hchar⟩ := h.behind_name
      exact ⟨x, xs ++ R, by rw [hx]; rfl, hchar⟩
    · exact ⟨' ', _, rfl, by decide⟩
  obtain ⟨attrs, hread, hlookup⟩ :=
    hread ((tag.name.toList ++ (added ++ (region ++ closing ++ R))).length + 1)
      (by simp only [List.length_append]; omega)
  have htake : (tag.name.toList ++ (y :: ys)).takeWhile isNameChar = tag.name.toList := by
    rw [List.takeWhile_append_of_pos h.name_chars, List.takeWhile_cons_of_neg (by simp [hchar]),
      List.append_nil]
  have hdrop : (tag.name.toList ++ (y :: ys)).dropWhile isNameChar = y :: ys := by
    rw [List.dropWhile_append_of_pos h.name_chars, List.dropWhile_cons_of_neg (by simp [hchar])]
  rw [hy] at hread hsplit
  rw [hsplit, OpenTag.read?, htake, hdrop, hread]
  split
  · next hempty => exact absurd hempty h.name_ne
  · rw [String.ofList_toList]
    rcases h.closing_eq with rfl | rfl
    · exact ⟨_, rfl, rfl, hlookup⟩
    · exact ⟨_, rfl, rfl, hlookup⟩

/-! ### The language of a script

The language is the value of `lang`. An attribute that is put in before the others has no part in it
unless it is `lang` itself, or takes a lone `=` for its own. -/

variable {cs attributes : List Char} {tag : OpenTag}

/-- The region of the attributes is what stands between the name and what follows the tag. -/
theorem exists_spells_attributes (h : OpenTag.read? cs = some tag)
    (hcs : cs = tag.name.toList ++ attributes ++ tag.rest) :
    ∃ region closing entries, attributes = region ++ closing ∧
    tag.Spells region closing entries := by
  obtain ⟨region, closing, entries, hsplit, hspells⟩ := exists_spells h
  rw [hsplit, ← List.append_assoc] at hcs
  exact ⟨region, closing, entries,
    (List.append_cancel_left (List.append_cancel_right hcs)).symm, hspells⟩

/-- The language stays whatever follows the tag. -/
theorem lang_same (h : OpenTag.read? cs = some tag)
    (hcs : cs = tag.name.toList ++ attributes ++ tag.rest) {lang : String}
    (hlang : tag.attributes.lookup "lang" = some lang) (R : List Char) :
    ∃ tag', OpenTag.read? (tag.name.toList ++ attributes ++ R) = some tag' ∧
      tag'.name = tag.name ∧ tag'.attributes.lookup "lang" = some lang := by
  obtain ⟨region, closing, entries, rfl, hspells⟩ := exists_spells_attributes h hcs
  have hread := read?_of_reads hspells (.inl rfl) R fun m hm =>
    ⟨tag.attributes, by
      rw [hspells.attributes_eq]
      exact hspells.reads R m [] (by simpa using hm), hlang⟩
  simpa using hread

/-- The language is given by an attribute that is put in. -/
theorem lang_added (h : OpenTag.read? cs = some tag)
    (hcs : cs = tag.name.toList ++ attributes ++ tag.rest)
    (hlang : tag.attributes.lookup "lang" = none) (setup : Bool) (R : List Char) :
    ∃ tag', OpenTag.read? (tag.name.toList ++ ((if setup then " setup" else "") ++
        " lang=\"ts\"").toList ++ attributes ++ R) = some tag' ∧
      tag'.name = tag.name ∧ tag'.attributes.lookup "lang" = some "ts" := by
  obtain ⟨region, closing, entries, rfl, hspells⟩ := exists_spells_attributes h hcs
  rw [hspells.attributes_eq, Attributes.lookup_insertAll, Option.or_eq_none_iff] at hlang
  cases setup with
  | false =>
    have htext : ((if false then " setup" else "") ++ " lang=\"ts\"").toList =
        [' ', 'l', 'a', 'n', 'g', '=', '\x22', 't', 's', '\x22'] := by simp
    rw [htext]
    refine read?_of_reads hspells (.inr ⟨_, rfl⟩) R fun m hm =>
      ⟨Attributes.insertAll [("lang", "ts")] entries, ?_, ?_⟩
    · obtain ⟨m, rfl⟩ := Nat.exists_eq_add_one_of_ne_zero (Nat.ne_zero_of_lt hm)
      exact hspells.reads R m [("lang", "ts")] (by simp at hm; omega)
    · rw [Attributes.lookup_insertAll, hlang.1]
      rfl
  | true =>
    have htext : ((if true then " setup" else "") ++ " lang=\"ts\"").toList =
        [' ', 's', 'e', 't', 'u', 'p', ' ', 'l', 'a', 'n', 'g', '=', '\x22', 't', 's', '\x22'] := by
      simp
    rw [htext]
    refine read?_of_reads hspells (.inr ⟨_, rfl⟩) R fun m hm =>
      ⟨Attributes.insertAll [("setup", ""), ("lang", "ts")] entries, ?_, ?_⟩
    · obtain ⟨m, rfl⟩ : ∃ k, m = k + 2 := ⟨m - 2, by simp at hm; omega⟩
      exact hspells.reads R m [("setup", ""), ("lang", "ts")] (by simp at hm; omega)
    · rw [Attributes.lookup_insertAll, hlang.1]
      rfl

/-- A name is read up to the first character that cannot stand in one. -/
theorem readAttribute_name (cs : List Char) :
    (readAttribute cs).1.1.toList = cs.takeWhile isAttributeChar := by
  unfold readAttribute
  dsimp only
  split <;> exact String.toList_ofList

/-- A name that stands right before an attribute becomes the front of the attribute's name. -/
theorem readAttribute_append {front : List Char} (hfront : ∀ c ∈ front, isAttributeChar c = true)
    (cs : List Char) :
    readAttribute (front ++ cs) =
      ((String.ofList (front ++ cs.takeWhile isAttributeChar), (readAttribute cs).1.2),
        (readAttribute cs).2) := by
  unfold readAttribute
  rw [List.takeWhile_append_of_pos hfront, List.dropWhile_append_of_pos hfront]
  dsimp only
  split <;> rfl

/-- An attribute of the given name is put in before others. -/
theorem readAttributes_setup (m : Nat) (attrs : Attributes) (cs : List Char) :
    readAttributes (m + 1) attrs ([' ', 's', 'e', 't', 'u', 'p'] ++ cs) =
      readAttributes m (attrs.insert (String.ofList (['s', 'e', 't', 'u', 'p'] ++
        cs.takeWhile isAttributeChar)) (readAttribute cs).1.2) (readAttribute cs).2 := by
  have hname : ∀ c ∈ ['s', 'e', 't', 'u', 'p'], isAttributeChar c = true :=
    List.all_eq_true.mp (by decide)
  have hread := readAttribute_append hname cs
  rw [readAttributes_succ, List.cons_append, List.dropWhile_cons_of_pos rfl, List.cons_append,
    List.dropWhile_cons_of_neg (by decide)]
  dsimp only
  rw [if_neg (by decide), if_neg (by decide), ← List.cons_append, hread]

/-- An attribute without a value that is put in leaves the language as it was, unless a lone `=`
gives it a value. -/
theorem lang_kept (h : OpenTag.read? cs = some tag)
    (hcs : cs = tag.name.toList ++ attributes ++ tag.rest) {lang : String}
    (hlang : tag.attributes.lookup "lang" = some lang)
    (hplain : ((attributes ++ tag.rest).dropWhile isTagSpace).head? ≠ some '=') (R : List Char) :
    ∃ tag', OpenTag.read? (tag.name.toList ++ " setup".toList ++ attributes ++ R) = some tag' ∧
      tag'.name = tag.name ∧ tag'.attributes.lookup "lang" = some lang := by
  obtain ⟨region, closing, entries, rfl, hspells⟩ := exists_spells_attributes h hcs
  rw [hspells.attributes_eq] at hlang
  have htext : " setup".toList = [' ', 's', 'e', 't', 'u', 'p'] := by simp
  rw [htext]
  refine read?_of_reads hspells (.inr ⟨_, rfl⟩) R fun m hm => ?_
  obtain ⟨m, rfl⟩ : ∃ k, m = k + 2 := ⟨m - 2, by simp at hm; omega⟩
  rw [readAttributes_setup]
  obtain ⟨x, xs, hx, hchar⟩ := hspells.behind_name
  have hbehind : region ++ closing ++ R = x :: (xs ++ R) := by rw [hx, List.cons_append]
  by_cases hname : isAttributeChar x = true
  · -- the new name runs into that of the first attribute, which is not the language's
    obtain ⟨hequals, hgt, hslash, hblank⟩ := isAttributeChar_ne hname
    have horiginal := hspells.reads R (m + 2) [] (by simp at hm; omega)
    rw [readAttributes_succ, hbehind, List.dropWhile_cons_of_neg (by simp [hblank])] at horiginal
    dsimp only at horiginal
    rw [if_neg (by simp [hgt, hslash]), if_neg (by simpa using hequals), ← hbehind] at horiginal
    rw [readAttributes_eq_insertAll, Prod.mk.injEq] at horiginal
    refine ⟨_, by rw [readAttributes_eq_insertAll, horiginal.2], ?_⟩
    rw [← horiginal.1, Attributes.lookup_insertAll, Attributes.lookup_insert, if_neg] at hlang
    · rw [Attributes.lookup_insertAll, Attributes.lookup_insert, if_neg]
      · exact hlang
      · intro hsame
        have hlist := congrArg String.toList hsame
        rw [String.toList_ofList] at hlist
        exact absurd (congrArg List.head? hlist) (by simp)
    · intro hsame
      have hlist : "lang".toList = (readAttribute (region ++ closing ++ R)).1.1.toList :=
        congrArg String.toList hsame
      rw [readAttribute_name, hbehind, List.takeWhile_cons_of_pos hname] at hlist
      obtain rfl : 'l' = x := by simpa using congrArg List.head? hlist
      cases hchar
  · -- the new name ends before what follows
    have htake : (region ++ closing ++ R).takeWhile isAttributeChar = [] := by
      rw [hbehind, List.takeWhile_cons_of_neg hname]
    have hdrop : (region ++ closing ++ R).dropWhile isAttributeChar = region ++ closing ++ R := by
      rw [hbehind, List.dropWhile_cons_of_neg hname]
    have hhead : ∀ rest, (region ++ closing ++ R).dropWhile isTagSpace ≠ '=' :: rest := by
      intro rest hrest
      -- the end of the tag is no space, so that the spaces end inside of the tag
      have hend : '>' ∈ region ++ closing := by
        rcases hspells.closing_eq with rfl | rfl <;> simp
      have hne : (region ++ closing).dropWhile isTagSpace ≠ [] := by
        intro hnil
        have hspaces := @List.takeWhile_append_dropWhile _ isTagSpace (region ++ closing)
        rw [hnil, List.append_nil] at hspaces
        rw [← hspaces] at hend
        exact absurd (List.all_eq_true.mp List.all_takeWhile _ hend) (by decide)
      obtain ⟨y, ys, hy⟩ := List.exists_cons_of_ne_nil hne
      rw [List.dropWhile_append, hy] at hrest
      obtain ⟨rfl, -⟩ := List.cons.inj (show y :: (ys ++ R) = '=' :: rest from hrest)
      exact hplain (by rw [List.dropWhile_append, hy]; rfl)
    have hread : readAttribute (region ++ closing ++ R) =
        (("", ""), (region ++ closing ++ R).dropWhile isTagSpace) := by
      unfold readAttribute
      rw [htake, hdrop]
      dsimp only
      split
      · next rest hrest => exact absurd hrest (hhead rest)
      · rfl
    rw [htake, hread, readAttributes_dropWhile]
    refine ⟨_, hspells.reads R (m + 1) _ (by simp at hm; omega), ?_⟩
    have hentries : entries.reverse.lookup "lang" = some lang := by
      rw [Attributes.lookup_insertAll] at hlang
      simpa using hlang
    rw [Attributes.lookup_insertAll, hentries]
    rfl

end OpenTag

/-! ### The tags of a file

So far a tag was a text of its own. Here it stands in a file. -/

open Text (byteSize)

/-- A block has the name and the attributes of the tag that opens it. -/
theorem Found.exists_openTag {p : Place} {cs : List Char} {found : Found}
    (h : Found.read? p cs = some found) :
    ∃ tag, OpenTag.read? cs = some tag ∧ found.block.tag = tag.name ∧
      found.block.attributes = tag.attributes ∧
      found.block.location.start = p.offset + 1 + (byteSize cs - byteSize tag.rest) := by
  unfold Found.read? at h
  obtain ⟨tag, htag, h⟩ := Option.bind_eq_some_iff.mp h
  refine ⟨tag, htag, ?_⟩
  split at h
  · cases h
    exact ⟨rfl, rfl, rfl⟩
  · split at h
    · obtain ⟨q, -, h⟩ := Option.bind_eq_some_iff.mp h
      cases h
      exact ⟨rfl, rfl, rfl⟩
    · obtain ⟨q, -, h⟩ := Option.bind_eq_some_iff.mp h
      cases h
      exact ⟨rfl, rfl, rfl⟩

/-- A block stands in the file behind its opening tag, from which its name and its attributes are
read. -/
theorem Block.exists_openTag {source : String} {b : Block} (hb : b ∈ blocks source) :
    ∃ front attributes rest tag,
      source.toList = front ++ '<' :: b.tag.toList ++ attributes ++ b.content.toList ++ rest ∧
      b.location.tagStart = byteSize front ∧
      b.location.start = byteSize (front ++ '<' :: b.tag.toList ++ attributes) ∧
      b.location.stop = byteSize (front ++ '<' :: b.tag.toList ++ attributes ++ b.content.toList) ∧
      OpenTag.read? (tag.name.toList ++ attributes ++ tag.rest) = some tag ∧
      tag.name = b.tag ∧ tag.attributes = b.attributes ∧ tag.rest = b.content.toList ++ rest := by
  obtain ⟨q, before, behind, found, hsource, hq, hfound, rfl⟩ := exists_found_of_mem_blocks hb
  obtain ⟨tag, htag, hname, hattrs, hstart⟩ := Found.exists_openTag hfound
  obtain ⟨hchars, attributes, rfl⟩ := OpenTag.eq_append_of_read? htag
  obtain ⟨front, attributes', rest, hstands, htagStart, hstart', hstop⟩ :=
    (standsIn_of_mem_blocks hb).2
  have hsplit : before ++ '<' :: (tag.name.toList ++ attributes ++ tag.rest) =
      front ++ ('<' :: found.block.tag.toList ++ attributes' ++ found.block.content.toList ++
        rest) := by
    rw [← hsource, hstands]
    simp
  obtain ⟨-, _, _, -, hoffset, -⟩ := Found.reads_of_read? hfound
  obtain ⟨rfl, htail⟩ := Text.append_inj_of_byteSize_eq hsplit (by rw [← hq, ← hoffset, htagStart])
  -- both spans of attributes take the bytes between the name and the content
  have hsize : byteSize ('<' :: tag.name.toList ++ attributes) =
      byteSize ('<' :: found.block.tag.toList ++ attributes') := by
    rw [hstart', Text.byteSize_append, List.append_assoc] at hstart
    simp only [Text.byteSize_append, List.cons_append, Text.byteSize_cons] at hstart ⊢
    rw [← hq] at hstart
    have hlt : '<'.utf8Size = 1 := by decide
    omega
  have htail' : '<' :: tag.name.toList ++ attributes ++ tag.rest =
      '<' :: found.block.tag.toList ++ attributes' ++ (found.block.content.toList ++ rest) := by
    simpa using htail
  obtain ⟨hopening, hrest⟩ := Text.append_inj_of_byteSize_eq htail' hsize
  rw [hname] at hopening
  obtain rfl := List.append_cancel_left hopening
  exact ⟨before, attributes, rest, tag, hstands, htagStart, hstart', hstop, htag, hname.symm,
    hattrs.symm, hrest⟩

end VueSetup.Sfc
