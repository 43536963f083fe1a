import VueSetup.Proofs.Sfc.Tag
import VueSetup.Proofs.Text.Bytes

/-!
# VueSetup.Proofs.Sfc.Entries

What is cut out of the text behind a `<`, whether or not that text is an opening tag in the end: the
tag's name, and the name and the value of each attribute.

* Reading comes to its end by itself, and never for want of steps (`readEntries_eq_of_lt`).
* What is cut out stands in the text, and reading ends behind a `/` only where the text ends
  (`readEntries_readOff`).
* Reading looks for ASCII characters only, so it can go from byte to byte as well: the bytes of a
  text, taken for characters, give the bytes of the same names and values (`tagTexts_byteChars`). No
  cut falls inside of a character.
-/

namespace VueSetup.Sfc

open Text (Asciiwise byteChars)

/-! ### The texts of attributes

An attribute is set anew in its old place, so that a set attribute may be an earlier one. -/

/-- The texts that an attribute is made of. -/
def entryTexts (entry : String × String) : List (List Char) :=
  [entry.1.toList, entry.2.toList]

/-- An attribute that is there after one is set was there before, or is that one. -/
theorem Attributes.mem_insert {attrs : Attributes} {name value : String} {entry : String × String}
    (h : entry ∈ attrs.insert name value) : entry ∈ attrs ∨ entry = (name, value) := by
  induction attrs with
  | nil => exact .inr (List.mem_singleton.mp h)
  | cons e attrs ih =>
    rw [Attributes.insert] at h
    split at h
    · next hname =>
      rcases List.mem_cons.mp h with rfl | h
      · exact .inr (by rw [hname])
      · exact .inl (List.mem_cons_of_mem _ h)
    · rcases List.mem_cons.mp h with rfl | h
      · exact .inl List.mem_cons_self
      · exact (ih h).imp_left (List.mem_cons_of_mem _)

/-- After several are set, an attribute was there before or is one of them. -/
theorem Attributes.mem_insertAll {attrs : Attributes} {entries : List (String × String)}
    {entry : String × String} (h : entry ∈ attrs.insertAll entries) :
    entry ∈ attrs ∨ entry ∈ entries := by
  induction entries generalizing attrs with
  | nil => exact .inl h
  | cons e entries ih =>
    rcases ih h with h | h
    · rcases Attributes.mem_insert h with h | rfl
      · exact .inl h
      · exact .inr List.mem_cons_self
    · exact .inr (List.mem_cons_of_mem _ h)

/-! ### What is read stands in the text

Reading goes from front to back. Each function is said to read a front part of its text and to take
some texts from that part; the calls of one another are put together by `ReadOff.append`. -/

/-- The text does not end with a `/`. -/
def NotSlashed (cs : List Char) : Prop :=
  cs.getLast? ≠ some '/'

/-- The text behind another one decides, and if it is empty the one before it. -/
theorem NotSlashed.append {as bs : List Char} (has : NotSlashed as) (hbs : NotSlashed bs) :
    NotSlashed (as ++ bs) := by
  unfold NotSlashed at *
  rw [List.getLast?_append]
  cases h : bs.getLast? with
  | none => simpa using has
  | some c => simpa [h] using hbs

/-- A text of characters none of which is a `/`. -/
theorem notSlashed_takeWhile {p : Char → Bool} (hp : p '/' = false) (cs : List Char) :
    NotSlashed (cs.takeWhile p) := by
  intro hlast
  have hpass := List.all_eq_true.mp List.all_takeWhile _ (List.mem_of_getLast? hlast)
  rw [hp] at hpass
  cases hpass

/-- What is read of a text: a front part, which holds what is taken from it, and which ends with no
`/` unless all is read. -/
structure ReadOff (cs read rest : List Char) (taken : List (List Char)) : Prop where
  eq_append : cs = read ++ rest
  infix_read : ∀ text ∈ taken, text <:+: read
  notSlashed : rest ≠ [] → NotSlashed read

namespace ReadOff

variable {cs front mid read rest : List Char} {taken taken' : List (List Char)}

/-- Nothing is read. -/
protected theorem refl (cs : List Char) : ReadOff cs [] cs [[]] :=
  ⟨rfl, by simp, fun _ => by simp [NotSlashed]⟩

/-- A front part is taken as a whole. -/
theorem of_notSlashed (h : NotSlashed front) (rest : List Char) :
    ReadOff (front ++ rest) front rest [front] :=
  ⟨rfl, by simp, fun _ => h⟩

/-- What is cut off by a property of characters is read and taken. -/
theorem takeWhile {p : Char → Bool} (hp : p '/' = false) (cs : List Char) :
    ReadOff cs (cs.takeWhile p) (cs.dropWhile p) [cs.takeWhile p] := by
  have h := of_notSlashed (notSlashed_takeWhile hp cs) (cs.dropWhile p)
  rwa [List.takeWhile_append_dropWhile] at h

/-- What is left is read on. -/
theorem append (hfront : ReadOff cs front mid taken) (hread : ReadOff mid read rest taken') :
    ReadOff cs (front ++ read) rest (taken ++ taken') where
  eq_append := by rw [hfront.eq_append, hread.eq_append, List.append_assoc]
  infix_read := by
    intro text htext
    rcases List.mem_append.mp htext with htext | htext
    · exact (hfront.infix_read text htext).trans (List.prefix_append _ _).isInfix
    · exact (hread.infix_read text htext).trans (List.suffix_append _ _).isInfix
  notSlashed := by
    intro hrest
    refine (hfront.notSlashed ?_).append (hread.notSlashed hrest)
    rw [hread.eq_append]
    exact List.append_ne_nil_of_right_ne_nil _ hrest

/-- Fewer texts may be taken. -/
theorem of_subset (h : ReadOff cs read rest taken) (hsub : ∀ text ∈ taken', text ∈ taken) :
    ReadOff cs read rest taken' :=
  ⟨h.eq_append, fun text htext => h.infix_read text (hsub text htext), h.notSlashed⟩

end ReadOff

/-- The value of an attribute is read off, with its quotes but taken without them. -/
theorem attributeValue_readOff (cs : List Char) :
    ∃ read, ReadOff cs read (attributeValue cs).2 [(attributeValue cs).1.toList] := by
  cases cs with
  | nil => exact ⟨[], rfl, by simp [attributeValue], fun h => absurd rfl h⟩
  | cons q cs =>
    rw [attributeValue]
    by_cases hquote : (q == '\x22' || q == '\'') = true
    · rw [if_pos hquote]
      have hsplit := @List.takeWhile_append_dropWhile _ (· != q) cs
      cases hdrop : cs.dropWhile (· != q) with
      | nil =>
        rw [hdrop, List.append_nil] at hsplit
        refine ⟨q :: cs, by simp, ?_, fun h => absurd rfl h⟩
        simp only [List.mem_singleton, forall_eq, String.toList_ofList]
        exact List.infix_cons (List.takeWhile_prefix _).isInfix
      | cons y ys =>
        obtain rfl := eq_of_dropWhile_bne hdrop
        refine ⟨y :: (cs.takeWhile (· != y) ++ [y]), ?_, ?_, fun _ => ?_⟩
        · rw [hdrop] at hsplit
          simpa using hsplit.symm
        · simp only [List.mem_singleton, forall_eq, String.toList_ofList]
          exact List.infix_cons (List.prefix_append _ _).isInfix
        · rw [NotSlashed, ← List.cons_append, List.getLast?_append]
          simp only [Bool.or_eq_true, beq_iff_eq] at hquote
          rcases hquote with rfl | rfl <;> simp
    · rw [if_neg hquote, String.toList_ofList]
      exact ⟨_, ReadOff.takeWhile rfl (q :: cs)⟩

/-- One attribute is read off. -/
theorem readAttribute_readOff (cs : List Char) :
    ∃ read, ReadOff cs read (readAttribute cs).2 (entryTexts (readAttribute cs).1) := by
  have hname : ReadOff cs _ _ _ := .takeWhile (show isAttributeChar '/' = false from rfl) cs
  have hgap := hname.append (.takeWhile (show isTagSpace '/' = false from rfl) _)
  unfold readAttribute
  split
  · next rest hequals =>
    rw [hequals] at hgap
    have hassigned := hgap.append (.of_notSlashed (show NotSlashed ['='] by simp [NotSlashed]) rest)
    have hspaces := hassigned.append (.takeWhile (show isTagSpace '/' = false from rfl) rest)
    obtain ⟨read, hread⟩ := attributeValue_readOff (rest.dropWhile isTagSpace)
    exact ⟨_, (hspaces.append hread).of_subset (by simp [entryTexts])⟩
  · exact ⟨_, (hgap.append (.refl _)).of_subset (by simp [entryTexts])⟩

/-- **Attributes are read off the front of a text**, and their names and values stand there. -/
theorem readEntries_readOff (n : Nat) (cs : List Char) :
    ∃ read, ReadOff cs read (readEntries n cs).2 ((readEntries n cs).1.flatMap entryTexts) := by
  induction n generalizing cs with
  | zero => exact ⟨[], (ReadOff.refl cs).of_subset (by simp [readEntries])⟩
  | succ n ih =>
    have hblank : ReadOff cs _ _ _ := .takeWhile (show isTagBlank '/' = false from rfl) cs
    rw [readEntries]
    cases hdrop : cs.dropWhile isTagBlank with
    | nil =>
      rw [hdrop] at hblank
      exact ⟨_, hblank.of_subset (by simp)⟩
    | cons c rest =>
      rw [hdrop] at hblank
      dsimp only
      split
      · exact ⟨_, hblank.of_subset (by simp)⟩
      · split
        · next hequals =>
          have hc : NotSlashed [c] := by
            rw [beq_iff_eq] at hequals
            simp [NotSlashed, hequals]
          obtain ⟨read, hread⟩ := ih rest
          have hall := (hblank.append (.of_notSlashed hc rest)).append hread
          exact ⟨_, hall.of_subset fun text htext => List.mem_append_right _ htext⟩
        · obtain ⟨front, hfront⟩ := readAttribute_readOff (c :: rest)
          obtain ⟨read, hread⟩ := ih (readAttribute (c :: rest)).2
          have hall := (hblank.append hfront).append hread
          refine ⟨_, hall.of_subset fun text htext => ?_⟩
          rw [List.append_assoc]
          exact List.mem_append_right _ htext

/-! ### Reading comes to an end

The number of steps is given by the length of the text. Since a step takes a character at least, any
larger number gives the same. -/

/-- Reading an attribute takes one character at least. -/
theorem length_readAttribute_lt {c : Char} (hc : isAttributeChar c = true) (cs : List Char) :
    (readAttribute (c :: cs)).2.length < (c :: cs).length := by
  obtain ⟨read, hread⟩ := readAttribute_readOff (c :: cs)
  have hname := (hread.infix_read _ List.mem_cons_self).length_le
  rw [OpenTag.readAttribute_name, List.takeWhile_cons_of_pos hc, List.length_cons] at hname
  have hsize := congrArg List.length hread.eq_append
  rw [List.length_append] at hsize
  omega

/-- **Reading attributes comes to its end by itself**: it takes no more steps than there are
characters. -/
theorem readEntries_eq_of_lt {n m : Nat} {cs : List Char} (hn : cs.length < n)
    (hm : cs.length < m) :
    readEntries n cs = readEntries m cs := by
  induction n generalizing m cs with
  | zero => cases hn
  | succ n ih =>
    obtain ⟨m, rfl⟩ := Nat.exists_eq_add_one_of_ne_zero (Nat.ne_zero_of_lt hm)
    have hlength := (List.dropWhile_suffix (l := cs) isTagBlank).length_le
    have hhead := List.head?_dropWhile_not isTagBlank cs
    rw [readEntries, readEntries]
    cases hdrop : cs.dropWhile isTagBlank with
    | nil => rfl
    | cons c rest =>
      rw [hdrop, List.length_cons] at hlength
      rw [hdrop] at hhead
      dsimp only
      split
      · rfl
      · next hstop =>
        split
        · exact ih (by omega) (by omega)
        · next hequals =>
          have hc := isAttributeChar_of_ne (by simpa using hhead) hstop hequals
          have hread := length_readAttribute_lt hc rest
          rw [List.length_cons] at hread
          rw [@ih m _ (by omega) (by omega)]

/-- The attributes that are read from the text behind a `<`. -/
def tagEntries (cs : List Char) : List (String × String) :=
  (readEntries (cs.length + 1) (cs.dropWhile isNameChar)).1

/-- What is cut out of the text behind a `<`: the name of the tag, and the names and the values of
its attributes. -/
def tagTexts (cs : List Char) : List (List Char) :=
  cs.takeWhile isNameChar :: (tagEntries cs).flatMap entryTexts

/-- The attributes of a tag do not depend on the number of steps, if there are enough. -/
theorem exists_readAttributes_eq (cs : List Char) :
    ∃ rest, ∀ n, cs.length < n →
      readAttributes n [] (cs.dropWhile isNameChar) =
        (Attributes.insertAll [] (tagEntries cs), rest) := by
  have hlength := (List.dropWhile_suffix (l := cs) isNameChar).length_le
  refine ⟨(readEntries (cs.length + 1) (cs.dropWhile isNameChar)).2, fun n hn => ?_⟩
  rw [readAttributes_eq_insertAll, tagEntries,
    readEntries_eq_of_lt (show _ < n by omega) (show _ < cs.length + 1 by omega)]

/-- What is cut out stands in the text. -/
theorem infix_of_mem_tagTexts {cs text : List Char} (h : text ∈ tagTexts cs) : text <:+: cs := by
  rcases List.mem_cons.mp h with rfl | h
  · exact (List.takeWhile_prefix _).isInfix
  · obtain ⟨read, hread⟩ := readEntries_readOff (cs.length + 1) (cs.dropWhile isNameChar)
    have hfront : read <+: cs.dropWhile isNameChar := by
      rw [hread.eq_append]
      exact List.prefix_append _ _
    exact ((hread.infix_read text h).trans hfront.isInfix).trans (List.dropWhile_suffix _).isInfix

/-! ### Reading from byte to byte

No part of the tag looks at a character outside of ASCII but to pass it, and the bytes of such a
character are no ASCII characters either. So each cut falls between the same characters. -/

theorem asciiwise_isNameChar : Asciiwise isNameChar := by
  have hfalse : ∀ c : Char, 128 ≤ c.toNat → isNameChar c = false := by
    intro c hc
    rw [Bool.eq_false_iff]
    intro hname
    have hval := UInt32.le_iff_toNat_le.mp (Char.utf8Size_eq_one_iff.mp (isNameChar_ascii hname))
    exact absurd (show c.toNat ≤ 127 from hval) (by omega)
  exact fun c d hc hd => (hfalse c hc).trans (hfalse d hd).symm

theorem asciiwise_isTagSpace : Asciiwise isTagSpace :=
  (Asciiwise.beq (by decide)).or (.beq (by decide))

theorem asciiwise_isTagBlank : Asciiwise isTagBlank :=
  ((asciiwise_isTagSpace).or (.beq (by decide))).or (.beq (by decide))

theorem asciiwise_isBareChar : Asciiwise isBareChar :=
  (((Asciiwise.beq (by decide)).or (.beq (by decide))).or asciiwise_isTagBlank).not

theorem asciiwise_isAttributeChar : Asciiwise isAttributeChar :=
  (Asciiwise.bne (by decide)).and asciiwise_isBareChar

/-- The bytes of a string, each taken for a character. -/
def byteString (s : String) : String :=
  String.ofList (byteChars s.toList)

/-- The value of an attribute, from byte to byte. -/
theorem attributeValue_byteChars (cs : List Char) :
    attributeValue (byteChars cs) =
      (byteString (attributeValue cs).1, byteChars (attributeValue cs).2) := by
  cases cs with
  | nil => rfl
  | cons q cs =>
    obtain ⟨d, ds, hbytes, hascii, hclass⟩ := Text.exists_byteChars_cons q cs
    have hquotes : (d == '\x22' || d == '\'') = (q == '\x22' || q == '\'') :=
      hclass _ ((Asciiwise.beq (by decide)).or (.beq (by decide)))
    rw [hbytes, attributeValue, attributeValue, hquotes]
    split
    · next hquote =>
      have hq : q.toNat < 128 := by
        simp only [Bool.or_eq_true, beq_iff_eq] at hquote
        rcases hquote with rfl | rfl <;> decide
      obtain ⟨rfl, rfl⟩ := hascii hq
      rw [Text.takeWhile_byteChars (.bne hq), Text.dropWhile_byteChars (.bne hq), byteString,
        String.toList_ofList]
      cases hdrop : cs.dropWhile (· != d) with
      | nil => rfl
      | cons y ys =>
        -- what the value is read up to is the quote, which is one byte
        rw [eq_of_dropWhile_bne hdrop, Text.byteChars_cons, Text.byteChars_of_lt hq]
        rfl
    · rw [← hbytes, Text.takeWhile_byteChars asciiwise_isBareChar,
        Text.dropWhile_byteChars asciiwise_isBareChar, byteString, String.toList_ofList]

/-- One attribute, from byte to byte. -/
theorem readAttribute_byteChars (cs : List Char) :
    readAttribute (byteChars cs) =
      (((byteString (readAttribute cs).1.1), byteString (readAttribute cs).1.2),
        byteChars (readAttribute cs).2) := by
  unfold readAttribute
  rw [Text.takeWhile_byteChars asciiwise_isAttributeChar,
    Text.dropWhile_byteChars asciiwise_isAttributeChar,
      Text.dropWhile_byteChars asciiwise_isTagSpace]
  cases (cs.dropWhile isAttributeChar).dropWhile isTagSpace with
  | nil => simp [byteString]
  | cons c rest =>
    obtain ⟨d, ds, hbytes, hascii, hclass⟩ := Text.exists_byteChars_cons c rest
    by_cases hc : c = '='
    · obtain ⟨rfl, rfl⟩ := hascii (by rw [hc]; decide)
      rw [hbytes, hc]
      simp only [Text.dropWhile_byteChars asciiwise_isTagSpace, attributeValue_byteChars,
        byteString, String.toList_ofList]
    · have hequals : (d == '=') = (c == '=') := hclass _ (.beq (by decide))
      have hd : d ≠ '=' := by
        rw [beq_false_of_ne hc] at hequals
        exact beq_eq_false_iff_ne.mp hequals
      rw [hbytes]
      simp [hc, hd, byteString, hbytes]

/-- The attributes that are read from the bytes of a text are those read from the text. -/
theorem readEntries_byteChars (n : Nat) (cs : List Char) :
    readEntries n (byteChars cs) =
      ((readEntries n cs).1.map (fun entry => (byteString entry.1, byteString entry.2)),
        byteChars (readEntries n cs).2) := by
  induction n generalizing cs with
  | zero => rfl
  | succ n ih =>
    rw [readEntries, readEntries, Text.dropWhile_byteChars asciiwise_isTagBlank]
    cases cs.dropWhile isTagBlank with
    | nil => rfl
    | cons c rest =>
      obtain ⟨d, ds, hbytes, hascii, hclass⟩ := Text.exists_byteChars_cons c rest
      have hstop : (d == '>' || d == '/') = (c == '>' || c == '/') :=
        hclass _ ((Asciiwise.beq (by decide)).or (.beq (by decide)))
      have hequals : (d == '=') = (c == '=') := hclass _ (.beq (by decide))
      rw [hbytes]
      dsimp only
      rw [hstop, hequals]
      split
      · rw [hbytes]
        rfl
      · split
        · next hc =>
          obtain ⟨rfl, rfl⟩ := hascii (by rw [beq_iff_eq.mp hc]; decide)
          exact ih rest
        · rw [← hbytes, readAttribute_byteChars, ih, List.map_cons]

/-- **What is cut out of a tag is cut out of its bytes.** -/
theorem tagTexts_byteChars (cs : List Char) :
    tagTexts (byteChars cs) = (tagTexts cs).map byteChars := by
  have hlength := (List.dropWhile_suffix (l := cs) isNameChar).length_le
  have hbytes := Text.length_le_byteChars cs
  -- both are read in steps enough
  have hsteps : readEntries ((byteChars cs).length + 1) (cs.dropWhile isNameChar) =
      readEntries (cs.length + 1) (cs.dropWhile isNameChar) :=
    readEntries_eq_of_lt (by omega) (by omega)
  rw [tagTexts, tagTexts, tagEntries, tagEntries, Text.takeWhile_byteChars asciiwise_isNameChar,
    Text.dropWhile_byteChars asciiwise_isNameChar, readEntries_byteChars, hsteps, List.map_cons,
    List.flatMap_map, List.map_flatMap]
  simp [entryTexts, byteString]

end VueSetup.Sfc
