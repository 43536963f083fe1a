import VueSetup.Proofs.Sfc.Descriptor
import VueSetup.Proofs.Text.Tag

/-!
# VueSetup.Proofs.Sfc.Written

Files that are written block by block, and the blocks that the scan finds in them.

A block is written as `<tag name="value" flag>content</tag>`, with comments and text without any `<`
before it. The scan finds every block of such a file, with its attributes and its content as they
were written (`blocks_fileText`), and at the offsets at which it stands. What a block must not hold
for this is its own closing tag and, in a template, the start of another one, both in whatever case.

A file with no unique role written twice is split into its blocks by role; in any other file the
first block whose slot is taken is reported, at its offsets (`parse_fileText`).
-/

namespace VueSetup.Sfc

open Text (byteSize)

/-! ### Case

Tags are compared by their lower-case letters, here for texts and for what a text holds. -/

/-- The text holds the given one somewhere, where the case of ASCII letters does not count. -/
def HoldsAnyCase (p cs : List Char) : Prop :=
  p.map Char.toLower <:+: cs.map Char.toLower

instance (p cs : List Char) : Decidable (HoldsAnyCase p cs) :=
  inferInstanceAs (Decidable (_ <:+: _))

/-- Both are compared in lower case. -/
theorem startsWithAnyCase_iff {p cs : List Char} :
    startsWithAnyCase p cs = true ↔ p.map Char.toLower <+: cs.map Char.toLower := by
  fun_induction startsWithAnyCase p cs with
  | case1 cs => simp
  | case2 p ps => simp
  | case3 p ps c cs ih => simp [List.cons_prefix_cons, ih]

/-- Two names are the same if they are in lower case. -/
theorem sameName_iff {a b : String} :
    sameName a b = true ↔ a.toList.map Char.toLower = b.toList.map Char.toLower := by
  simp [sameName]

/-- A tag that starts before a `<` ends before it, since it has no `<` behind its first
character. -/
theorem prefix_of_prefix_append_cons {α : Type} {a x : α} {p s r : List α}
    (h : a :: p <+: s ++ x :: r) (hs : s ≠ []) (hx : x ∉ p) : a :: p <+: s := by
  obtain ⟨b, s, rfl⟩ := List.exists_cons_of_ne_nil hs
  rw [List.cons_append, List.cons_prefix_cons] at h
  rw [List.cons_prefix_cons]
  refine ⟨h.1, ?_⟩
  rcases List.prefix_or_prefix_of_prefix h.2 (List.prefix_append s (x :: r)) with hp | ⟨t, rfl⟩
  · exact hp
  · cases t with
    | nil => simp
    | cons y t =>
      have hy := (List.prefix_append_right_inj s).mp h.2
      rw [List.cons_prefix_cons] at hy
      simp [hy.1] at hx

/-- A tag that a content does not hold does not start in it either, when a `<` follows. -/
theorem not_startsWithAnyCase {p cs : List Char} {c : Char} {rest : List Char}
    (hp : '<' ∉ p.map Char.toLower) (hfree : ¬ HoldsAnyCase ('<' :: p) (c :: cs)) :
    startsWithAnyCase ('<' :: p) (c :: cs ++ '<' :: rest) = false := by
  rw [Bool.eq_false_iff]
  intro h
  rw [startsWithAnyCase_iff, List.map_append, List.map_cons, List.map_cons] at h
  refine hfree (List.IsPrefix.isInfix ?_)
  rw [List.map_cons]
  exact prefix_of_prefix_append_cons h (by simp) hp

/-- A longer text holds what a shorter one does. -/
theorem HoldsAnyCase.cons {p cs : List Char} (c : Char) (h : HoldsAnyCase p cs) :
    HoldsAnyCase p (c :: cs) :=
  List.infix_cons h

/-- Which of two spellings is looked for does not matter. -/
theorem holdsAnyCase_congr {p q cs : List Char} (h : p.map Char.toLower = q.map Char.toLower) :
    HoldsAnyCase p cs ↔ HoldsAnyCase q cs := by
  rw [HoldsAnyCase, HoldsAnyCase, h]

/-! ### Characters

The characters of a tag's name are ASCII characters, and none of them is a `<`. -/

/-- The character takes one byte. -/
theorem isNameChar_ascii {c : Char} (h : isNameChar c = true) : c.utf8Size = 1 := by
  rw [isNameChar, Bool.or_eq_true, Bool.or_eq_true, beq_iff_eq, beq_iff_eq] at h
  rcases h with (h | rfl) | rfl
  · have h : (c.isUpper || c.isLower || c.isDigit) = true := h
    rw [Bool.or_eq_true, Bool.or_eq_true] at h
    rcases h with (h | h) | h
    · have hle : c ≤ 'Z' := (of_decide_eq_true h).2
      exact Text.utf8Size_of_le hle (by decide)
    · have hle : c ≤ 'z' := of_decide_eq_true (Bool.and_eq_true_iff.mp h).2
      exact Text.utf8Size_of_le hle (by decide)
    · have hle : c ≤ '9' := of_decide_eq_true (Bool.and_eq_true_iff.mp h).2
      exact Text.utf8Size_of_le hle (by decide)
  · rfl
  · rfl

/-- A name holds no `<`. -/
theorem lt_notMem_of_isNameChar {cs : List Char} (h : ∀ c ∈ cs, isNameChar c = true) :
    '<' ∉ cs := by
  intro hmem
  exact absurd (h '<' hmem) (by decide)

/-! ### Closing tags

A content that holds no closing tag is passed over. That a closing tag could start in the content
and end behind it is ruled out: it has one `<` only, at its start. -/

/-- Where the scan stands behind a text. -/
def Closing.over (p : Closing) (cs : List Char) : Closing :=
  cs.foldl Closing.advance p

/-- The scan counts the bytes of a text. -/
theorem Closing.offset_over (p : Closing) (cs : List Char) :
    (p.over cs).offset = p.offset + byteSize cs := by
  induction cs generalizing p with
  | nil => rfl
  | cons c cs ih =>
    show ((p.advance c).over cs).offset = _
    rw [ih, Text.byteSize_cons, Closing.advance, Nat.add_assoc]

/-- The scan for a closing tag passes over a content that does not hold it. -/
theorem findClosing?_append {tag spelled content : List Char} (rest : List Char)
    (hsame : spelled.map Char.toLower = tag.map Char.toLower) (htag : '<' ∉ tag)
    (hfree : ¬ HoldsAnyCase ('<' :: tag) content) (p : Closing) :
    findClosing? ('<' :: tag) p (content ++ '<' :: (spelled ++ rest)) = some (p.over content) := by
  induction content generalizing p with
  | nil =>
    have hstart : startsWithAnyCase ('<' :: tag) ('<' :: (spelled ++ rest)) = true := by
      rw [startsWithAnyCase_iff]
      simp [hsame, List.prefix_append]
    simp [findClosing?, hstart, Closing.over]
  | cons c content ih =>
    have hnot : startsWithAnyCase ('<' :: tag) (c :: (content ++ '<' :: (spelled ++ rest))) =
        false :=
      not_startsWithAnyCase (Text.lt_notMem_map_toLower htag) hfree
    rw [List.cons_append, findClosing?, hnot, Bool.and_false]
    exact ih (fun h => hfree (h.cons c)) (p.advance c)

/-- The scan for the end of a template passes over a text that neither opens nor closes one. -/
theorem findTemplateClosing?_passed {content : List Char}
    (hclose : ¬ HoldsAnyCase "</template>".toList content)
    (hopen : ¬ HoldsAnyCase "<template".toList content) (depth : Nat) (p : Closing)
    (rest : List Char) :
    findTemplateClosing? depth p (content ++ '<' :: rest) =
      findTemplateClosing? depth (p.over content) ('<' :: rest) := by
  induction content generalizing p with
  | nil => rfl
  | cons c content ih =>
    have hnotClose : startsWithAnyCase "</template>".toList (c :: (content ++ '<' :: rest)) =
        false :=
      not_startsWithAnyCase (p := "/template>".toList) (by decide) hclose
    have hnotOpen : startsWithAnyCase "<template".toList (c :: (content ++ '<' :: rest)) = false :=
      not_startsWithAnyCase (p := "template".toList) (by decide) hopen
    have hpass : (c == '<' && opensTemplate (content ++ '<' :: rest)) = false := by
      by_cases hc : c = '<'
      · have hname : startsWithAnyCase "template".toList (content ++ '<' :: rest) = false := by
          subst hc
          simpa [startsWithAnyCase] using hnotOpen
        rw [opensTemplate, hname]
        simp
      · simp [hc]
    rw [List.cons_append, findTemplateClosing?, hnotClose, Bool.and_false, hpass]
    exact ih (fun h => hclose (h.cons c)) (fun h => hopen (h.cons c)) (p.advance c)

/-- The scan for the end of a template comes to it behind a content that neither opens nor closes
one. -/
theorem findTemplateClosing?_append {spelled content : List Char} (rest : List Char)
    (hsame : spelled.map Char.toLower = "/template>".toList)
    (hclose : ¬ HoldsAnyCase "</template>".toList content)
    (hopen : ¬ HoldsAnyCase "<template".toList content) (p : Closing) :
    findTemplateClosing? 1 p (content ++ '<' :: (spelled ++ rest)) = some (p.over content) := by
  have hstart : startsWithAnyCase "</template>".toList ('<' :: (spelled ++ rest)) = true := by
    rw [startsWithAnyCase_iff]
    simp [hsame]
  rw [findTemplateClosing?_passed hclose hopen, findTemplateClosing?, hstart]
  rfl

/-! ### Attributes

Each attribute is written with one space before it and with double quotes around its value, so that
what follows it starts with a space or with the end of the tag. -/

/-- An attribute as it is written, with a value in quotes or without one. -/
structure WrittenAttribute where
  name : String
  value? : Option String

namespace WrittenAttribute

/-- The text of an attribute, with the space before it. -/
def text (a : WrittenAttribute) : List Char :=
  match a.value? with
  | none => ' ' :: a.name.toList
  | some value => ' ' :: a.name.toList ++ '=' :: '\x22' :: value.toList ++ ['\x22']

/-- What is read of an attribute. -/
def entry (a : WrittenAttribute) : String × String :=
  (a.name, a.value?.getD "")

/-- The attribute can be told from what stands around it. -/
structure Proper (a : WrittenAttribute) : Prop where
  name_ne : a.name.toList ≠ []
  name_chars : ∀ c ∈ a.name.toList, isAttributeChar c = true
  value_chars : ∀ value ∈ a.value?, '\x22' ∉ value.toList

instance (a : WrittenAttribute) : Decidable a.Proper :=
  decidable_of_iff (a.name.toList ≠ [] ∧ a.name.toList.all isAttributeChar = true ∧
      ∀ value ∈ a.value?, '\x22' ∉ value.toList)
    ⟨fun ⟨hne, hname, hvalue⟩ => ⟨hne, List.all_eq_true.mp hname, hvalue⟩,
      fun h => ⟨h.name_ne, List.all_eq_true.mpr h.name_chars, h.value_chars⟩⟩

end WrittenAttribute

/-- The text of a tag from behind its name. -/
def tagText (as : List WrittenAttribute) (rest : List Char) : List Char :=
  as.flatMap WrittenAttribute.text ++ '>' :: rest

/-- Every attribute takes some room. -/
theorem length_le_tagText (as : List WrittenAttribute) (rest : List Char) :
    as.length ≤ (tagText as rest).length := by
  induction as with
  | nil => exact Nat.zero_le _
  | cons a as ih =>
    have htext : 0 < a.text.length := by cases h : a.value? <;> simp [WrittenAttribute.text, h]
    simp only [tagText, List.flatMap_cons, List.length_append, List.length_cons] at ih ⊢
    omega

/-- A character of an attribute's name is none of the marks of a tag, and no blank. -/
theorem isAttributeChar_ne {c : Char} (h : isAttributeChar c = true) :
    c ≠ '=' ∧ c ≠ '>' ∧ c ≠ '/' ∧ isTagBlank c = false := by
  simp only [isAttributeChar, isBareChar, Bool.and_eq_true, bne_iff_ne, Bool.not_eq_true',
    Bool.or_eq_false_iff, beq_eq_false_iff_ne] at h
  exact ⟨h.1, h.2.1.1, h.2.1.2, h.2.2⟩

/-- Each space counts as a blank. -/
theorem isTagBlank_of_isTagSpace {c : Char} (h : isTagSpace c = true) : isTagBlank c = true := by
  simp only [isTagSpace, Bool.or_eq_true] at h
  rcases h with h | h <;> simp [isTagBlank, h]

/-- Spaces before an attribute do not matter. -/
theorem readAttributes_dropWhile (n : Nat) (attrs : Attributes) (cs : List Char) :
    readAttributes (n + 1) attrs (cs.dropWhile isTagSpace) = readAttributes (n + 1) attrs cs := by
  have hdrop : (cs.dropWhile isTagSpace).dropWhile isTagBlank = cs.dropWhile isTagBlank := by
    induction cs with
    | nil => rfl
    | cons c cs ih =>
      by_cases hc : isTagSpace c = true
      · rw [List.dropWhile_cons_of_pos hc, ih,
          List.dropWhile_cons_of_pos (isTagBlank_of_isTagSpace hc)]
      · rw [List.dropWhile_cons_of_neg hc]
  rw [readAttributes, hdrop, readAttributes]

/-- Behind an attribute stands no `=` of its own. -/
theorem exists_dropWhile_tagText {as : List WrittenAttribute} (has : ∀ a ∈ as, a.Proper)
    (rest : List Char) :
    ∃ c cs, (tagText as rest).dropWhile isTagSpace = c :: cs ∧ c ≠ '=' := by
  cases as with
  | nil => exact ⟨'>', rest, rfl, by decide⟩
  | cons a as =>
    have ha := has a (by simp)
    obtain ⟨c, cs, hname⟩ := List.exists_cons_of_ne_nil ha.name_ne
    obtain ⟨hne, -, -, hblank⟩ := isAttributeChar_ne (ha.name_chars c (by simp [hname]))
    have hspace : isTagSpace c = false := by
      rw [Bool.eq_false_iff]
      intro h
      rw [isTagBlank_of_isTagSpace h] at hblank
      cases hblank
    have htext : ∃ more, tagText (a :: as) rest = ' ' :: c :: more := by
      cases hvalue : a.value? <;> simp [tagText, WrittenAttribute.text, hvalue, hname]
    obtain ⟨more, htext⟩ := htext
    refine ⟨c, more, ?_, hne⟩
    rw [htext, List.dropWhile_cons_of_pos rfl, List.dropWhile_cons_of_neg (by simp [hspace])]

/-- An attribute with a new name comes last. -/
theorem Attributes.insert_of_notMem {attrs : Attributes} {name : String}
    (h : name ∉ attrs.map Prod.fst) (value : String) :
    attrs.insert name value = attrs ++ [(name, value)] := by
  induction attrs with
  | nil => rfl
  | cons e attrs ih =>
    rw [List.map_cons, List.mem_cons, not_or] at h
    rw [Attributes.insert, if_neg (Ne.symm h.1), ih h.2, List.cons_append]

/-- What is read behind the name of an attribute. -/
def readBehindName (n : Nat) (attrs : Attributes) (name : String) :
    List Char → Attributes × List Char
  | '=' :: rest =>
    let value := attributeValue (rest.dropWhile isTagSpace)
    readAttributes n (attrs.insert name value.1) value.2
  | rest => readAttributes n (attrs.insert name "") rest

/-- A name is read up to the first character that cannot stand in one. -/
theorem readAttributes_name {name : List Char} (hne : name ≠ [])
    (hname : ∀ c ∈ name, isAttributeChar c = true) {x : Char} (hx : isAttributeChar x = false)
    (xs : List Char) (n : Nat) (attrs : Attributes) :
    readAttributes (n + 1) attrs (' ' :: (name ++ x :: xs)) =
      readBehindName n attrs (String.ofList name) ((x :: xs).dropWhile isTagSpace) := by
  obtain ⟨c, cs, rfl⟩ := List.exists_cons_of_ne_nil hne
  obtain ⟨heq, hgt, hslash, hblank⟩ := isAttributeChar_ne (hname c (by simp))
  have htake : (c :: (cs ++ x :: xs)).takeWhile isAttributeChar = c :: cs := by
    rw [← List.cons_append, List.takeWhile_append_of_pos hname,
      List.takeWhile_cons_of_neg (by simp [hx]), List.append_nil]
  have hdrop : (c :: (cs ++ x :: xs)).dropWhile isAttributeChar = x :: xs := by
    rw [← List.cons_append, List.dropWhile_append_of_pos hname,
      List.dropWhile_cons_of_neg (by simp [hx])]
  rw [readAttributes, List.dropWhile_cons_of_pos rfl, List.cons_append,
    List.dropWhile_cons_of_neg (by simp [hblank])]
  simp only [beq_iff_eq, heq, hgt, hslash, if_false, htake, hdrop, or_self, Bool.or_eq_true]
  rfl

/-- One attribute is read off. -/
theorem readAttributes_cons {a : WrittenAttribute} (ha : a.Proper) {as : List WrittenAttribute}
    (has : ∀ b ∈ as, b.Proper) (rest : List Char) (n : Nat) (attrs : Attributes) :
    readAttributes (n + 2) attrs (tagText (a :: as) rest) =
      readAttributes (n + 1) (attrs.insert a.entry.1 a.entry.2) (tagText as rest) := by
  cases hvalue : a.value? with
  | none =>
    have htext : tagText (a :: as) rest = ' ' :: (a.name.toList ++ tagText as rest) := by
      simp [tagText, WrittenAttribute.text, hvalue]
    obtain ⟨x, xs, hx, hcut⟩ : ∃ x xs, tagText as rest = x :: xs ∧ isAttributeChar x = false := by
      cases as with
      | nil => exact ⟨'>', rest, rfl, rfl⟩
      | cons b bs => cases hb : b.value? <;> simp [tagText, WrittenAttribute.text, hb] <;> rfl
    -- Blanks are passed to look for a `=`, which no other attribute starts with.
    obtain ⟨c, cs, hdrop, hc⟩ := exists_dropWhile_tagText has rest
    rw [htext, ← readAttributes_dropWhile n _ (tagText as rest), hdrop, hx,
      readAttributes_name ha.name_ne ha.name_chars hcut, ← hx, hdrop]
    unfold readBehindName
    split
    · next heq =>
      cases heq
      exact absurd rfl hc
    · simp [WrittenAttribute.entry, hvalue]
  | some value =>
    have htext : tagText (a :: as) rest =
        ' ' :: (a.name.toList ++ '=' :: '\x22' :: (value.toList ++ '\x22' :: tagText as rest)) := by
      simp [tagText, WrittenAttribute.text, hvalue]
    have hquote : ∀ c ∈ value.toList, (c != '\x22') = true := by
      intro c hc
      rw [bne_iff_ne]
      rintro rfl
      exact ha.value_chars value hvalue hc
    have hread : attributeValue ('\x22' :: (value.toList ++ '\x22' :: tagText as rest)) =
        (value, tagText as rest) := by
      rw [attributeValue, if_pos (by decide), List.takeWhile_append_of_pos hquote,
        List.dropWhile_append_of_pos hquote]
      simp
    rw [htext, readAttributes_name ha.name_ne ha.name_chars rfl]
    simp only [List.dropWhile_cons_of_neg (show ¬ isTagSpace '=' = true by decide),
      List.dropWhile_cons_of_neg (show ¬ isTagSpace '\x22' = true by decide), readBehindName, hread,
      WrittenAttribute.entry, hvalue, Option.getD_some, String.ofList_toList]

/-- All attributes of a tag are read, in order. -/
theorem readAttributes_tagText {as : List WrittenAttribute} (has : ∀ a ∈ as, a.Proper)
    (rest : List Char) {n : Nat} (hn : as.length ≤ n) {attrs : Attributes}
    (hnodup : (attrs.map Prod.fst ++ as.map WrittenAttribute.name).Nodup) :
    readAttributes (n + 1) attrs (tagText as rest) =
      (attrs ++ as.map WrittenAttribute.entry, '>' :: rest) := by
  induction as generalizing n attrs with
  | nil => simp [tagText, readAttributes, isTagBlank]
  | cons a as ih =>
    obtain ⟨n, rfl⟩ := Nat.exists_eq_add_one_of_ne_zero (Nat.ne_zero_of_lt hn)
    have has' : ∀ b ∈ as, b.Proper := fun b hb => has b (List.mem_cons_of_mem a hb)
    have hnew : a.name ∉ attrs.map Prod.fst := by
      intro h
      exact (List.nodup_append.mp hnodup).2.2 _ h _ (by simp) rfl
    rw [readAttributes_cons (has a (by simp)) has', WrittenAttribute.entry,
      Attributes.insert_of_notMem hnew, ih has' (by simpa using hn)]
    · simp [WrittenAttribute.entry]
    · simpa [WrittenAttribute.entry] using hnodup

/-! ### Between blocks

Between two blocks the scan meets text and comments, and passes over both without reading a tag. -/

/-- What stands between blocks. -/
inductive Separator where
  /-- Text without any `<`. -/
  | text (chars : String)
  /-- A comment, without its `<!--` and `-->`. -/
  | comment (chars : String)

namespace Separator

/-- How a separator is written. -/
def chars : Separator → List Char
  | .text chars => chars.toList
  | .comment chars => "<!--".toList ++ chars.toList ++ "-->".toList

/-- The separator ends where it was written to end. Behind `<!--`, a `>` or a `->` would be the end
of the comment already. -/
def Proper : Separator → Prop
  | .text chars => '<' ∉ chars.toList
  | .comment chars => ¬ "-->".toList <:+: chars.toList ∧ ¬ ">".toList <+: chars.toList ∧
      ¬ "->".toList <+: chars.toList

instance (s : Separator) : Decidable s.Proper :=
  match s with
  | .text chars => inferInstanceAs (Decidable ('<' ∉ chars.toList))
  | .comment _ => inferInstanceAs (Decidable (_ ∧ _ ∧ _))

end Separator

/-- The text between two blocks. -/
def gapText (gap : List Separator) : List Char :=
  gap.flatMap Separator.chars

/-- The place behind two texts. -/
theorem Place.over_append (p : Place) (xs ys : List Char) :
    p.over (xs ++ ys) = (p.over xs).over ys :=
  List.foldl_append

/-- A comment goes on where it does not end. -/
theorem splitComment_cons {c : Char} {cs : List Char} (h : ¬ "-->".toList <+: c :: cs) :
    splitComment (c :: cs) = (c :: (splitComment cs).1, (splitComment cs).2) := by
  rw [splitComment]
  rintro cs rfl rfl
  exact h (List.prefix_append "-->".toList cs)

/-- A comment ends at the first `-->`. No other one can stand astride its end, since the two dashes
of `-->` are followed by no dash. -/
theorem splitComment_append {cs : List Char} (h : ¬ "-->".toList <:+: cs) (rest : List Char) :
    splitComment (cs ++ ("-->".toList ++ rest)) = (cs ++ "-->".toList, rest) := by
  induction cs with
  | nil => rfl
  | cons c cs ih =>
    have hnot : ¬ "-->".toList <+: c :: (cs ++ ("-->".toList ++ rest)) := by
      intro hstart
      match cs, h with
      | [], _ => simp at hstart
      | [d], _ => simp at hstart
      | d :: e :: cs, h =>
        refine h (List.IsPrefix.isInfix ?_)
        simpa using hstart
    rw [List.cons_append, splitComment_cons hnot, ih fun hin => h (List.infix_cons hin)]
    rfl

/-- Up to its end, a comment holds no `-->`. -/
theorem Separator.Proper.notInfix_comment {chars : String} (h : (Separator.comment chars).Proper) :
    ¬ "-->".toList <:+: "<!--".toList ++ chars.toList := by
  obtain ⟨hin, hgt, harrow⟩ := h
  intro hcomment
  simp [List.infix_cons_iff] at hcomment
  simp at hin hgt harrow
  rcases hcomment with h | h | h
  · exact hgt h
  · exact harrow h
  · exact hin h

/-- Text without any `<` is passed over. -/
theorem blocksFrom_passed {cs : List Char} (h : '<' ∉ cs) (n : Nat) (p : Place) (rest : List Char) :
    blocksFrom n p (cs ++ rest) = blocksFrom n (p.over cs) rest := by
  have hpass : ∀ c ∈ cs, (c != '<') = true := by
    intro c hc
    rw [bne_iff_ne]
    rintro rfl
    exact h hc
  cases n with
  | zero => rfl
  | succ n =>
    rw [blocksFrom, blocksFrom, List.takeWhile_append_of_pos hpass,
      List.dropWhile_append_of_pos hpass, Place.over_append]

/-- A comment is passed over in one step. -/
theorem blocksFrom_comment {chars : String} (h : (Separator.comment chars).Proper) (n : Nat)
    (p : Place) (rest : List Char) :
    blocksFrom (n + 1) p ((Separator.comment chars).chars ++ rest) =
      blocksFrom n (p.over (Separator.comment chars).chars) rest := by
  have hsplit : splitComment ('<' :: ("!--".toList ++ chars.toList ++ "-->".toList ++ rest)) =
      ((Separator.comment chars).chars, rest) := by
    rw [List.append_assoc]
    exact splitComment_append h.notInfix_comment rest
  have hchars : (Separator.comment chars).chars ++ rest =
      '<' :: ("!--".toList ++ chars.toList ++ "-->".toList ++ rest) := rfl
  have hcomment : "!--".toList.isPrefixOf
      ("!--".toList ++ chars.toList ++ "-->".toList ++ rest) = true := by
    simp
  rw [hchars, blocksFrom, List.dropWhile_cons_of_neg (by decide),
    List.takeWhile_cons_of_neg (by decide)]
  simp only [hcomment, if_true, hsplit]
  rfl

/-- The scan passes over what stands between blocks, and enough steps are left for what follows. -/
theorem blocksFrom_gapText {gap : List Separator} (h : ∀ s ∈ gap, s.Proper) (rest : List Char)
    {n : Nat} (hn : (gapText gap ++ rest).length < n) (p : Place) :
    ∃ m, rest.length < m ∧
      blocksFrom n p (gapText gap ++ rest) = blocksFrom m (p.over (gapText gap)) rest := by
  induction gap generalizing n p with
  | nil => exact ⟨n, hn, rfl⟩
  | cons s gap ih =>
    have hgap : ∀ s ∈ gap, s.Proper := fun v hv => h v (List.mem_cons_of_mem s hv)
    have hs : s.Proper := h s List.mem_cons_self
    have htext : gapText (s :: gap) = s.chars ++ gapText gap := rfl
    rw [htext, List.append_assoc, Place.over_append]
    rw [htext, List.append_assoc, List.length_append] at hn
    cases s with
    | text chars =>
      obtain ⟨m, hm, hrest⟩ := ih hgap (show _ < n by omega) (p.over chars.toList)
      exact ⟨m, hm, (blocksFrom_passed hs n p _).trans hrest⟩
    | comment chars =>
      obtain ⟨n, rfl⟩ := Nat.exists_eq_add_one_of_ne_zero (Nat.ne_zero_of_lt hn)
      have hlength : 0 < (Separator.comment chars).chars.length := Nat.succ_pos _
      rw [blocksFrom_comment hs]
      exact ih hgap (by omega) _

/-! ### Blocks

A block is given by what a writer of the file chooses. What the scan is to make of it can be told
from these choices and from the place of its `<`. -/

/-- A block as it is written, with what stands before it. -/
structure Written where
  gap : List Separator
  tag : String
  attributes : List WrittenAttribute
  content : String

namespace Written

/-- The opening tag behind its `<`. -/
def opening (w : Written) : List Char :=
  w.tag.toList ++ tagText w.attributes []

/-- The closing tag behind its `<`. -/
def closing (w : Written) : List Char :=
  '/' :: (w.tag.toList ++ ['>'])

/-- The text of a block. -/
def text (w : Written) : List Char :=
  gapText w.gap ++ '<' :: (w.opening ++ w.content.toList ++ '<' :: w.closing)

/-- What is read of the attributes. -/
def entries (w : Written) : Attributes :=
  w.attributes.map WrittenAttribute.entry

/-- The block can be told from what stands around it, unless it is a template. -/
structure Proper (w : Written) : Prop where
  gap_proper : ∀ s ∈ w.gap, s.Proper
  tag_ne : w.tag.toList ≠ []
  tag_chars : ∀ c ∈ w.tag.toList, isNameChar c = true
  attributes_proper : ∀ a ∈ w.attributes, a.Proper
  attributes_nodup : (w.attributes.map WrittenAttribute.name).Nodup
  content_free : ¬ HoldsAnyCase ('<' :: w.closing) w.content.toList

instance (w : Written) : Decidable w.Proper :=
  decidable_of_iff ((∀ s ∈ w.gap, s.Proper) ∧ w.tag.toList ≠ [] ∧
      w.tag.toList.all isNameChar = true ∧ (∀ a ∈ w.attributes, a.Proper) ∧
      (w.attributes.map WrittenAttribute.name).Nodup ∧
      ¬ HoldsAnyCase ('<' :: w.closing) w.content.toList)
    ⟨fun ⟨hgap, hne, htag, has, hnodup, hfree⟩ =>
        ⟨hgap, hne, List.all_eq_true.mp htag, has, hnodup, hfree⟩,
      fun h => ⟨h.gap_proper, h.tag_ne, List.all_eq_true.mpr h.tag_chars, h.attributes_proper,
        h.attributes_nodup, h.content_free⟩⟩

/-- A template opens no other template. -/
def IsFlat (w : Written) : Prop :=
  sameName w.tag "template" = true → ¬ HoldsAnyCase "<template".toList w.content.toList

instance (w : Written) : Decidable w.IsFlat :=
  inferInstanceAs (Decidable (_ → _))

/-- What stands behind the tag stands behind its text. -/
theorem tagText_append (as : List WrittenAttribute) (rest : List Char) :
    tagText as rest = tagText as [] ++ rest := by
  simp [tagText]

/-- The closing tag has ASCII characters only. -/
theorem byteSize_closing {w : Written} (h : w.Proper) : byteSize w.closing = w.closing.length := by
  refine Text.byteSize_eq_length fun c hc => ?_
  simp only [closing, List.mem_cons, List.mem_append, List.not_mem_nil, or_false] at hc
  rcases hc with rfl | hc | rfl
  · rfl
  · exact isNameChar_ascii (h.tag_chars c hc)
  · rfl

/-- But for case, a closing tag is known by the name. -/
theorem map_toLower_closing {w : Written} {name : String} (h : sameName w.tag name = true) :
    w.closing.map Char.toLower = '/' :: (name.toList.map Char.toLower ++ ['>']) := by
  rw [closing, List.map_cons, List.map_append, sameName_iff.mp h]
  rfl

/-- The closing tag has one `<`, at its start. -/
theorem lt_notMem_closing {w : Written} (h : w.Proper) : '<' ∉ w.closing := by
  simp [closing, lt_notMem_of_isNameChar h.tag_chars]

/-- The opening tag is read as it was written. -/
theorem read?_opening {w : Written} (h : w.Proper) (rest : List Char) :
    OpenTag.read? (w.opening ++ rest) = some ⟨w.tag, w.entries, false, rest⟩ := by
  have htext : w.opening ++ rest = w.tag.toList ++ tagText w.attributes rest := by
    rw [opening, List.append_assoc, ← tagText_append]
  obtain ⟨x, xs, hx, hcut⟩ :
      ∃ x xs, tagText w.attributes rest = x :: xs ∧ isNameChar x = false := by
    cases w.attributes with
    | nil => exact ⟨'>', rest, rfl, rfl⟩
    | cons b bs => cases hb : b.value? <;> simp [tagText, WrittenAttribute.text, hb] <;> rfl
  have htake : (w.opening ++ rest).takeWhile isNameChar = w.tag.toList := by
    rw [htext, List.takeWhile_append_of_pos h.tag_chars, hx,
      List.takeWhile_cons_of_neg (by simp [hcut]), List.append_nil]
  have hdrop : (w.opening ++ rest).dropWhile isNameChar = tagText w.attributes rest := by
    rw [htext, List.dropWhile_append_of_pos h.tag_chars, hx,
      List.dropWhile_cons_of_neg (by simp [hcut])]
  have hlength : w.attributes.length ≤ (w.opening ++ rest).length := by
    have hle := length_le_tagText w.attributes rest
    rw [htext, List.length_append]
    omega
  have hread : readAttributes ((w.opening ++ rest).length + 1) [] (tagText w.attributes rest) =
      ([] ++ w.entries, '>' :: rest) :=
    readAttributes_tagText h.attributes_proper rest hlength h.attributes_nodup
  obtain ⟨c, cs, htag⟩ := List.exists_cons_of_ne_nil h.tag_ne
  rw [OpenTag.read?, htake, htag]
  simp only [hdrop, hread, List.nil_append]
  rw [← htag, String.ofList_toList]

/-- Where the closing tag stands of a block whose `<` stands at `p`. -/
def closed (w : Written) (p : Place) : Closing :=
  Closing.over ⟨p.offset + 1 + byteSize w.opening, p.line, p.offset⟩ w.content.toList

/-- The position behind a block whose `<` stands at `p`. -/
def behind (w : Written) (p : Place) : Place :=
  let q := w.closed p
  let width := w.closing.length + 1
  ⟨q.offset + width, q.line, q.offset - q.lineFeed + width⟩

/-- The block that is read when its `<` stands at `p`. -/
def blockAt (w : Written) (p : Place) : Block :=
  { tag := w.tag
    attributes := w.entries
    content := w.content
    location := ⟨p.offset, p.offset + 1 + byteSize w.opening, (w.closed p).offset, p.line, p.column,
      (w.behind p).line, (w.behind p).column⟩ }

/-- The closing tag is found where it was written, and is as wide as it was written. -/
theorem exists_closing {w : Written} (h : w.Proper) (hflat : w.IsFlat) (p : Closing)
    (rest : List Char) :
    (if sameName w.tag "template" then
      (findTemplateClosing? 1 p (w.content.toList ++ '<' :: (w.closing ++ rest))).map
        (·, "</template>".length)
    else
      (findClosing? ("</".toList ++ w.tag.toList ++ ['>']) p
        (w.content.toList ++ '<' :: (w.closing ++ rest))).map
        (·, ("</".toList ++ w.tag.toList ++ ['>']).length)) =
      some (p.over w.content.toList, w.closing.length + 1) := by
  have htag : "</".toList ++ w.tag.toList ++ ['>'] = '<' :: w.closing := rfl
  split
  · next hname =>
    have hsame : w.closing.map Char.toLower = "/template>".toList := map_toLower_closing hname
    have hlength : w.closing.length = "/template>".length := by
      have hmap := congrArg List.length hsame
      rwa [List.length_map] at hmap
    have hclose : ¬ HoldsAnyCase "</template>".toList w.content.toList := by
      rw [← holdsAnyCase_congr (p := '<' :: w.closing)]
      · exact h.content_free
      · rw [List.map_cons, hsame]
        decide
    rw [findTemplateClosing?_append rest hsame hclose (hflat hname), hlength]
    rfl
  · rw [htag, findClosing?_append rest rfl (lt_notMem_closing h) h.content_free]
    rfl

/-- **One block.** From behind its `<`, a block is read as it was written. -/
theorem read?_found {w : Written} (h : w.Proper) (hflat : w.IsFlat) (p : Place) (rest : List Char) :
    Found.read? p (w.opening ++ (w.content.toList ++ '<' :: (w.closing ++ rest))) =
      some ⟨w.blockAt p, w.behind p, rest⟩ := by
  have hclosing := exists_closing h hflat ⟨p.offset + 1 + byteSize w.opening, p.line, p.offset⟩ rest
  have hsize : byteSize (w.opening ++ (w.content.toList ++ '<' :: (w.closing ++ rest))) -
      byteSize (w.content.toList ++ '<' :: (w.closing ++ rest)) = byteSize w.opening := by
    rw [Text.byteSize_append, Nat.add_sub_cancel]
  have hoffset : (w.closed p).offset - (p.offset + 1 + byteSize w.opening) =
      byteSize w.content.toList := by
    rw [closed, Closing.offset_over, Nat.add_sub_cancel_left]
  have hcontent : Text.between (w.content.toList ++ '<' :: (w.closing ++ rest)) 0
      (byteSize w.content.toList) = w.content.toList := by
    simpa using Text.between_middle [] w.content.toList ('<' :: (w.closing ++ rest))
  have hrest : Text.suffixFrom (w.content.toList ++ '<' :: (w.closing ++ rest))
      (byteSize w.content.toList + (w.closing.length + 1)) = rest := by
    have hwidth : byteSize w.content.toList + (w.closing.length + 1) =
        byteSize (w.content.toList ++ '<' :: w.closing) := by
      rw [Text.byteSize_append, Text.byteSize_cons, byteSize_closing h]
      show _ = _ + (1 + _)
      omega
    rw [hwidth, ← List.cons_append, ← List.append_assoc, Text.suffixFrom_append]
  simp only [Found.read?, read?_opening h, Option.bind_eq_bind, Option.bind_some, hsize, if_false,
    Bool.false_eq_true]
  by_cases hname : sameName w.tag "template" = true
  case' pos => rw [if_pos hname] at hclosing ⊢
  case' neg => rw [if_neg hname] at hclosing ⊢
  -- either way the closing tag stands behind the content and is as wide as it was written
  all_goals
    obtain ⟨q, hq, hpair⟩ := Option.map_eq_some_iff.mp hclosing
    rw [Prod.mk.injEq] at hpair
    rw [hq, hpair.1, hpair.2, ← closed]
    simp only [Option.bind_some, OpenTag.found, hoffset, hcontent, hrest, String.ofList_toList]
    rfl

end Written

/-! ### Files

A file is its blocks in a row, with something behind the last one. The scan needs a step for each
character at most, and has as many. -/

/-- The text of a file of written blocks, with what stands behind the last one. -/
def fileText (ws : List Written) (tail : List Separator) : String :=
  String.ofList (ws.flatMap Written.text ++ gapText tail)

/-- The blocks of a file whose text starts at `p`. -/
def blocksAt : Place → List Written → List Block
  | _, [] => []
  | p, w :: ws =>
    let q := p.over (gapText w.gap)
    w.blockAt q :: blocksAt (w.behind q) ws

/-- One step of the scan reads a block. -/
theorem blocksFrom_block {w : Written} (h : w.Proper) (hflat : w.IsFlat) (n : Nat) (p : Place)
    (rest : List Char) :
    blocksFrom (n + 1) p ('<' :: (w.opening ++ (w.content.toList ++ '<' :: (w.closing ++ rest)))) =
      w.blockAt p :: blocksFrom n (w.behind p) rest := by
  have hcomment : "!--".toList.isPrefixOf
      (w.opening ++ (w.content.toList ++ '<' :: (w.closing ++ rest))) = false := by
    obtain ⟨c, cs, htag⟩ := List.exists_cons_of_ne_nil h.tag_ne
    have hc : c ≠ '!' := by
      rintro rfl
      exact absurd (h.tag_chars '!' (by simp [htag])) (by decide)
    simp [Written.opening, htag, List.isPrefixOf, Ne.symm hc]
  rw [blocksFrom, List.takeWhile_cons_of_neg (by decide), List.dropWhile_cons_of_neg (by decide)]
  simp only [hcomment, if_false, Bool.false_eq_true]
  rw [show p.over [] = p from rfl, Written.read?_found h hflat]

/-- The scan finds the blocks one after the other. -/
theorem blocksFrom_flatMap_text {ws : List Written} (hws : ∀ w ∈ ws, w.Proper ∧ w.IsFlat)
    {tail : List Separator} (htail : ∀ s ∈ tail, s.Proper) {n : Nat}
    (hn : (ws.flatMap Written.text ++ gapText tail).length < n) (p : Place) :
    blocksFrom n p (ws.flatMap Written.text ++ gapText tail) = blocksAt p ws := by
  induction ws generalizing n p with
  | nil =>
    obtain ⟨m, hm, hpass⟩ := blocksFrom_gapText htail [] (by simpa using hn) p
    obtain ⟨m, rfl⟩ := Nat.exists_eq_add_one_of_ne_zero (Nat.ne_zero_of_lt hm)
    rw [List.append_nil] at hpass
    rw [List.flatMap_nil, List.nil_append, hpass]
    rfl
  | cons w ws ih =>
    obtain ⟨hw, hflat⟩ := hws w (by simp)
    have hws' : ∀ v ∈ ws, v.Proper ∧ v.IsFlat := fun v hv => hws v (List.mem_cons_of_mem w hv)
    let rest := ws.flatMap Written.text ++ gapText tail
    have htext : (w :: ws).flatMap Written.text ++ gapText tail = gapText w.gap ++
        '<' :: (w.opening ++ (w.content.toList ++ '<' :: (w.closing ++ rest))) := by
      simp [Written.text, rest]
    rw [htext] at hn ⊢
    obtain ⟨m, hm, hpass⟩ := blocksFrom_gapText hw.gap_proper _ hn p
    obtain ⟨m, rfl⟩ := Nat.exists_eq_add_one_of_ne_zero (Nat.ne_zero_of_lt hm)
    have hrest : rest.length < m := by
      simp only [List.length_cons, List.length_append] at hm
      omega
    rw [hpass, blocksFrom_block hw hflat, ih hws' hrest, blocksAt]

/-- **All blocks.** The scan of a written file finds its blocks. -/
theorem blocks_fileText {ws : List Written} (hws : ∀ w ∈ ws, w.Proper ∧ w.IsFlat)
    {tail : List Separator} (htail : ∀ s ∈ tail, s.Proper) :
    blocks (fileText ws tail) = blocksAt ⟨0, 1, 1⟩ ws := by
  rw [blocks, fileText, String.toList_ofList]
  exact blocksFrom_flatMap_text hws htail (Nat.lt_succ_self _) ⟨0, 1, 1⟩

/-! ### Offsets

The offsets of a block are told from the text before it, without a run of the scan. -/

/-- Places count the bytes of a text too. -/
theorem Place.offset_over (p : Place) (cs : List Char) :
    (p.over cs).offset = p.offset + byteSize cs := by
  induction cs generalizing p with
  | nil => rfl
  | cons c cs ih =>
    show ((p.advance c).over cs).offset = _
    have hadvance : (p.advance c).offset = p.offset + c.utf8Size := by
      unfold Place.advance
      split
      · next hc =>
        rw [hc]
        rfl
      · rfl
    rw [ih, hadvance, Text.byteSize_cons, Nat.add_assoc]

/-- A block takes the bytes of its text. -/
theorem Written.offset_behind {w : Written} (h : w.Proper) (p : Place) :
    (w.behind (p.over (gapText w.gap))).offset = p.offset + byteSize w.text := by
  simp only [behind, closed, Closing.offset_over, Place.offset_over, text, Text.byteSize_append,
    Text.byteSize_cons, byteSize_closing h]
  rw [show ('<' : Char).utf8Size = 1 from rfl]
  omega

/-- A block that is found is one that was written, and it stands where it was written. -/
theorem exists_of_blocksAt_eq {ws : List Written} (hws : ∀ w ∈ ws, w.Proper) {p : Place}
    {bs cs : List Block} {b : Block} (h : blocksAt p ws = bs ++ b :: cs) :
    ∃ before w after q, ws = before ++ w :: after ∧ bs = blocksAt p before ∧ b = w.blockAt q ∧
      q.offset = p.offset + byteSize (before.flatMap Written.text ++ gapText w.gap) := by
  induction ws generalizing p bs with
  | nil => simp [blocksAt] at h
  | cons w ws ih =>
    rw [blocksAt] at h
    cases bs with
    | nil =>
      rw [List.nil_append, List.cons.injEq] at h
      refine ⟨[], w, ws, _, rfl, rfl, h.1.symm, ?_⟩
      rw [Place.offset_over]
      rfl
    | cons a bs =>
      rw [List.cons_append, List.cons.injEq] at h
      obtain ⟨before, v, after, q, rfl, rfl, rfl, hq⟩ :=
        ih (fun v hv => hws v (List.mem_cons_of_mem w hv)) h.2
      refine ⟨w :: before, v, after, q, rfl, by rw [blocksAt, h.1], rfl, ?_⟩
      rw [hq, Written.offset_behind (hws w (by simp)), List.flatMap_cons, List.append_assoc,
        Text.byteSize_append w.text, Nat.add_assoc]

/-- Where a block stands by offsets, its lines and columns aside. -/
structure Extent where
  tagStart : Nat
  start : Nat
  stop : Nat
  deriving DecidableEq

/-- The offsets of a location. -/
def Location.extent (l : Location) : Extent :=
  ⟨l.tagStart, l.start, l.stop⟩

/-- Where a block stands behind the given text. -/
def Written.extentBehind (w : Written) (front : List Char) : Extent :=
  ⟨byteSize (front ++ gapText w.gap),
    byteSize (front ++ gapText w.gap ++ '<' :: w.opening),
    byteSize (front ++ gapText w.gap ++ '<' :: w.opening ++ w.content.toList)⟩

/-- A block stands where the bytes before it say. -/
theorem Written.extent_blockAt (w : Written) {front : List Char} {q : Place}
    (hq : q.offset = byteSize (front ++ gapText w.gap)) :
    (w.blockAt q).location.extent = w.extentBehind front := by
  have hopen : byteSize (front ++ gapText w.gap ++ '<' :: w.opening) =
      q.offset + 1 + byteSize w.opening := by
    rw [Text.byteSize_append, ← hq, Text.byteSize_cons, Nat.add_assoc]
    rfl
  unfold extentBehind
  rw [Text.byteSize_append _ w.content.toList, hopen, ← hq]
  simp only [blockAt, Location.extent, closed, Closing.offset_over]

/-! ### Descriptors

What a descriptor holds of a written file is stated without lines and columns, which the scan does
not always count right. -/

/-- What is read of a block, wherever it stands. -/
def Written.block (w : Written) : Block :=
  (w.blockAt ⟨0, 1, 1⟩).unplaced

/-- A block with its offsets. -/
def Block.placed (b : Block) : Block × Extent :=
  (b.unplaced, b.location.extent)

/-- The blocks of a file and where they stand behind the given text. -/
def placedBehind : List Char → List Written → List (Block × Extent)
  | _, [] => []
  | front, w :: ws => (w.block, w.extentBehind front) :: placedBehind (front ++ w.text) ws

/-- The scan places the blocks where they are written. -/
theorem map_placed_blocksAt {ws : List Written} (hws : ∀ w ∈ ws, w.Proper) {p : Place}
    {front : List Char} (hp : p.offset = byteSize front) :
    (blocksAt p ws).map Block.placed = placedBehind front ws := by
  induction ws generalizing p front with
  | nil => rfl
  | cons w ws ih =>
    have hq : (p.over (gapText w.gap)).offset = byteSize (front ++ gapText w.gap) := by
      rw [Place.offset_over, hp, Text.byteSize_append]
    have hbehind : (w.behind (p.over (gapText w.gap))).offset = byteSize (front ++ w.text) := by
      rw [Written.offset_behind (hws w (by simp)), hp, Text.byteSize_append]
    rw [blocksAt, List.map_cons, ih (fun v hv => hws v (List.mem_cons_of_mem w hv)) hbehind,
      placedBehind, Block.placed, w.extent_blockAt hq]
    rfl

/-- Wherever they stand, the blocks are those that are written. -/
theorem map_unplaced_blocksAt (ws : List Written) (p : Place) :
    (blocksAt p ws).map Block.unplaced = ws.map Written.block := by
  induction ws generalizing p with
  | nil => rfl
  | cons w ws ih =>
    rw [blocksAt, List.map_cons, ih, List.map_cons]
    rfl

/-- The blocks of a file with a role, as they are written. -/
def writtenAs (r : Role) (ws : List Written) : List Block :=
  (ws.map Written.block).filter (·.role == r)

/-- The blocks with a role before a block, that block, and those behind it. -/
theorem writtenAs_append (r : Role) (before after : List Written) (w : Written) :
    writtenAs r (before ++ w :: after) =
      writtenAs r before ++ ([w.block].filter (·.role == r) ++ writtenAs r after) := by
  rw [writtenAs, List.map_append, List.filter_append, List.map_cons, ← List.singleton_append,
    List.filter_append]
  rfl

/-- The same of the blocks with a role. -/
theorem map_unplaced_filter_blocksAt (r : Role) (ws : List Written) (p : Place) :
    ((blocksAt p ws).filter (·.role == r)).map Block.unplaced = writtenAs r ws := by
  rw [writtenAs, ← map_unplaced_blocksAt ws p, List.filter_map]
  rfl

/-- **What a written file holds.** It is what was written, role by role. -/
theorem ofRole_parse_fileText {ws : List Written} (hws : ∀ w ∈ ws, w.Proper ∧ w.IsFlat)
    {tail : List Separator} (htail : ∀ s ∈ tail, s.Proper) {d : Descriptor}
    (h : Descriptor.parse (fileText ws tail) = .ok d) (r : Role) :
    (d.ofRole r).map Block.unplaced = writtenAs r ws := by
  rw [Descriptor.parse, blocks_fileText hws htail] at h
  rw [Descriptor.ofRole_ofBlocks h, map_unplaced_filter_blocksAt]

/-- A written file can be split when no unique role was written twice. -/
theorem exists_parse_fileText {ws : List Written} (hws : ∀ w ∈ ws, w.Proper ∧ w.IsFlat)
    {tail : List Separator} (htail : ∀ s ∈ tail, s.Proper)
    (h : ∀ r : Role, r.isUnique = true → (writtenAs r ws).length ≤ 1) :
    ∃ d, Descriptor.parse (fileText ws tail) = .ok d := by
  rw [Descriptor.parse, blocks_fileText hws htail]
  refine Descriptor.exists_ofBlocks fun r hr => ?_
  have hr := h r hr
  rwa [← map_unplaced_filter_blocksAt r ws ⟨0, 1, 1⟩, List.length_map] at hr

/-- **Splitting a written file.** When no unique role is written twice, every role has the blocks
that were written for it, at their offsets. Otherwise the first block whose slot is taken is the
error, which names the slot and carries the block's offsets. -/
theorem parse_fileText {ws : List Written} (hws : ∀ w ∈ ws, w.Proper ∧ w.IsFlat)
    {tail : List Separator} (htail : ∀ s ∈ tail, s.Proper) :
    ((∀ r : Role, r.isUnique = true → (writtenAs r ws).length ≤ 1) →
      ∃ d, Descriptor.parse (fileText ws tail) = .ok d ∧
        ∀ r : Role, (d.ofRole r).map Block.placed =
          (placedBehind [] ws).filter (·.1.role == r)) ∧
    ((∃ r : Role, r.isUnique = true ∧ 1 < (writtenAs r ws).length) →
      ∃ before w after e, ws = before ++ w :: after ∧
        (∀ r : Role, r.isUnique = true → (writtenAs r before).length ≤ 1) ∧
        w.block.role.isUnique = true ∧ writtenAs w.block.role before ≠ [] ∧
        Descriptor.parse (fileText ws tail) = .error e ∧
        e.kind.role = w.block.role ∧ e.code = "DUPLICATE_" ++ e.kind.label ∧
        e.location.extent = w.extentBehind (before.flatMap Written.text)) := by
  have hproper : ∀ w ∈ ws, w.Proper := fun w hw => (hws w hw).1
  constructor
  · intro hunique
    obtain ⟨d, hd⟩ := exists_parse_fileText hws htail hunique
    have hplaced : (blocksAt ⟨0, 1, 1⟩ ws).map Block.placed = placedBehind [] ws :=
      map_placed_blocksAt hproper rfl
    refine ⟨d, hd, fun r => ?_⟩
    rw [Descriptor.parse, blocks_fileText hws htail] at hd
    rw [Descriptor.ofRole_ofBlocks hd, ← hplaced, List.filter_map]
    rfl
  · rintro ⟨r, hr, htwice⟩
    cases hparse : Descriptor.parse (fileText ws tail) with
    | ok d =>
      -- a slot holds one block at most
      have hone := d.length_ofRole hr
      rw [← ofRole_parse_fileText hws htail hparse, List.length_map] at htwice
      omega
    | error e =>
      rw [Descriptor.parse, blocks_fileText hws htail] at hparse
      obtain ⟨bs, b, cs, d, hbs, hd, hadd⟩ := Descriptor.exists_of_ofBlocks_eq_error hparse
      obtain ⟨before, w, after, q, rfl, rfl, rfl, hq⟩ := exists_of_blocksAt_eq hproper hbs
      have hroles : ∀ r, (d.ofRole r).map Block.unplaced = writtenAs r before := by
        intro r
        rw [Descriptor.ofRole_ofBlocks hd, map_unplaced_filter_blocksAt]
      obtain ⟨hunique, htaken⟩ := Descriptor.taken_of_add hadd
      obtain ⟨hkind, hlocation⟩ := Descriptor.eq_of_add_eq_error hadd
      refine ⟨before, w, after, e, rfl, ?_, hunique, ?_, rfl, hkind, e.code_eq, ?_⟩
      · intro r hr
        rw [← hroles, List.length_map]
        exact d.length_ofRole hr
      · show writtenAs (w.blockAt q).role before ≠ []
        rw [← hroles]
        exact fun h => htaken (List.map_eq_nil_iff.mp h)
      · rw [hlocation]
        exact w.extent_blockAt (by rw [hq, Nat.zero_add])

/-- A template behind a comment that holds a tag. -/
def commentedTemplate : Written :=
  ⟨[.comment " <script> ", .text "\n"], "Template", [⟨"lang", some "a>b"⟩], "é</p>"⟩

theorem parse_fileText_commentedTemplate :
    (∃ d, Descriptor.parse (fileText [⟨[], "i18n", [⟨"global", none⟩], "<i>"⟩, commentedTemplate]
        [.text " ", .comment "-"]) = .ok d ∧
      d.template.toList.map Block.placed = [(commentedTemplate.block, ⟨41, 62, 68⟩)]) ∧
    ∃ e, Descriptor.parse (fileText [commentedTemplate, commentedTemplate] []) = .error e ∧
      e.code = "DUPLICATE_TEMPLATE" ∧ e.location.extent = ⟨74, 95, 101⟩ := by
  constructor
  · obtain ⟨d, hd, hroles⟩ := (@parse_fileText
      [⟨[], "i18n", [⟨"global", none⟩], "<i>"⟩, commentedTemplate] (by decide +kernel)
      [.text " ", .comment "-"] (by decide +kernel)).1 (by intro r; cases r <;> decide +kernel)
    exact ⟨d, hd, (hroles .template).trans (by decide +kernel)⟩
  · obtain ⟨before, w, after, e, hws, -, -, htaken, hparse, hkind, hcode, hextent⟩ :=
      (@parse_fileText [commentedTemplate, commentedTemplate] (by decide +kernel) []
        (by decide +kernel)).2 ⟨.template, rfl, by decide +kernel⟩
    -- the first template is no second one
    rcases before with _ | ⟨v, _ | ⟨u, before⟩⟩
    · exact absurd rfl htaken
    · simp only [List.cons_append, List.nil_append, List.cons.injEq] at hws
      obtain ⟨rfl, rfl, rfl⟩ := hws
      have hrole : commentedTemplate.block.role = .template := by decide +kernel
      have hplace : commentedTemplate.extentBehind ([commentedTemplate].flatMap Written.text) =
          ⟨74, 95, 101⟩ := by
        decide +kernel
      have htemplate : e.kind = .template := Unique.role_inj.mp (hkind.trans hrole)
      rw [htemplate] at hcode
      exact ⟨e, hparse, hcode, hextent.trans hplace⟩
    · simp at hws

end VueSetup.Sfc
