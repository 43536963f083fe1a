import VueSetup.Proofs.Text.Boundary

/-!
# VueSetup.Proofs.Text.Tag

Texts without the tag that closes a script, and how they can be put together.

Two texts without the tag may hold it once they are joined, but only if the first one ends inside of
it (`EndsInTag`). A text that does neither is `Sealed`: whatever follows it, no tag comes about
where the two meet, and sealed texts in a row are sealed. The tag starts with a `<` and has no
other, so that a text without a `<` is sealed (`sealed_of_lt_notMem`), and a character that the tag
has no use for seals what stands before it (`TagFree.append_sealed`).
-/

namespace VueSetup.Text

/-- The tag that closes a script. -/
def closingTag : List Char :=
  ['<', '/', 's', 'c', 'r', 'i', 'p', 't', '>']

/-- The text does not hold the closing tag, in whichever case. -/
def TagFree (cs : List Char) : Prop :=
  ¬ closingTag <:+: cs.map Char.toLower

/-- The text ends with a first part of the closing tag, but not with all of it. -/
def EndsInTag (cs : List Char) : Prop :=
  ∃ n, n < closingTag.length ∧ 0 < n ∧ closingTag.take n <:+ cs.map Char.toLower

instance (cs : List Char) : Decidable (TagFree cs) :=
  inferInstanceAs (Decidable (¬ _))

instance (cs : List Char) : Decidable (EndsInTag cs) :=
  inferInstanceAs (Decidable (∃ n, n < _ ∧ _))

/-- The text neither holds the closing tag nor ends inside of it. -/
structure Sealed (cs : List Char) : Prop where
  free : TagFree cs
  ends : ¬ EndsInTag cs

instance (cs : List Char) : Decidable (Sealed cs) :=
  decidable_of_iff (TagFree cs ∧ ¬ EndsInTag cs) ⟨fun h => ⟨h.1, h.2⟩, fun h => ⟨h.free, h.ends⟩⟩

/-! ### Characters

The tag is looked for in lower case. Its first characters are `<` and `/`, which have no other case,
and so the `<` of a tag is one of the text. -/

/-- Only the character itself is one before the letters in lower case. -/
theorem eq_of_toLower_eq {c d : Char} (h : c.toLower = d) (hd : d.toNat < 'a'.toNat) : c = d := by
  unfold Char.toLower at h
  split at h
  · next hc =>
    have hval : c.val + ('a'.val - 'A'.val) = d.val := congrArg Char.val h
    have hlow : 'A'.val.toNat ≤ c.val.toNat := UInt32.le_iff_toNat_le.mp hc.1
    have hhigh : c.val.toNat ≤ 'Z'.val.toNat := UInt32.le_iff_toNat_le.mp hc.2
    have hsmall : d.val.toNat < 'a'.val.toNat := hd
    have hsum := congrArg UInt32.toNat hval
    simp at hsum hlow hhigh hsmall
    omega
  · exact h

/-- Only `<` is `<` in lower case. -/
theorem toLower_eq_lt {c : Char} (h : c.toLower = '<') : c = '<' :=
  eq_of_toLower_eq h (by decide)

/-- No `<` comes about by lower case. -/
theorem lt_notMem_map_toLower {cs : List Char} (h : '<' ∉ cs) : '<' ∉ cs.map Char.toLower := by
  intro hmem
  obtain ⟨c, hc, hlow⟩ := List.mem_map.mp hmem
  exact h (toLower_eq_lt hlow ▸ hc)

/-- The character stands in the closing tag, before its `>`. -/
def isTagPart (c : Char) : Bool :=
  closingTag.dropLast.contains c.toLower

/-- The tag is written in ASCII. -/
theorem toNat_lt_of_isTagPart {c : Char} (h : isTagPart c = true) : c.toNat < 128 := by
  by_cases hupper : c.isUpper = true
  · have hhigh : c.val.toNat ≤ 'Z'.val.toNat :=
      UInt32.le_iff_toNat_le.mp (of_decide_eq_true hupper).2
    exact Nat.lt_of_le_of_lt hhigh (by decide)
  · have hlower : c.toLower = c := by
      unfold Char.toLower
      exact dif_neg fun h => hupper (decide_eq_true h)
    have hall : closingTag.dropLast.all (·.toNat < 128) = true := by decide
    rw [isTagPart, hlower, List.contains_iff_mem] at h
    simpa using List.all_eq_true.mp hall c h

/-! ### Parts

Both conditions pass to parts of a text: that it has no tag to every part, and that it does not end
inside of one to its end. -/

/-- A part of a text without the tag does not have it. -/
theorem TagFree.of_infix {as cs : List Char} (h : TagFree cs) (has : as <:+: cs) : TagFree as :=
  fun htag => h (htag.trans (has.map Char.toLower))

/-- What the end of a text ends in the text ends in. -/
theorem EndsInTag.of_suffix {as cs : List Char} (h : EndsInTag as) (has : as <:+ cs) :
    EndsInTag cs := by
  obtain ⟨n, hn, hpos, hpart⟩ := h
  exact ⟨n, hn, hpos, hpart.trans (has.map Char.toLower)⟩

/-- The end of a sealed text is sealed. -/
theorem Sealed.of_suffix {as cs : List Char} (h : Sealed cs) (has : as <:+ cs) : Sealed as :=
  ⟨h.free.of_infix has.isInfix, fun hends => h.ends (hends.of_suffix has)⟩

/-- A first part of the tag, however short, starts with its `<`. -/
theorem lt_mem_take_closingTag {n : Nat} (h : 0 < n) : '<' ∈ closingTag.take n := by
  obtain ⟨m, rfl⟩ : ∃ m, n = m + 1 := ⟨n - 1, by omega⟩
  simp [closingTag]

/-- Without its `<` there is no tag, not even the start of one. -/
theorem sealed_of_lt_notMem {cs : List Char} (h : '<' ∉ cs) : Sealed cs := by
  have hlower := lt_notMem_map_toLower h
  constructor
  · intro htag
    exact hlower (htag.subset (by simp [closingTag]))
  · rintro ⟨n, -, hpos, hpart⟩
    exact hlower (hpart.subset (lt_mem_take_closingTag hpos))

/-- A text does not end inside of the tag with a character that the tag does not have. -/
theorem not_endsInTag_append_singleton (cs : List Char) {c : Char} (h : isTagPart c = false) :
    ¬ EndsInTag (cs ++ [c]) := by
  rintro ⟨n, hn, hpos, hpart⟩
  rw [List.map_append, List.map_singleton, List.suffix_concat_iff] at hpart
  rcases hpart with hnil | ⟨part, hpart, -⟩
  · simp [closingTag] at hnil
    omega
  · have hmem : c.toLower ∈ closingTag.take n := by simp [hpart]
    have hlast : c.toLower ∈ closingTag.dropLast := by
      rw [List.dropLast_eq_take]
      exact (List.take_subset_take_left _ (by omega)) hmem
    simp [isTagPart, hlast] at h

/-! ### Joins

A tag that comes about where two texts meet starts in the first one, which then ends inside of it.
So it is enough to ask this of the first text. -/

/-- A tag in a joined text is in one of the two parts, or starts in the one and ends in the
other. -/
theorem exists_split_of_infix_append {α : Type} {tag as bs : List α} (h : tag <:+: as ++ bs) :
    tag <:+: as ∨ tag <:+: bs ∨
      ∃ front back, tag = front ++ back ∧ front ≠ [] ∧ back ≠ [] ∧ front <:+ as ∧ back <+: bs := by
  obtain ⟨before, behind, heq⟩ := h
  rw [List.append_assoc] at heq
  rcases List.append_eq_append_iff.mp heq with ⟨middle, rfl, hrest⟩ | ⟨middle, -, rfl⟩
  · rcases List.append_eq_append_iff.mp hrest with ⟨rest, rfl, -⟩ | ⟨back, rfl, rfl⟩
    · exact .inl ⟨before, rest, by simp⟩
    by_cases hmiddle : middle = []
    · exact .inr (.inl ⟨[], behind, by simp [hmiddle]⟩)
    by_cases hback : back = []
    · exact .inl ⟨before, [], by simp [hback]⟩
    exact .inr (.inr ⟨middle, back, rfl, hmiddle, hback, List.suffix_append _ _,
      List.prefix_append _ _⟩)
  · exact .inr (.inl ⟨middle, behind, by simp⟩)

/-- A text that is sealed may be followed by any other without a tag. -/
theorem Sealed.append_tagFree {as bs : List Char} (has : Sealed as) (hbs : TagFree bs) :
    TagFree (as ++ bs) := by
  intro htag
  rw [List.map_append] at htag
  rcases exists_split_of_infix_append htag with
    htag | htag | ⟨front, back, heq, hfront, hback, hpart, -⟩
  · exact has.free htag
  · exact hbs htag
  · refine has.ends ⟨front.length, ?_, List.length_pos_iff.mpr hfront, ?_⟩
    · have := List.length_pos_iff.mpr hback
      rw [heq, List.length_append]
      omega
    · rwa [heq, List.take_left']
      rfl

/-- If the second text is too short for the start of the tag, the first one has to end with it. -/
theorem not_endsInTag_append {as bs : List Char} (has : ¬ EndsInTag as) (hbs : ¬ EndsInTag bs) :
    ¬ EndsInTag (as ++ bs) := by
  rintro ⟨n, hn, hpos, hpart⟩
  rw [List.map_append] at hpart
  rcases List.suffix_or_suffix_of_suffix hpart (List.suffix_append _ _) with hin | ⟨front, heq⟩
  · exact hbs ⟨n, hn, hpos, hin⟩
  by_cases hfront : front = []
  · rw [hfront, List.nil_append] at heq
    exact hbs ⟨n, hn, hpos, heq ▸ List.suffix_refl _⟩
  · refine has ⟨front.length, ?_, List.length_pos_iff.mpr hfront, ?_⟩
    · have hlength := congrArg List.length heq
      simp only [List.length_append, List.length_take] at hlength
      omega
    · have htake : closingTag.take front.length = front := by
        have hprefix : front <+: closingTag :=
          (heq ▸ List.prefix_append _ _ : front <+: closingTag.take n).trans (List.take_prefix _ _)
        exact (List.prefix_iff_eq_take.mp hprefix).symm
      rw [htake]
      rw [← heq] at hpart
      exact List.suffix_append_self_iff.mp hpart

/-- Sealed texts in a row are sealed. -/
theorem Sealed.append {as bs : List Char} (has : Sealed as) (hbs : Sealed bs) : Sealed (as ++ bs) :=
  ⟨has.append_tagFree hbs.free, not_endsInTag_append has.ends hbs.ends⟩

/-- A character that the tag has no use for seals what stands before it. -/
theorem TagFree.append_sealed {as bs : List Char} {c : Char} (has : TagFree as)
    (hc : c.toLower ∉ closingTag) (hbs : Sealed (c :: bs)) : Sealed (as ++ c :: bs) := by
  have hfree : TagFree (as ++ [c]) := by
    intro htag
    rw [List.map_append, List.map_singleton] at htag
    rcases exists_split_of_infix_append htag with
      htag | htag | ⟨front, back, heq, -, hback, -, hpart⟩
    · exact has htag
    · exact hbs.free (htag.trans ((List.prefix_append [c] bs).isInfix.map Char.toLower))
    · obtain ⟨d, rest, rfl⟩ := List.exists_cons_of_ne_nil hback
      have hd : d = c.toLower := (List.cons_prefix_cons.mp hpart).1
      exact hc (by simp [heq, hd])
  have hends : ¬ EndsInTag (as ++ [c]) := by
    refine not_endsInTag_append_singleton as ?_
    simpa [isTagPart] using fun h => hc (List.dropLast_subset _ h)
  have h := Sealed.append ⟨hfree, hends⟩ (hbs.of_suffix (List.suffix_cons c bs))
  simpa using h

/-- A text without a tag, with a sealed text before it and behind it a character that the tag has no
use for. -/
theorem Sealed.enclose {as ms bs : List Char} {c : Char} (has : Sealed as) (hms : TagFree ms)
    (hc : c.toLower ∉ closingTag) (hbs : Sealed (c :: bs)) : Sealed (as ++ ms ++ c :: bs) :=
  (has.append_tagFree hms).append_sealed hc hbs

/-! ### Offsets

Texts are cut out up to the end of a token or of a statement. What matters is whether a tag is open
there, which depends on everything before. -/

/-- The text up to the offset does not end inside of a closing tag. -/
def IsClear (cs : List Char) (n : Nat) : Prop :=
  ∃ before behind, cs = before ++ behind ∧ byteSize before = n ∧ ¬ EndsInTag before

/-- A text is split at an offset in one way only. -/
theorem IsClear.not_endsInTag {before behind : List Char}
    (h : IsClear (before ++ behind) (byteSize before)) : ¬ EndsInTag before := by
  obtain ⟨before', behind', heq, hsize, hends⟩ := h
  rwa [(append_inj_of_byteSize_eq heq hsize.symm).1]

/-- No tag comes about by a cut. -/
theorem TagFree.slice? {cs mid : List Char} {a b : Nat} (h : TagFree cs)
    (hmid : slice? cs a b = some mid) : TagFree mid := by
  obtain ⟨before, behind, rfl, -, -⟩ := slice?_eq_some_iff.mp hmid
  exact h.of_infix ⟨before, behind, rfl⟩

/-- The same of a stretch. -/
theorem TagFree.between {cs : List Char} (h : TagFree cs) (a b : Nat) :
    TagFree (between cs a b) := by
  unfold Text.between
  cases hmid : Text.slice? cs a b with
  | none => exact (sealed_of_lt_notMem List.not_mem_nil).free
  | some mid => exact h.slice? hmid

/-- What is cut out of a text up to a clear offset is sealed. -/
theorem IsClear.sealed_slice? {cs mid : List Char} {a n : Nat} (h : IsClear cs n)
    (hfree : TagFree cs)
    (hmid : slice? cs a n = some mid) : Sealed mid := by
  refine ⟨hfree.slice? hmid, fun hends => ?_⟩
  obtain ⟨before, behind, rfl, rfl, rfl⟩ := slice?_eq_some_iff.mp hmid
  rw [← byteSize_append] at h
  exact h.not_endsInTag (hends.of_suffix (List.suffix_append _ _))

/-- The same of a stretch up to there. -/
theorem IsClear.sealed_between {cs : List Char} {n : Nat} (h : IsClear cs n) (hfree : TagFree cs)
    (a : Nat) : Sealed (between cs a n) := by
  unfold Text.between
  cases hmid : slice? cs a n with
  | none => exact sealed_of_lt_notMem List.not_mem_nil
  | some mid => exact h.sealed_slice? hfree hmid

end VueSetup.Text
