import VueSetup.Text.Offset

/-!
# VueSetup.Proofs.Text.Boundary

Where a text can be cut. An offset is a **boundary** when the text splits there in two parts of
whole characters; a cut succeeds exactly between two boundaries, and cuts out what stands between
them.

One section goes down to bytes: the encoding of a text is the concatenation of the encodings of its
characters, and a cut of the text is a cut of its bytes. The last one counts line feeds.
-/

namespace VueSetup.Text

/-! ### ASCII

The offsets of scans are counted by characters where those are ASCII. -/

/-- The characters of ASCII take one byte. -/
theorem utf8Size_of_toNat_lt {c : Char} (h : c.toNat < 128) : c.utf8Size = 1 := by
  have hval : c.val ≤ 127 := by
    rw [UInt32.le_iff_toNat_le]
    exact Nat.le_of_lt_succ h
  simp [Char.utf8Size, hval]

/-- So do the characters before one of ASCII. -/
theorem utf8Size_of_le {c d : Char} (h : c ≤ d) (hd : d.toNat < 128) : c.utf8Size = 1 :=
  utf8Size_of_toNat_lt (Nat.lt_of_le_of_lt h hd)

/-- A text of characters of one byte each takes as many bytes as it has characters. -/
theorem byteSize_eq_length {cs : List Char} (h : ∀ c ∈ cs, c.utf8Size = 1) :
    byteSize cs = cs.length := by
  induction cs with
  | nil => rfl
  | cons c cs ih =>
    rw [byteSize_cons, List.length_cons, h c (by simp), ih fun d hd => h d (by simp [hd])]
    omega

/-! ### Boundaries

A boundary is a way to split the text in two, and the split is what the proofs use. Two splits at
one offset are the same. -/

/-- A character starts or ends at the offset, or the text does. -/
def IsBoundary (cs : List Char) (n : Nat) : Prop :=
  ∃ before behind, cs = before ++ behind ∧ byteSize before = n

/-- The text starts at a boundary. -/
theorem isBoundary_zero (cs : List Char) : IsBoundary cs 0 :=
  ⟨[], cs, rfl, rfl⟩

/-- It ends at one. -/
theorem isBoundary_byteSize (cs : List Char) : IsBoundary cs (byteSize cs) :=
  ⟨cs, [], by simp, rfl⟩

/-- No boundary lies behind the end. -/
theorem IsBoundary.le_byteSize {cs : List Char} {n : Nat} (h : IsBoundary cs n) :
    n ≤ byteSize cs := by
  obtain ⟨before, behind, rfl, rfl⟩ := h
  rw [byteSize_append]
  omega

/-- A boundary of what stands behind some text is one of the whole. -/
theorem IsBoundary.append_left {cs : List Char} {n : Nat} (h : IsBoundary cs n) (as : List Char) :
    IsBoundary (as ++ cs) (byteSize as + n) := by
  obtain ⟨before, behind, rfl, rfl⟩ := h
  exact ⟨as ++ before, behind, by simp, byteSize_append as before⟩

/-- A boundary of what stands before some text is one of the whole. -/
theorem IsBoundary.append_right {as : List Char} {n : Nat} (h : IsBoundary as n) (cs : List Char) :
    IsBoundary (as ++ cs) n := by
  obtain ⟨before, behind, rfl, rfl⟩ := h
  exact ⟨before, behind ++ cs, by simp, rfl⟩

/-- What is left over at the end of a text starts at a boundary. -/
theorem isBoundary_of_suffix {as cs : List Char} (h : as <:+ cs) :
    IsBoundary cs (byteSize cs - byteSize as) := by
  obtain ⟨before, rfl⟩ := h
  exact ⟨before, as, rfl, by rw [byteSize_append, Nat.add_sub_cancel]⟩

/-- What is taken off the front of a text ends at a boundary. -/
theorem isBoundary_of_isPrefix {as cs : List Char} (h : as <+: cs) :
    IsBoundary cs (byteSize as) := by
  obtain ⟨behind, rfl⟩ := h
  exact ⟨as, behind, rfl, rfl⟩

/-- Only the empty text takes no byte. -/
theorem eq_nil_of_byteSize_eq_zero {cs : List Char} (h : byteSize cs = 0) : cs = [] := by
  cases cs with
  | nil => rfl
  | cons c cs =>
    have hc : 0 < c.utf8Size := c.utf8Size_pos
    rw [byteSize_cons] at h
    omega

/-- Leaving characters out takes fewer bytes. -/
theorem byteSize_le_of_sublist {as bs : List Char} (h : as.Sublist bs) :
    byteSize as ≤ byteSize bs := by
  induction h with
  | slnil => exact Nat.le_refl _
  | cons c _ ih => rw [byteSize_cons]; omega
  | cons_cons c _ ih => rw [byteSize_cons, byteSize_cons]; omega

/-- Two ways to split a text: the one that splits later splits what the other leaves. -/
theorem append_eq_append_of_byteSize_le {as bs cs ds : List Char} (h : as ++ bs = cs ++ ds)
    (hle : byteSize as ≤ byteSize cs) : ∃ ms, cs = as ++ ms ∧ bs = ms ++ ds := by
  rcases List.append_eq_append_iff.mp h with ⟨ms, rfl, rfl⟩ | ⟨ms, rfl, rfl⟩
  · exact ⟨ms, rfl, rfl⟩
  · rw [byteSize_append] at hle
    have hms : ms = [] := eq_nil_of_byteSize_eq_zero (by omega)
    subst hms
    exact ⟨[], by simp, by simp⟩

/-- A text is split at an offset in one way only. -/
theorem append_inj_of_byteSize_eq {as bs cs ds : List Char} (h : as ++ bs = cs ++ ds)
    (hsize : byteSize as = byteSize cs) : as = cs ∧ bs = ds := by
  obtain ⟨ms, rfl, rfl⟩ := append_eq_append_of_byteSize_le h (Nat.le_of_eq hsize)
  rw [byteSize_append] at hsize
  have hms : ms = [] := eq_nil_of_byteSize_eq_zero (by omega)
  simp [hms]

/-! ### Cuts

A cut looks for the two offsets from the front of the text. It fails if it comes by an offset that
lies inside of a character, or behind the end. -/

/-- What is left behind an offset. -/
theorem dropBytes?_eq_some_iff {n : Nat} {cs rest : List Char} :
    dropBytes? n cs = some rest ↔ ∃ before, cs = before ++ rest ∧ byteSize before = n := by
  constructor
  · intro h
    fun_induction dropBytes? n cs with
    | case1 cs => exact ⟨[], by simpa using h, rfl⟩
    | case2 => simp at h
    | case3 n c cs hc ih =>
      obtain ⟨before, rfl, hsize⟩ := ih h
      exact ⟨c :: before, rfl, by rw [byteSize_cons]; omega⟩
    | case4 => simp at h
  · rintro ⟨before, rfl, rfl⟩
    exact dropBytes?_append before rest

/-- What is taken up to an offset. -/
theorem takeBytes?_eq_some_iff {n : Nat} {cs front : List Char} :
    takeBytes? n cs = some front ↔ ∃ behind, cs = front ++ behind ∧ byteSize front = n := by
  constructor
  · intro h
    fun_induction takeBytes? n cs generalizing front with
    | case1 cs =>
      obtain rfl : [] = front := by simpa using h
      exact ⟨cs, rfl, rfl⟩
    | case2 => simp at h
    | case3 n c cs hc ih =>
      obtain ⟨tail, htail, rfl⟩ := Option.map_eq_some_iff.mp h
      obtain ⟨behind, rfl, hsize⟩ := ih htail
      exact ⟨behind, rfl, by rw [byteSize_cons]; omega⟩
    | case4 => simp at h
  · rintro ⟨behind, rfl, rfl⟩
    exact takeBytes?_append front behind

/-- A text can be dropped from its start up to a boundary, and up to nothing else. -/
theorem exists_dropBytes?_iff {n : Nat} {cs : List Char} :
    (∃ rest, dropBytes? n cs = some rest) ↔ IsBoundary cs n := by
  simp only [dropBytes?_eq_some_iff, IsBoundary]
  exact exists_comm

instance (cs : List Char) (n : Nat) : Decidable (IsBoundary cs n) :=
  decidable_of_iff ((dropBytes? n cs).isSome = true) (by
    rw [Option.isSome_iff_exists, exists_dropBytes?_iff])

/-- A slice is the middle of a text split in three, and nothing else is. -/
theorem slice?_eq_some_iff {cs mid : List Char} {a b : Nat} :
    slice? cs a b = some mid ↔
      ∃ before behind, cs = before ++ mid ++ behind ∧ byteSize before = a ∧
        a + byteSize mid = b := by
  constructor
  · intro h
    rw [slice?] at h
    split at h
    · next hle =>
      obtain ⟨rest, hrest, hmid⟩ := Option.bind_eq_some_iff.mp h
      obtain ⟨before, rfl, hbefore⟩ := dropBytes?_eq_some_iff.mp hrest
      obtain ⟨behind, rfl, hsize⟩ := takeBytes?_eq_some_iff.mp hmid
      exact ⟨before, behind, by simp, hbefore, by omega⟩
    · simp at h
  · rintro ⟨before, behind, rfl, rfl, rfl⟩
    exact slice?_append before mid behind

/-- A slice is as long as the offsets say. -/
theorem byteSize_slice? {cs mid : List Char} {a b : Nat} (h : slice? cs a b = some mid) :
    a + byteSize mid = b := by
  obtain ⟨_, _, _, _, hsize⟩ := slice?_eq_some_iff.mp h
  exact hsize

/-- What is cut out of a part of a text does not depend on what stands around the part. -/
theorem slice?_middle {as bs cs : List Char} {a b : Nat} (hb : b ≤ byteSize bs) :
    slice? (as ++ bs ++ cs) (byteSize as + a) (byteSize as + b) = slice? bs a b := by
  ext1 mid
  rw [slice?_eq_some_iff, slice?_eq_some_iff]
  constructor
  · rintro ⟨before, behind, heq, hbefore, hsize⟩
    rw [List.append_assoc, List.append_assoc] at heq
    obtain ⟨front, rfl, hrest⟩ := append_eq_append_of_byteSize_le heq (by omega)
    rw [byteSize_append] at hbefore
    rw [← List.append_assoc] at hrest
    obtain ⟨back, hback, -⟩ := append_eq_append_of_byteSize_le hrest.symm (by
      rw [byteSize_append]
      omega)
    exact ⟨front, back, hback, by omega, by omega⟩
  · rintro ⟨front, back, rfl, rfl, rfl⟩
    exact ⟨as ++ front, back ++ cs, by simp, byteSize_append as front, by omega⟩

/-- There is a slice between any two boundaries in order. -/
theorem exists_slice? {cs : List Char} {a b : Nat} (ha : IsBoundary cs a) (hb : IsBoundary cs b)
    (hab : a ≤ b) : ∃ mid, slice? cs a b = some mid := by
  obtain ⟨as, as', rfl, rfl⟩ := ha
  obtain ⟨bs, bs', heq, rfl⟩ := hb
  obtain ⟨mid, rfl, rfl⟩ := append_eq_append_of_byteSize_le heq hab
  refine ⟨mid, slice?_eq_some_iff.mpr ⟨as, bs', by simp, rfl, by rw [byteSize_append]⟩⟩

/-- The text from an offset on is what stands behind the text before it. -/
theorem suffixFrom_append (as bs : List Char) : suffixFrom (as ++ bs) (byteSize as) = bs := by
  rw [suffixFrom, dropBytes?_append, Option.getD_some]

/-- Between two boundaries the slice exists, and it is the stretch that `between` gives. -/
theorem slice?_eq_between {cs : List Char} {a b : Nat} (ha : IsBoundary cs a) (hb : IsBoundary cs b)
    (hab : a ≤ b) : slice? cs a b = some (between cs a b) := by
  obtain ⟨mid, hmid⟩ := exists_slice? ha hb hab
  rw [between, hmid, Option.getD_some]

/-- Between an offset and itself there is nothing. -/
@[simp] theorem between_self (cs : List Char) (a : Nat) : between cs a a = [] := by
  rw [between]
  cases h : slice? cs a a with
  | none => rfl
  | some mid =>
    obtain ⟨before, behind, -, -, hsize⟩ := slice?_eq_some_iff.mp h
    rw [Option.getD_some]
    exact eq_nil_of_byteSize_eq_zero (by omega)

/-- The stretch in the middle of a text split in three. -/
theorem between_middle (as bs cs : List Char) :
    between (as ++ bs ++ cs) (byteSize as) (byteSize as + byteSize bs) = bs := by
  rw [between, slice?_append, Option.getD_some]

/-- A stretch can be cut in two at a boundary. -/
theorem between_append {cs : List Char} {a b c : Nat} (ha : IsBoundary cs a) (hb : IsBoundary cs b)
    (hc : IsBoundary cs c) (hab : a ≤ b) (hbc : b ≤ c) :
    between cs a c = between cs a b ++ between cs b c := by
  obtain ⟨as, as', rfl, rfl⟩ := ha
  obtain ⟨bs, bs', heq, rfl⟩ := hb
  obtain ⟨mid, rfl, rfl⟩ := append_eq_append_of_byteSize_le heq hab
  obtain ⟨ds, ds', heq, rfl⟩ := hc
  rw [← List.append_assoc] at heq
  obtain ⟨mid', rfl, rfl⟩ := append_eq_append_of_byteSize_le heq hbc
  have hac := between_middle as (mid ++ mid') ds'
  have hab := between_middle as mid (mid' ++ ds')
  have hbc := between_middle (as ++ mid) mid' ds'
  simp only [List.append_assoc, byteSize_append, Nat.add_assoc] at hac hab hbc ⊢
  rw [hac, hab, hbc]

/-! ### Bytes

The encoding is that of the standard library, character by character. What is shown of slices is
carried over to bytes here, once, so that statements about files can be made in bytes. -/

/-- The bytes of the UTF-8 encoding. -/
def bytes (cs : List Char) : List UInt8 :=
  cs.flatMap String.utf8EncodeChar

@[simp] theorem bytes_nil : bytes [] = [] := rfl

/-- The encoding of a text goes character by character. -/
@[simp] theorem bytes_append (as bs : List Char) : bytes (as ++ bs) = bytes as ++ bytes bs :=
  List.flatMap_append

/-- The size of a text is the number of its bytes. -/
@[simp] theorem length_bytes (cs : List Char) : (bytes cs).length = byteSize cs := by
  induction cs with
  | nil => rfl
  | cons c cs ih =>
    rw [bytes, List.flatMap_cons, List.length_append, String.length_utf8EncodeChar, ← bytes, ih,
      byteSize_cons]

/-- The bytes of a string are those of its characters. -/
theorem toByteArray_eq (s : String) : s.toByteArray = (bytes s.toList).toByteArray := by
  rw [bytes, ← List.utf8Encode, String.utf8Encode_toList]

/-- A string is known by its bytes. -/
theorem eq_of_bytes {s t : String} (h : bytes s.toList = bytes t.toList) : s = t := by
  rw [← String.toByteArray_inj, toByteArray_eq, toByteArray_eq, h]

/-- The size of a string is the size of its characters. -/
theorem utf8ByteSize_eq (s : String) : s.utf8ByteSize = byteSize s.toList := by
  rw [← String.size_toByteArray, toByteArray_eq, List.size_toByteArray, length_bytes]

/-- The bytes of a slice are those between its ends. -/
theorem bytes_slice? {cs mid : List Char} {a b : Nat} (h : slice? cs a b = some mid) :
    bytes mid = ((bytes cs).drop a).take (b - a) := by
  obtain ⟨before, behind, rfl, rfl, rfl⟩ := slice?_eq_some_iff.mp h
  rw [List.append_assoc, bytes_append, bytes_append, ← length_bytes before, List.drop_left,
    Nat.add_sub_cancel_left, ← length_bytes mid, List.take_left]

/-! ### Line feeds

Counting the ends of lines is how a line is found by its number. -/

/-- How many lines end in a text. -/
def feeds (cs : List Char) : Nat :=
  cs.count '\n'

@[simp] theorem feeds_nil : feeds [] = 0 := rfl

@[simp] theorem feeds_append (as bs : List Char) : feeds (as ++ bs) = feeds as + feeds bs :=
  List.count_append

/-- A line feed ends one more line. -/
theorem feeds_cons_feed (cs : List Char) : feeds ('\n' :: cs) = feeds cs + 1 :=
  List.count_cons_self

/-- Any other character ends none. -/
theorem feeds_cons {c : Char} (h : c ≠ '\n') (cs : List Char) : feeds (c :: cs) = feeds cs :=
  List.count_cons_of_ne h

/-- A text with enough lines can be cut at the end of any of them. -/
theorem exists_of_lt_feeds {n : Nat} {cs : List Char} (h : n < feeds cs) :
    ∃ xs ys, cs = xs ++ '\n' :: ys ∧ feeds xs = n := by
  induction cs generalizing n with
  | nil => cases h
  | cons c cs ih =>
    by_cases hc : c = '\n'
    · subst hc
      rw [feeds_cons_feed] at h
      cases n with
      | zero => exact ⟨[], cs, rfl, rfl⟩
      | succ n =>
        obtain ⟨xs, ys, rfl, hxs⟩ := ih (Nat.lt_of_succ_lt_succ h)
        exact ⟨'\n' :: xs, ys, rfl, by rw [feeds_cons_feed, hxs]⟩
    · rw [feeds_cons hc] at h
      obtain ⟨xs, ys, rfl, hxs⟩ := ih h
      exact ⟨c :: xs, ys, rfl, by rw [feeds_cons hc, hxs]⟩

/-- A line feed of two texts one after the other is in the first one if enough lines end there. -/
theorem append_eq_of_lt_feeds {as bs xs ys : List Char} (h : as ++ bs = xs ++ '\n' :: ys)
    (hlt : feeds xs < feeds as) : ∃ zs, as = xs ++ '\n' :: zs := by
  rcases List.append_eq_append_iff.mp h with ⟨ms, rfl, -⟩ | ⟨ms, rfl, hms⟩
  · rw [feeds_append] at hlt
    omega
  · cases ms with
    | nil =>
      rw [List.append_nil] at hlt
      omega
    | cons m ms =>
      cases hms
      exact ⟨ms, rfl⟩

/-- Otherwise it is in the second one. -/
theorem append_eq_of_feeds_le {as bs xs ys : List Char} (h : as ++ bs = xs ++ '\n' :: ys)
    (hle : feeds as ≤ feeds xs) : ∃ zs, xs = as ++ zs ∧ bs = zs ++ '\n' :: ys := by
  rcases List.append_eq_append_iff.mp h with ⟨ms, rfl, rfl⟩ | ⟨ms, rfl, hms⟩
  · exact ⟨ms, rfl, rfl⟩
  · cases ms with
    | nil => exact ⟨[], by simp, hms.symm⟩
    | cons m ms =>
      cases hms
      rw [feeds_append, feeds_cons_feed] at hle
      omega

end VueSetup.Text
