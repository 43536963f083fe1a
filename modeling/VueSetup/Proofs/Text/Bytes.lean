import VueSetup.Proofs.Text.Boundary

/-!
# VueSetup.Proofs.Text.Bytes

A text from byte to byte. Its bytes, each taken for a character, are a text of their own
(`byteChars`), and a scan of that text is a scan of the bytes.

A class of characters that does not tell those outside of ASCII apart (`Asciiwise`) takes all bytes
of a character or none. So a cut by such a class falls at the same place in the text and in its
bytes (`takeWhile_byteChars`, `dropWhile_byteChars`), and never inside of a character.
-/

namespace VueSetup.Text

/-! ### Bytes as characters

A byte is taken for the character of the same number, so that scans of characters can be run on the
bytes as they are. -/

/-- The bytes of a text, each taken for a character. -/
def byteChars (cs : List Char) : List Char :=
  (bytes cs).map fun b => Char.ofNat b.toNat

@[simp] theorem byteChars_nil : byteChars [] = [] := rfl

/-- The bytes of a text come text by text. -/
theorem byteChars_append (as bs : List Char) : byteChars (as ++ bs) =
    byteChars as ++ byteChars bs := by
  rw [byteChars, bytes_append, List.map_append, byteChars, byteChars]

/-- The bytes of the first character come first. -/
theorem byteChars_cons (c : Char) (cs : List Char) :
    byteChars (c :: cs) = byteChars [c] ++ byteChars cs :=
  byteChars_append [c] cs

/-- The bytes of one character. -/
theorem bytes_singleton (c : Char) : bytes [c] = String.utf8EncodeChar c := by
  simp [bytes]

/-- A character of ASCII is its own byte. -/
theorem byteChars_of_lt {c : Char} (h : c.toNat < 128) : byteChars [c] = [c] := by
  have hval : c.val.toNat ≤ 127 := Nat.le_of_lt_succ h
  have hbyte : (UInt8.ofNat c.val.toNat).toNat = c.toNat := by
    rw [UInt8.toNat_ofNat']
    exact Nat.mod_eq_of_lt (Nat.lt_of_lt_of_le h (by decide))
  rw [byteChars, bytes_singleton, String.utf8EncodeChar, if_pos hval, List.map_singleton, hbyte,
    Char.ofNat_toNat]

/-- The bytes of any other character are not of ASCII. -/
theorem le_of_mem_bytes {c : Char} (hc : 128 ≤ c.toNat) {b : UInt8} (hb : b ∈ bytes [c]) :
    128 ≤ b.toNat := by
  have hval : ¬ c.val.toNat ≤ 127 := Nat.not_le.mpr hc
  rw [bytes_singleton, String.utf8EncodeChar, if_neg hval] at hb
  split at hb
  · simp only [List.mem_cons, List.not_mem_nil, or_false] at hb
    rcases hb with rfl | rfl <;> rw [UInt8.toNat_ofNat'] <;> omega
  · split at hb
    · simp only [List.mem_cons, List.not_mem_nil, or_false] at hb
      rcases hb with rfl | rfl | rfl <;> rw [UInt8.toNat_ofNat'] <;> omega
    · simp only [List.mem_cons, List.not_mem_nil, or_false] at hb
      rcases hb with rfl | rfl | rfl | rfl <;> rw [UInt8.toNat_ofNat'] <;> omega

/-- Taken for a character, such a byte is not of ASCII either. -/
theorem le_of_mem_byteChars {c d : Char} (hc : 128 ≤ c.toNat) (hd : d ∈ byteChars [c]) :
    128 ≤ d.toNat := by
  obtain ⟨b, hb, rfl⟩ := List.mem_map.mp hd
  have hsmall : b.toNat < 256 := b.toNat_lt
  have hvalid : b.toNat.isValidChar := .inl (by omega)
  rw [Char.ofNat, dif_pos hvalid]
  exact le_of_mem_bytes hc hb

/-- No character is without a byte. -/
theorem length_le_byteChars (cs : List Char) : cs.length ≤ (byteChars cs).length := by
  rw [byteChars, List.length_map, length_bytes]
  induction cs with
  | nil => exact Nat.le_refl _
  | cons c cs ih =>
    have hpos := c.utf8Size_pos
    rw [List.length_cons, byteSize_cons]
    omega

/-- A character has a first byte. -/
theorem exists_byteChars_singleton (c : Char) : ∃ d ds, byteChars [c] = d :: ds := by
  refine List.exists_cons_of_ne_nil fun hnil => ?_
  have hlength := length_le_byteChars [c]
  rw [hnil] at hlength
  cases hlength

/-! ### Classes of characters

All classes that the blocks of a file are scanned by are of this kind: they name characters of ASCII
and take all others, or none of them. -/

/-- The class does not tell the characters outside of ASCII apart. -/
def Asciiwise (p : Char → Bool) : Prop :=
  ∀ c d : Char, 128 ≤ c.toNat → 128 ≤ d.toNat → p c = p d

namespace Asciiwise

variable {p q : Char → Bool}

/-- A single character of ASCII. -/
theorem beq {a : Char} (ha : a.toNat < 128) : Asciiwise (· == a) := by
  have hne : ∀ c : Char, 128 ≤ c.toNat → (c == a) = false := by
    intro c hc
    rw [beq_eq_false_iff_ne]
    rintro rfl
    omega
  exact fun c d hc hd => (hne c hc).trans (hne d hd).symm

/-- What the class does not take. -/
theorem not (hp : Asciiwise p) : Asciiwise (fun c => !p c) :=
  fun c d hc hd => congrArg Bool.not (hp c d hc hd)

/-- Two classes together. -/
theorem or (hp : Asciiwise p) (hq : Asciiwise q) : Asciiwise (fun c => p c || q c) :=
  fun c d hc hd => congr (congrArg Bool.or (hp c d hc hd)) (hq c d hc hd)

/-- What both classes take. -/
theorem and (hp : Asciiwise p) (hq : Asciiwise q) : Asciiwise (fun c => p c && q c) :=
  fun c d hc hd => congr (congrArg Bool.and (hp c d hc hd)) (hq c d hc hd)

/-- All but one character of ASCII. -/
theorem bne {a : Char} (ha : a.toNat < 128) : Asciiwise (· != a) :=
  (beq ha).not

/-- The bytes of a character are in the class just as the character is. -/
theorem eq_of_mem_byteChars (hp : Asciiwise p) {c d : Char} (hd : d ∈ byteChars [c]) : p d =
    p c := by
  by_cases hc : c.toNat < 128
  · rw [byteChars_of_lt hc, List.mem_singleton] at hd
    rw [hd]
  · exact hp d c (le_of_mem_byteChars (by omega) hd) (by omega)

end Asciiwise

/-- A class of characters takes from the bytes of a text what it takes from the text. -/
theorem takeWhile_byteChars {p : Char → Bool} (hp : Asciiwise p) (cs : List Char) :
    (byteChars cs).takeWhile p = byteChars (cs.takeWhile p) := by
  induction cs with
  | nil => rfl
  | cons c cs ih =>
    rw [byteChars_cons]
    by_cases hc : p c = true
    · have hall : ∀ d ∈ byteChars [c], p d = true := fun d hd =>
        (hp.eq_of_mem_byteChars hd).trans hc
      rw [List.takeWhile_append_of_pos hall, List.takeWhile_cons_of_pos hc,
        byteChars_cons c (cs.takeWhile p), ih]
    · obtain ⟨d, ds, hbytes⟩ := exists_byteChars_singleton c
      have hd : p d = p c := hp.eq_of_mem_byteChars (by rw [hbytes]; exact List.mem_cons_self)
      rw [List.takeWhile_cons_of_neg hc, hbytes, List.cons_append,
        List.takeWhile_cons_of_neg (by rwa [hd])]
      rfl

/-- What is left is the bytes of what is left. -/
theorem dropWhile_byteChars {p : Char → Bool} (hp : Asciiwise p) (cs : List Char) :
    (byteChars cs).dropWhile p = byteChars (cs.dropWhile p) := by
  have hsplit : byteChars (cs.takeWhile p) ++ (byteChars cs).dropWhile p =
      byteChars (cs.takeWhile p) ++ byteChars (cs.dropWhile p) := by
    rw [← takeWhile_byteChars hp, List.takeWhile_append_dropWhile, takeWhile_byteChars hp,
      ← byteChars_append, List.takeWhile_append_dropWhile]
  exact List.append_cancel_left hsplit

/-- A text starts with a character of ASCII exactly if its bytes do. -/
theorem exists_byteChars_cons (c : Char) (cs : List Char) :
    ∃ d ds, byteChars (c :: cs) = d :: ds ∧ (c.toNat < 128 → d = c ∧ ds = byteChars cs) ∧
      ∀ p, Asciiwise p → p d = p c := by
  obtain ⟨d, ds, hbytes⟩ := exists_byteChars_singleton c
  refine ⟨d, ds ++ byteChars cs, by rw [byteChars_cons, hbytes, List.cons_append], fun hc => ?_,
    fun p hp => hp.eq_of_mem_byteChars (by rw [hbytes]; exact List.mem_cons_self)⟩
  rw [byteChars_of_lt hc] at hbytes
  obtain ⟨rfl, rfl⟩ := List.cons.inj hbytes
  exact ⟨rfl, rfl⟩

end VueSetup.Text
