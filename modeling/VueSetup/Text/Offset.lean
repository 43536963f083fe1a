/-!
# VueSetup.Text.Offset

Positions in a text are **byte offsets of its UTF-8 encoding**. Texts are cut on the level of
their characters, so that a cut either falls between two characters or does not exist:
`dropBytes?` and `takeBytes?` answer `none` for an offset inside a character or past the end.
-/

namespace VueSetup.Text

/-! ### Size -/

/-- The number of bytes that the UTF-8 encoding of the characters takes. -/
def byteSize : List Char → Nat
  | [] => 0
  | c :: cs => c.utf8Size + byteSize cs

@[simp] theorem byteSize_nil : byteSize [] = 0 := rfl

@[simp] theorem byteSize_cons (c : Char) (cs : List Char) :
    byteSize (c :: cs) = c.utf8Size + byteSize cs := rfl

@[simp] theorem byteSize_append (as bs : List Char) :
    byteSize (as ++ bs) = byteSize as + byteSize bs := by
  induction as with
  | nil => simp
  | cons a as ih => simp [ih, Nat.add_assoc]

/-! ### Cuts -/

/-- The characters behind the first `n` bytes; `none` when no character starts at `n`. -/
def dropBytes? : Nat → List Char → Option (List Char)
  | 0, cs => some cs
  | _ + 1, [] => none
  | n + 1, c :: cs => if c.utf8Size ≤ n + 1 then dropBytes? (n + 1 - c.utf8Size) cs else none

/-- The characters of the first `n` bytes; `none` when no character ends at `n`. -/
def takeBytes? : Nat → List Char → Option (List Char)
  | 0, _ => some []
  | _ + 1, [] => none
  | n + 1, c :: cs =>
    if c.utf8Size ≤ n + 1 then (takeBytes? (n + 1 - c.utf8Size) cs).map (c :: ·) else none

@[simp] theorem dropBytes?_zero (cs : List Char) : dropBytes? 0 cs = some cs := by
  cases cs <;> rfl

@[simp] theorem takeBytes?_zero (cs : List Char) : takeBytes? 0 cs = some [] := by
  cases cs <;> rfl

/-- A character is dropped together with all of its bytes. -/
theorem dropBytes?_cons (n : Nat) (c : Char) (cs : List Char) :
    dropBytes? (c.utf8Size + n) (c :: cs) = dropBytes? n cs := by
  have hc : 0 < c.utf8Size := c.utf8Size_pos
  obtain ⟨k, hk⟩ : ∃ k, c.utf8Size + n = k + 1 := ⟨c.utf8Size + n - 1, by omega⟩
  rw [hk, dropBytes?, if_pos (by omega)]
  congr 1
  omega

/-- A character is taken together with all of its bytes. -/
theorem takeBytes?_cons (n : Nat) (c : Char) (cs : List Char) :
    takeBytes? (c.utf8Size + n) (c :: cs) = (takeBytes? n cs).map (c :: ·) := by
  have hc : 0 < c.utf8Size := c.utf8Size_pos
  obtain ⟨k, hk⟩ : ∃ k, c.utf8Size + n = k + 1 := ⟨c.utf8Size + n - 1, by omega⟩
  rw [hk, takeBytes?, if_pos (by omega)]
  congr 2
  omega

/-- Dropping what stands in front leaves what stands behind. -/
theorem dropBytes?_append (as bs : List Char) : dropBytes? (byteSize as) (as ++ bs) = some bs := by
  induction as with
  | nil => simp
  | cons a as ih => rw [byteSize_cons, List.cons_append, dropBytes?_cons, ih]

/-- Taking as many bytes as the front part has gives the front part. -/
theorem takeBytes?_append (as bs : List Char) : takeBytes? (byteSize as) (as ++ bs) = some as := by
  induction as with
  | nil => simp
  | cons a as ih => rw [byteSize_cons, List.cons_append, takeBytes?_cons, ih]; rfl

/-- The characters from byte `start` up to byte `stop`; `none` when the offsets are out of order,
past the end or inside a character. -/
def slice? (cs : List Char) (start stop : Nat) : Option (List Char) :=
  if start ≤ stop then (dropBytes? start cs).bind (takeBytes? (stop - start)) else none

/-- A slice is the middle part of a text split in three. -/
theorem slice?_append (as bs cs : List Char) :
    slice? (as ++ bs ++ cs) (byteSize as) (byteSize as + byteSize bs) = some bs := by
  rw [slice?, if_pos (by omega), List.append_assoc, dropBytes?_append, Option.bind_some,
    Nat.add_sub_cancel_left, takeBytes?_append]

/-- The part of a text from byte `start` on, or nothing where no character starts there. -/
def suffixFrom (cs : List Char) (start : Nat) : List Char :=
  (dropBytes? start cs).getD []

/-- The part of a text that a pair of offsets bounds, or nothing where they bound none. -/
def between (cs : List Char) (start stop : Nat) : List Char :=
  (slice? cs start stop).getD []

end VueSetup.Text
