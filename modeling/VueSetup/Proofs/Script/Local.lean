import VueSetup.Proofs.Script.Run
import VueSetup.Proofs.Script.Values

/-!
# VueSetup.Proofs.Script.Local

What a scan depends on.

The number that bounds a scan does not matter, as long as it is above the length of the text
(`skipBlanks_congr`, `scanKind_congr`). A scan depends on what it takes and on the next one or two
characters only: behind another text the same token is found, if a name does not go on there
(`scanKind_local`), and the same fillers stand before a token (`Fills.replace`).
-/

namespace VueSetup.Script

open Text

/-! ### Bounds

The bounds only end the recursion. Every round takes a character, so with a bound above the length
the scan ends by itself, and two such bounds give the same. -/

/-- Blanks and comments, by induction on the one bound. -/
theorem skipBlanks_congr {n m : Nat} {cs : List Char} (hn : cs.length < n) (hm : cs.length < m)
    (size : Nat) (line : Bool) : skipBlanks n size line cs = skipBlanks m size line cs := by
  obtain ⟨m, rfl⟩ := Nat.exists_eq_add_one_of_ne_zero (Nat.ne_zero_of_lt hm)
  fun_induction skipBlanks n size line cs generalizing m with
  | case1 => cases hn
  | case2 => simp [skipBlanks]
  | case3 n size line rest body ih =>
    have hlength := (List.dropWhile_suffix (l := rest) fun c => !isLineEnd c).length_le
    simp only [List.length_cons] at hn hm
    obtain ⟨m, rfl⟩ := Nat.exists_eq_add_one_of_ne_zero (show m ≠ 0 by omega)
    rw [skipBlanks, ih (by omega) m (by omega)]
  | case4 n size line rest body behind hsplit ih =>
    have hlength := congrArg List.length (splitComment?_eq_some hsplit)
    simp only [List.length_cons, List.length_append] at hn hm hlength
    obtain ⟨m, rfl⟩ := Nat.exists_eq_add_one_of_ne_zero (show m ≠ 0 by omega)
    rw [ih (by omega) m (by omega)]
    simp [skipBlanks, hsplit]
  | case5 n size line rest hsplit => simp [skipBlanks, hsplit]
  | case6 n size line c rest hline hblock hc ih =>
    simp only [List.length_cons] at hn hm
    obtain ⟨m, rfl⟩ := Nat.exists_eq_add_one_of_ne_zero (show m ≠ 0 by omega)
    rw [ih (by omega) m (by omega), skipBlanks.eq_5 _ _ _ _ _ hline hblock, if_pos hc]
  | case7 n size line c rest hline hblock hc hspace ih =>
    simp only [List.length_cons] at hn hm
    obtain ⟨m, rfl⟩ := Nat.exists_eq_add_one_of_ne_zero (show m ≠ 0 by omega)
    rw [ih (by omega) m (by omega), skipBlanks.eq_5 _ _ _ _ _ hline hblock, if_neg hc,
      if_pos hspace]
  | case8 n size line c rest hline hblock hc hspace =>
    rw [skipBlanks.eq_5 _ _ _ _ _ hline hblock, if_neg hc, if_neg hspace]

/-- Characters and escapes of a name. -/
theorem wordChars?_congr {n m : Nat} {admits : Char → Bool} {cs : List Char} (hn : cs.length ≤ n)
    (hm : cs.length ≤ m) : wordChars? n admits cs = wordChars? m admits cs := by
  fun_induction wordChars? n admits cs generalizing m with
  | case1 admits cs =>
    obtain rfl := List.length_eq_zero_iff.mp (Nat.le_zero.mp hn)
    cases m <;> rfl
  | case2 n admits rest ih =>
    simp only [List.length_cons] at hn hm
    obtain ⟨m, rfl⟩ := Nat.exists_eq_add_one_of_ne_zero (show m ≠ 0 by omega)
    rw [wordChars?]
    refine Option.bind_congr fun point hpoint => ?_
    obtain ⟨taken, htext, -⟩ := takes_codePoint? hpoint
    have hlength := congrArg List.length htext
    rw [List.length_append] at hlength
    rw [ih point (show point.rest.length ≤ n by omega) (show point.rest.length ≤ m by omega)]
  | case3 n admits rest hno =>
    obtain ⟨m, rfl⟩ := Nat.exists_eq_add_one_of_ne_zero (show m ≠ 0 by rintro rfl; simp at hm)
    rw [wordChars?]
    exact hno
  | case4 n admits c rest hescape hslash hc ih =>
    simp only [List.length_cons] at hn hm
    obtain ⟨m, rfl⟩ := Nat.exists_eq_add_one_of_ne_zero (show m ≠ 0 by omega)
    rw [wordChars?.eq_4 _ _ _ _ hescape hslash, if_pos hc,
      ih (Nat.le_of_succ_le_succ hn) (Nat.le_of_succ_le_succ hm)]
  | case5 n admits c rest hescape hslash hc =>
    obtain ⟨m, rfl⟩ := Nat.exists_eq_add_one_of_ne_zero (show m ≠ 0 by rintro rfl; simp at hm)
    rw [wordChars?.eq_4 _ _ _ _ hescape hslash, if_neg hc]
  | case6 => cases m <;> rfl

/-- Characters and escapes of a string. -/
theorem stringBody?_congr (quote : Char) {n m : Nat} {cs : List Char} (hn : cs.length < n)
    (hm : cs.length < m) : stringBody? quote n cs = stringBody? quote m cs := by
  obtain ⟨m, rfl⟩ := Nat.exists_eq_add_one_of_ne_zero (Nat.ne_zero_of_lt hm)
  fun_induction stringBody? quote n cs generalizing m with
  | case1 => cases hn
  | case2 => rfl
  | case3 n c cs hc => rw [stringBody?, if_pos hc]
  | case4 n c cs hc hslash ih =>
    rw [stringBody?, if_neg hc, if_pos hslash]
    refine Option.bind_congr fun escaped hescaped => ?_
    obtain ⟨taken, htext, -⟩ := takes_escape? hescaped
    have hlength := congrArg List.length htext
    rw [List.length_append] at hlength
    simp only [List.length_cons] at hn hm
    obtain ⟨m, rfl⟩ := Nat.exists_eq_add_one_of_ne_zero (show m ≠ 0 by omega)
    rw [ih escaped (show escaped.rest.length < n by omega) m (by omega)]
  | case5 n c cs hc hslash hend => rw [stringBody?, if_neg hc, if_neg hslash, if_pos hend]
  | case6 n c cs hc hslash hend ih =>
    simp only [List.length_cons] at hn hm
    obtain ⟨m, rfl⟩ := Nat.exists_eq_add_one_of_ne_zero (show m ≠ 0 by omega)
    rw [stringBody?, if_neg hc, if_neg hslash, if_neg hend, ih (by omega) m (by omega)]

/-- A template up to its quote or to an embedded part. -/
theorem scanTemplate?_congr {n m : Nat} {cs : List Char} (hn : cs.length < n)
    (hm : cs.length < m) : scanTemplate? n cs = scanTemplate? m cs := by
  obtain ⟨m, rfl⟩ := Nat.exists_eq_add_one_of_ne_zero (Nat.ne_zero_of_lt hm)
  fun_induction scanTemplate? n cs generalizing m with
  | case1 => cases hn
  | case2 => rfl
  | case3 n c cs hc => simp [scanTemplate?, hc]
  | case4 n c cs hc hslash escaped hescaped ih =>
    obtain ⟨taken, htext, -⟩ := takes_escape? hescaped
    have hlength := congrArg List.length htext
    rw [List.length_append] at hlength
    simp only [List.length_cons] at hn hm
    obtain ⟨m, rfl⟩ := Nat.exists_eq_add_one_of_ne_zero (show m ≠ 0 by omega)
    simp [scanTemplate?, hc, hslash, hescaped, ih (by omega) m (by omega)]
  | case5 n c hc hslash d cs hescaped ih =>
    simp only [List.length_cons] at hn hm
    obtain ⟨m, rfl⟩ := Nat.exists_eq_add_one_of_ne_zero (show m ≠ 0 by omega)
    simp [scanTemplate?, hc, hslash, hescaped, ih (by omega) m (by omega)]
  | case6 n c hc hslash hescaped => simp [scanTemplate?, hc, hslash, hescaped]
  | case7 n rest hquote hslash => simp [scanTemplate?]
  | case8 n c cs hopen hc hslash ih =>
    simp only [List.length_cons] at hn hm
    obtain ⟨m, rfl⟩ := Nat.exists_eq_add_one_of_ne_zero (show m ≠ 0 by omega)
    rw [ih (by omega) m (by omega)]
    simp [scanTemplate?, hc, hslash]

/-- The token at the head of a text does not depend on the bound. -/
theorem scanKind_congr {n m : Nat} {cs : List Char} (hn : cs.length < n) (hm : cs.length < m) :
    scanKind n cs = scanKind m cs := by
  cases cs with
  | nil => rfl
  | cons c rest =>
    have hword : ∀ cs : List Char, cs.length < n → cs.length < m →
        scanWord? n cs = scanWord? m cs := fun cs hn hm => by
      simp only [scanWord?, wordChars?_congr (Nat.le_of_lt hn) (Nat.le_of_lt hm)]
    have hn' : rest.length < n := Nat.lt_of_succ_lt hn
    have hm' : rest.length < m := Nat.lt_of_succ_lt hm
    simp only [scanKind, hword _ hn hm, hword _ hn' hm', stringBody?_congr c hn' hm',
      scanTemplate?_congr hn' hm']

/-! ### Escapes

An escape ends where its digits do, and at most one character behind it is looked at, or two where
that is a backslash. -/

/-- In front of any other text that `P` holds of, the scan takes the same. -/
def Scanned.Local {α : Type} (f : List Char → Option (Scanned α)) (P : List Char → Prop)
    (cs : List Char) (s : Scanned α) : Prop :=
  ∃ w, cs = w ++ s.rest ∧ ∀ r, P r → f (w ++ r) = some { s with rest := r }

/-- The texts start with the same character, and with the same two if the first is a backslash. -/
def SameStart (cs ds : List Char) : Prop :=
  cs.head? = ds.head? ∧ (cs.head? = some '\\' → cs.tail.head? = ds.tail.head?)

/-- A fixed number of digits is looked at, and nothing else. -/
theorem hexDigits?_local {n value found : Nat} {cs rest : List Char}
    (h : hexDigits? n value cs = some (found, rest)) :
    ∃ w, cs = w ++ rest ∧ w.length = n ∧
      ∀ r, hexDigits? n value (w ++ r) = some (found, r) := by
  fun_induction hexDigits? n value cs with
  | case1 =>
    cases h
    exact ⟨[], rfl, rfl, fun _ => rfl⟩
  | case2 n value c cs ih =>
    obtain ⟨digit, hdigit, h⟩ := Option.bind_eq_some_iff.mp h
    obtain ⟨w, rfl, hlength, hlocal⟩ := ih digit h
    refine ⟨c :: w, rfl, by rw [List.length_cons, hlength], fun r => ?_⟩
    simp [hexDigits?, hdigit, hlocal r]
  | case3 => cases h

/-- The brace ends it. -/
theorem bracedHex?_local {value size : Nat} {cs : List Char} {s : Scanned Nat}
    (h : bracedHex? value size cs = some s) :
    Scanned.Local (bracedHex? value size) (fun _ => True) cs s := by
  fun_induction bracedHex? value size cs with
  | case1 => cases h
  | case2 => cases h
  | case3 value size c cs hc hsize =>
    cases h
    exact ⟨[c], rfl, fun r _ => by simp [bracedHex?, beq_iff_eq.mp hc, hsize]⟩
  | case4 value size c cs hc ih =>
    obtain ⟨digit, hdigit, h⟩ := Option.bind_eq_some_iff.mp h
    dsimp only at h
    split at h
    · next hle =>
      obtain ⟨w, rfl, hlocal⟩ := ih digit h
      refine ⟨c :: w, rfl, fun r _ => ?_⟩
      rw [beq_iff_eq] at hc
      simp [bracedHex?, hc, hdigit, hle, hlocal r trivial]
    · cases h

/-- Both forms know where they end. -/
theorem codePoint?_local {cs : List Char} {s : Scanned Nat} (h : codePoint? cs = some s) :
    Scanned.Local codePoint? (fun _ => True) cs s := by
  unfold codePoint? at h
  split at h
  · obtain ⟨s, hs, rfl⟩ := Option.map_eq_some_iff.mp h
    obtain ⟨w, rfl, hlocal⟩ := bracedHex?_local hs
    exact ⟨'\x7b' :: w, rfl, fun r _ => by simp [codePoint?, hlocal r trivial]⟩
  · next hopen =>
    obtain ⟨⟨value, rest⟩, hs, rfl⟩ := Option.map_eq_some_iff.mp h
    obtain ⟨w, rfl, hlength, hlocal⟩ := hexDigits?_local hs
    refine ⟨w, rfl, fun r _ => ?_⟩
    obtain ⟨c, w, rfl⟩ := List.exists_cons_of_length_eq_add_one hlength
    have hc : ∀ behind, c :: (w ++ r) = '\x7b' :: behind → False := by
      rintro behind heq
      cases heq
      exact hopen _ rfl
    rw [List.cons_append, codePoint?]
    · rw [← List.cons_append, hlocal r]
      rfl
    · exact hc

/-- The second half of a pair is an escape of its own, for which a backslash is looked at. -/
theorem unicodeEscape?_local {cs : List Char} {s : Scanned (List Char)}
    (h : unicodeEscape? cs = some s) :
    Scanned.Local unicodeEscape? (SameStart s.rest) cs s := by
  obtain ⟨first, hfirst, h⟩ := Option.bind_eq_some_iff.mp h
  obtain ⟨w, hcs, hlocal⟩ := codePoint?_local hfirst
  have hhead : ∀ r, first.rest.head? = r.head? → (w ++ r).head? = cs.head? := by
    intro r hr
    rw [hcs, List.head?_append, List.head?_append, hr]
  split at h
  · next hhigh =>
    split at h
    · next rest hrest =>
      obtain ⟨⟨low, rest⟩, hlow, hs⟩ := Option.bind_eq_some_iff.mp h
      obtain ⟨digits, rfl, -, hdigits⟩ := hexDigits?_local hlow
      dsimp only at hs
      have hread : ∀ r, unicodeEscape? (w ++ ('\\' :: 'u' :: digits) ++ r) =
          some { s with rest := r } ∧ s.rest = rest := by
        intro r
        have hsame := hhead ('\\' :: 'u' :: (digits ++ r)) (by rw [hrest]; rfl)
        simp only [unicodeEscape?, List.append_assoc, List.cons_append, hlocal _ trivial, hsame,
          Option.bind_eq_bind, Option.bind_some, hhigh, if_true, hdigits]
        split at hs <;> cases hs <;> simp_all
      refine ⟨w ++ ('\\' :: 'u' :: digits), ?_, fun r _ => (hread r).1⟩
      rw [(hread []).2, hcs, hrest]
      simp
    · next hno =>
      obtain rfl := Option.some.inj h
      refine ⟨w, hcs, fun r hr => ?_⟩
      have hno' : ∀ rest, r ≠ '\\' :: 'u' :: rest := by
        rintro rest rfl
        obtain ⟨tail, hslash⟩ := List.head?_eq_some_iff.mp hr.1
        have hsecond : first.rest.tail.head? = some 'u' := hr.2 hr.1
        rw [hslash] at hsecond
        obtain ⟨tail, rfl⟩ := List.head?_eq_some_iff.mp hsecond
        exact hno _ hslash
      simp only [unicodeEscape?, hlocal r trivial, hhead r hr.1, Option.bind_eq_bind,
        Option.bind_some, hhigh, if_true]
      rfl
  · next hlow =>
    have hrest : s.rest = first.rest := by
      split at h <;> cases h <;> rfl
    refine ⟨w, by rw [hrest, hcs], fun r hr => ?_⟩
    rw [hrest] at hr
    simp only [unicodeEscape?, hlocal r trivial, hhead r hr.1, Option.bind_eq_bind,
      Option.bind_some, if_neg hlow]
    split at h <;> cases h <;> simp_all

/-- What is taken while a test holds, `n` characters at most, does not depend on what comes behind
the next character. -/
theorem take_takeWhile_append {p : Char → Bool} {n : Nat} {w rest r : List Char}
    (h : ((w ++ rest).takeWhile p).take n = w) (hr : w.length < n → r.head? = rest.head?) :
    ((w ++ r).takeWhile p).take n = w := by
  induction w generalizing n with
  | nil =>
    cases n with
    | zero => rfl
    | succ n =>
      have hhead := hr (Nat.succ_pos n)
      cases r with
      | nil => rfl
      | cons d r =>
        obtain ⟨rest, rfl⟩ := List.head?_eq_some_iff.mp hhead.symm
        by_cases hd : p d = true
        · simp [hd] at h
        · simp [hd]
  | cons c w ih =>
    cases n with
    | zero => cases h
    | succ n =>
      by_cases hc : p c = true
      · simp only [List.cons_append, List.takeWhile_cons, hc, if_true, List.take_succ_cons,
          List.cons.injEq, true_and] at h ⊢
        exact ih h fun hlt => hr (Nat.succ_lt_succ hlt)
      · simp [hc] at h

/-- The value of octal digits. -/
def octalValue (ds : List Char) : Nat :=
  ds.foldl (fun n d => n * 8 + (d.toNat - '0'.toNat)) 0

/-- The digits of an octal escape. -/
def octalDigits (cs : List Char) : List Char :=
  let digits := (cs.takeWhile isOctal).take 3
  if octalValue digits < 256 then digits else digits.take 2

/-- The scan in terms of its digits. -/
theorem octalEscape_eq (cs : List Char) : octalEscape cs =
    ⟨[Char.ofNat (octalValue (octalDigits cs))], (octalDigits cs).length,
      cs.drop (octalDigits cs).length⟩ := rfl

/-- An octal escape may stop before its third digit, which depends on the next character. -/
theorem octalDigits_local {w rest r : List Char} (h : octalDigits (w ++ rest) = w)
    (hr : r.head? = rest.head?) : octalDigits (w ++ r) = w := by
  unfold octalDigits at h ⊢
  obtain ⟨digits, hdigits⟩ : ∃ digits, ((w ++ rest).takeWhile isOctal).take 3 = digits := ⟨_, rfl⟩
  simp only [hdigits] at h
  split at h
  · next hsmall =>
    subst h
    simp only [take_takeWhile_append hdigits fun _ => hr, if_pos hsmall]
  · next hlarge =>
    by_cases hlength : digits.length < 3
    · rw [List.take_of_length_le (Nat.le_of_lt_succ hlength)] at h
      subst h
      simp only [take_takeWhile_append hdigits fun _ => hr, if_neg hlarge]
      exact List.take_of_length_le (Nat.le_of_lt_succ hlength)
    · -- the third digit is left to the text behind
      have hthree : digits.length = 3 := by
        have hle := List.length_take_le 3 ((w ++ rest).takeWhile isOctal)
        rw [hdigits] at hle
        omega
      obtain ⟨third, hthird⟩ := List.length_eq_one_iff.mp
        (show (digits.drop 2).length = 1 by rw [List.length_drop, hthree])
      have hsplit : digits = w ++ [third] := by rw [← h, ← hthird, List.take_append_drop]
      obtain ⟨behind, hbehind⟩ : digits <+: w ++ rest :=
        hdigits ▸ (List.take_prefix 3 _).trans (List.takeWhile_prefix _)
      obtain rfl : rest = third :: behind := by simpa [hsplit] using hbehind.symm
      obtain ⟨r, rfl⟩ := List.head?_eq_some_iff.mp hr
      have hsame : ∀ behind : List Char, w ++ third :: behind = digits ++ behind := by simp [hsplit]
      rw [hsame] at hdigits ⊢
      simp only [take_takeWhile_append hdigits fun hlt => absurd hlt hlength, if_neg hlarge]
      exact h

/-- The escape behind its first digit. -/
theorem octalEscape_local {c : Char} (hc : isOctal c = true) (rest : List Char) :
    ∃ w, rest = w ++ (octalEscape (c :: rest)).rest ∧
      ∀ r, (octalEscape (c :: rest)).rest.head? = r.head? →
        octalEscape (c :: (w ++ r)) = { octalEscape (c :: rest) with rest := r } := by
  obtain ⟨w, hw⟩ : ∃ w, octalDigits (c :: rest) = c :: w := by
    unfold octalDigits
    simp only [List.takeWhile_cons, hc, if_true, List.take_succ_cons]
    split <;> exact ⟨_, rfl⟩
  obtain ⟨behind, hbehind⟩ : octalDigits (c :: rest) <+: c :: rest := by
    unfold octalDigits
    dsimp only
    split
    · exact (List.take_prefix 3 _).trans (List.takeWhile_prefix _)
    · exact ((List.take_prefix 2 _).trans (List.take_prefix 3 _)).trans (List.takeWhile_prefix _)
  rw [hw, List.cons_append] at hbehind
  obtain rfl : rest = w ++ behind := (List.cons.inj hbehind).2.symm
  have hescape : ∀ r, octalDigits (c :: (w ++ r)) = c :: w → octalEscape (c :: (w ++ r)) =
      ⟨[Char.ofNat (octalValue (c :: w))], (c :: w).length, r⟩ := by
    intro r hr
    simp [octalEscape_eq, hr]
  rw [hescape behind hw]
  exact ⟨w, rfl, fun r hr => hescape r (octalDigits_local (w := c :: w) hw hr.symm)⟩

/-- What a character behind a backslash stands for, where it starts no longer escape. -/
def escapedChar (c : Char) : Char :=
  match c with
  | 'n' => '\n'
  | 't' => '\t'
  | 'r' => '\r'
  | 'b' => '\x08'
  | 'v' => '\x0b'
  | 'f' => '\x0c'
  | c => c

/-- What is left when the forms with a letter of their own are ruled out. -/
theorem escape?_eq (octal : Bool) {c : Char} {rest : List Char}
    (hcr : ∀ tail, c = '\r' → rest = '\n' :: tail → False) (hx : c = 'x' → False)
    (hu : c = 'u' → False) : escape? octal (c :: rest) =
      if isLineEnd c then some ⟨[], c.utf8Size, rest⟩
      else if c == '0' && !(rest.head?.any Char.isDigit) then some ⟨['\x00'], 1, rest⟩
      else if c.isDigit && !octal then none
      else if isOctal c then some (octalEscape (c :: rest))
      else some ⟨[escapedChar c], c.utf8Size, rest⟩ := by
  unfold escape?
  split
  · next heq => cases heq
  · next heq =>
    obtain ⟨rfl, rfl⟩ := List.cons.inj heq
    exact (hcr _ rfl rfl).elim
  · next heq => exact (hx (List.cons.inj heq).1).elim
  · next heq => exact (hu (List.cons.inj heq).1).elim
  · next heq =>
    obtain ⟨rfl, rfl⟩ := List.cons.inj heq
    rfl

/-- By the character behind the backslash. -/
theorem escape?_local {octal : Bool} {cs : List Char} {s : Scanned (List Char)}
    (h : escape? octal cs = some s) : Scanned.Local (escape? octal) (SameStart s.rest) cs s := by
  -- A carriage return and a line feed are one escape, so that the first character of the rest
  -- counts.
  have hfollows : ∀ {c : Char} {rest r : List Char},
      (∀ tail, c = '\r' → rest = '\n' :: tail → False) → rest.head? = r.head? →
      ∀ tail, c = '\r' → r = '\n' :: tail → False := by
    rintro c rest _ hcr hr tail rfl rfl
    obtain ⟨tail, rfl⟩ := List.head?_eq_some_iff.mp hr
    exact hcr _ rfl rfl
  fun_cases escape? octal cs with
  | case1 => cases h
  | case2 rest =>
    obtain rfl := Option.some.inj h
    exact ⟨['\r', '\n'], rfl, fun r _ => rfl⟩
  | case3 rest =>
    obtain ⟨⟨value, rest⟩, hdigits, rfl⟩ := Option.map_eq_some_iff.mp h
    obtain ⟨w, rfl, -, hlocal⟩ := hexDigits?_local hdigits
    exact ⟨'x' :: w, rfl, fun r _ => by simp [escape?, hlocal r]⟩
  | case4 rest =>
    obtain ⟨s, hs, rfl⟩ := Option.map_eq_some_iff.mp h
    obtain ⟨w, rfl, hlocal⟩ := unicodeEscape?_local hs
    exact ⟨'u' :: w, rfl, fun r hr => by simp [escape?, hlocal r hr]⟩
  | case5 c rest hcr hx hu hend =>
    rw [escape?_eq _ hcr hx hu, if_pos hend] at h
    obtain rfl := Option.some.inj h
    refine ⟨[c], rfl, fun r hr => ?_⟩
    rw [List.singleton_append, escape?_eq _ (hfollows hcr hr.1) hx hu, if_pos hend]
  | case6 c rest hcr hx hu hend hzero =>
    rw [escape?_eq _ hcr hx hu, if_neg hend, if_pos hzero] at h
    obtain rfl := Option.some.inj h
    refine ⟨[c], rfl, fun r hr => ?_⟩
    rw [List.singleton_append, escape?_eq _ (hfollows hcr hr.1) hx hu, if_neg hend, ← hr.1,
      if_pos hzero]
  | case7 c rest hcr hx hu hend hzero hdigit =>
    rw [escape?_eq _ hcr hx hu, if_neg hend, if_neg hzero, if_pos hdigit] at h
    cases h
  | case8 c rest hcr hx hu hend hzero hdigit hoctal =>
    rw [escape?_eq _ hcr hx hu, if_neg hend, if_neg hzero, if_neg hdigit, if_pos hoctal] at h
    obtain rfl := Option.some.inj h
    obtain ⟨w, hw, hlocal⟩ := octalEscape_local hoctal rest
    refine ⟨c :: w, congrArg (c :: ·) hw, fun r hr => ?_⟩
    have hhead : rest.head? = (w ++ r).head? := by
      rw [congrArg List.head? hw, List.head?_append, List.head?_append, hr.1]
    rw [List.cons_append, escape?_eq _ (hfollows hcr hhead) hx hu, if_neg hend, ← hhead,
      if_neg hzero, if_neg hdigit, if_pos hoctal, hlocal r hr.1]
  | case9 c rest hcr hx hu hend hzero hdigit hoctal =>
    rw [escape?_eq _ hcr hx hu, if_neg hend, if_neg hzero, if_neg hdigit, if_neg hoctal] at h
    obtain rfl := Option.some.inj h
    refine ⟨[c], rfl, fun r hr => ?_⟩
    rw [List.singleton_append, escape?_eq _ (hfollows hcr hr.1) hx hu, if_neg hend, ← hr.1,
      if_neg hzero, if_neg hdigit, if_neg hoctal]

/-! ### Tokens

A string knows its end. A name goes on as far as it can, so that the text behind it must not go on
with it. -/

/-- Before a closing quote the start of a text is the same whatever follows the quote. -/
theorem sameStart_append {quote : Char} (hquote : quote ≠ '\\') (w rest r : List Char) :
    SameStart (w ++ quote :: rest) (w ++ quote :: r) := by
  match w with
  | [] => exact ⟨rfl, fun h => absurd (Option.some.inj h) hquote⟩
  | [_] => exact ⟨rfl, fun _ => rfl⟩
  | _ :: _ :: _ => exact ⟨rfl, fun _ => rfl⟩

/-- By induction on the bound, character by character and escape by escape. -/
theorem stringBody?_local {quote : Char} (hquote : quote ≠ '\\') {n : Nat} {cs : List Char}
    {s : Scanned (List Char)} (h : stringBody? quote n cs = some s) : ∃ w, cs =
      w ++ quote :: s.rest ∧
      ∀ r, stringBody? quote n (w ++ quote :: r) = some { s with rest := r } := by
  fun_induction stringBody? quote n cs generalizing s with
  | case1 => cases h
  | case2 => cases h
  | case3 n c cs hc =>
    obtain rfl := Option.some.inj h
    obtain rfl := beq_iff_eq.mp hc
    exact ⟨[], rfl, fun r => by simp [stringBody?]⟩
  | case4 n c cs hc hslash ih =>
    obtain ⟨escaped, hescaped, h⟩ := Option.bind_eq_some_iff.mp h
    obtain ⟨tail, htail, h⟩ := Option.bind_eq_some_iff.mp h
    obtain rfl := Option.some.inj h
    obtain ⟨w, rfl, hescape⟩ := escape?_local hescaped
    obtain ⟨w', hw', hlocal⟩ := ih escaped htail
    refine ⟨c :: (w ++ w'), ?_, fun r => ?_⟩
    · simp [hw']
    · have hsame : SameStart escaped.rest (w' ++ quote :: r) := by
        rw [hw']
        exact sameStart_append hquote w' tail.rest r
      simp [stringBody?, hc, hslash, hescape _ hsame, hlocal r]
  | case5 => cases h
  | case6 n c cs hc hslash hend ih =>
    obtain ⟨tail, htail, h⟩ := Option.bind_eq_some_iff.mp h
    obtain rfl := Option.some.inj h
    obtain ⟨w, rfl, hlocal⟩ := ih htail
    exact ⟨c :: w, rfl, fun r => by simp [stringBody?, hc, hslash, hend, hlocal r]⟩

/-- A name that has ended takes nothing more. -/
theorem wordChars?_of_endsName {admits : Char → Bool}
    (hadmits : ∀ c, admits c = true → isIdentifierPart c = true) {cs : List Char} (h : EndsName cs)
    (n : Nat) : wordChars? n admits cs = some ⟨([], false), 0, cs⟩ := by
  cases n with
  | zero => rfl
  | succ n =>
    cases cs with
    | nil => rfl
    | cons c cs =>
      obtain ⟨hpart, hslash⟩ := h c rfl
      have hc : ¬ admits c = true := fun hc => by simp [hadmits c hc] at hpart
      rw [wordChars?.eq_4 _ _ _ _ (fun _ h _ => hslash h) (fun h => hslash h), if_neg hc]

/-- Where the scan of a name stops, the text does not go on with it. -/
theorem endsName_of_wordChars? {n : Nat} {admits : Char → Bool} {cs : List Char}
    {s : Scanned (List Char × Bool)} (h : wordChars? n admits cs = some s) (hn : cs.length ≤ n)
    (hname : s.value.1 ≠ [] ∨ ∀ c, isIdentifierPart c = true → admits c = true) :
    EndsName s.rest := by
  fun_induction wordChars? n admits cs generalizing s with
  | case1 admits cs =>
    obtain rfl := Option.some.inj h
    obtain rfl := List.length_eq_zero_iff.mp (Nat.le_zero.mp hn)
    simp [EndsName]
  | case2 n admits rest ih =>
    obtain ⟨point, hpoint, h⟩ := Option.bind_eq_some_iff.mp h
    dsimp only at h
    split at h
    · obtain ⟨tail, htail, h⟩ := Option.bind_eq_some_iff.mp h
      obtain rfl := Option.some.inj h
      obtain ⟨taken, rfl, -⟩ := takes_codePoint? hpoint
      have hlength : point.rest.length ≤ n := by
        simp only [List.length_cons, List.length_append] at hn
        omega
      have hends := ih point htail hlength (.inr fun _ h => h)
      exact hends
    · cases h
  | case3 => cases h
  | case4 n admits c rest hescape hslash hc ih =>
    obtain ⟨tail, htail, h⟩ := Option.bind_eq_some_iff.mp h
    obtain rfl := Option.some.inj h
    have hends := ih htail (Nat.le_of_succ_le_succ hn) (.inr fun _ h => h)
    exact hends
  | case5 n admits c rest hescape hslash hc =>
    obtain rfl := Option.some.inj h
    rcases hname with hname | hadmits
    · exact absurd rfl hname
    · exact endsName_cons ⟨Bool.eq_false_iff.mpr fun hpart => hc (hadmits c hpart),
        fun heq => hslash heq⟩ rest
  | case6 =>
    obtain rfl := Option.some.inj h
    simp [EndsName]

/-- A name ends in the same place in front of any text that does not go on with it. -/
theorem wordChars?_local {n : Nat} {admits : Char → Bool} {cs : List Char}
    {s : Scanned (List Char × Bool)} (hadmits : ∀ c, admits c = true → isIdentifierPart c = true)
    (h : wordChars? n admits cs = some s) : Scanned.Local (wordChars? n admits) EndsName cs s := by
  fun_induction wordChars? n admits cs generalizing s with
  | case1 =>
    obtain rfl := Option.some.inj h
    exact ⟨[], rfl, fun _ _ => rfl⟩
  | case2 n admits rest ih =>
    obtain ⟨point, hpoint, h⟩ := Option.bind_eq_some_iff.mp h
    dsimp only at h
    split at h
    · next hc =>
      obtain ⟨tail, htail, h⟩ := Option.bind_eq_some_iff.mp h
      obtain rfl := Option.some.inj h
      obtain ⟨w, rfl, hread⟩ := codePoint?_local hpoint
      obtain ⟨w', hw', hlocal⟩ := ih point (fun _ h => h) htail
      refine ⟨'\\' :: 'u' :: (w ++ w'), ?_, fun r hr => ?_⟩
      · simp [hw']
      · simp [wordChars?, hread _ trivial, hc, hlocal r hr]
    · cases h
  | case3 => cases h
  | case4 n admits c rest hescape hslash hc ih =>
    obtain ⟨tail, htail, h⟩ := Option.bind_eq_some_iff.mp h
    obtain rfl := Option.some.inj h
    obtain ⟨w, rfl, hlocal⟩ := ih (fun _ h => h) htail
    refine ⟨c :: w, rfl, fun r hr => ?_⟩
    rw [List.cons_append, wordChars?_cons (hadmits c hc) hc, hlocal r hr]
    rfl
  | case5 n admits c rest hescape hslash hc =>
    obtain rfl := Option.some.inj h
    exact ⟨[], rfl, fun r hr => wordChars?_of_endsName hadmits hr _⟩
  | case6 =>
    obtain rfl := Option.some.inj h
    exact ⟨[], rfl, fun r hr => wordChars?_of_endsName hadmits hr _⟩

/-- A name is found in front of any text that does not go on with it. -/
theorem scanWord?_local {n : Nat} {cs : List Char} {s : Scanned (String × Bool)}
    (h : scanWord? n cs = some s) (hn : cs.length ≤ n) :
    EndsName s.rest ∧ Scanned.Local (scanWord? n) EndsName cs s := by
  obtain ⟨word, hword, h⟩ := Option.bind_eq_some_iff.mp h
  split at h
  · cases h
  · next hne =>
    obtain rfl := Option.some.inj h
    have hne : word.value.1 ≠ [] := by simpa using hne
    obtain ⟨w, rfl, hlocal⟩ := wordChars?_local (fun _ h => isIdentifierPart_of_start h) hword
    exact ⟨endsName_of_wordChars? hword hn (.inl hne), w, rfl,
      fun r hr => by simp [scanWord?, hlocal r hr, hne]⟩

/-! ### One token

The common tokens only. Numbers, templates and other punctuation would need longer looks ahead, and
none of them stands between the names of an import. -/

/-- Names, strings, braces and commas. -/
def TokenKind.IsCommon : TokenKind → Prop
  | .word _ _ | .string _ => True
  | .punct p => p = .lcurly ∨ p = .rcurly ∨ p = .comma
  | _ => False

/-- The token is no name, or none goes on behind it. -/
def TokenKind.Stops (kind : TokenKind) (rest : List Char) : Prop :=
  match kind with
  | .word _ _ => EndsName rest
  | _ => True

/-- Behind the token, any other text may stand in which no name goes on. -/
structure Scanned.Replaceable (s : Scanned TokenKind) (f : List Char → Scanned TokenKind)
    (cs : List Char) : Prop where
  stops : s.value.Stops s.rest
  goesOn : ∀ name escaped, s.value = .word name escaped → ¬ EndsName cs
  reads : ∃ c w, cs = c :: (w ++ s.rest) ∧ (isGapChar c = false ∧ c ≠ '/') ∧
    ∀ r, s.value.Stops r → f (c :: (w ++ r)) = { s with rest := r }

/-- What starts a name is no blank and no slash. -/
theorem not_isGapChar_of_word {c : Char} (hc : (isIdentifierStart c || c == '\\') = true) :
    isGapChar c = false ∧ c ≠ '/' := by
  rcases Bool.or_eq_true_iff.mp hc with hc | hc
  · exact startsSolid_of_isIdentifierStart hc [] c rfl
  · obtain rfl := beq_iff_eq.mp hc
    decide

/-- What starts a name goes on with one, too. -/
theorem not_endsName_of_word {c : Char} (hc : (isIdentifierStart c || c == '\\') = true)
    (cs : List Char) : ¬ EndsName (c :: cs) := by
  intro h
  obtain ⟨hpart, hslash⟩ := h c rfl
  rcases Bool.or_eq_true_iff.mp hc with hc | hc
  · simp [isIdentifierPart_of_start hc] at hpart
  · exact hslash (beq_iff_eq.mp hc)

/-- A brace or a comma is a token of one character, whatever stands behind it. -/
theorem scanPunct?_common {cs : List Char} {p : Punct} {k : Nat}
    (h : scanPunct? cs = some (p, k)) (hp : p = .lcurly ∨ p = .rcurly ∨ p = .comma) :
    k = 1 ∧ ∃ c rest, cs = c :: rest ∧ (c = '\x7b' ∨ c = '\x7d' ∨ c = ',') ∧
      ∀ r, scanPunct? (c :: r) = some (p, 1) := by
  obtain ⟨rfl, rest, rfl⟩ := scanPunct?_spells h
  rcases hp with rfl | rfl | rfl
  · exact ⟨rfl, _, rest, rfl, .inl rfl, fun _ => rfl⟩
  · exact ⟨rfl, _, rest, rfl, .inr (.inl rfl), fun _ => rfl⟩
  · exact ⟨rfl, _, rest, rfl, .inr (.inr rfl), fun _ => rfl⟩

/-- By the first character, as in the scan. -/
theorem replaceable_scanKind {n : Nat} {cs : List Char} (hn : cs.length < n)
    (hkind : (scanKind n cs).value.IsCommon) :
    (scanKind n cs).Replaceable (scanKind n) cs := by
  cases cs with
  | nil => exact hkind.elim
  | cons c rest =>
  by_cases hword : (isIdentifierStart c || c == '\\') = true
  · have hscan : ∀ rest, scanKind n (c :: rest) = ((scanWord? n (c :: rest)).map fun w =>
        ⟨.word w.value.1 w.value.2, w.size, w.rest⟩).getD ⟨.invalid, 0, c :: rest⟩ := fun rest => by
      simp [scanKind, hword]
    rw [hscan] at hkind ⊢
    cases hs : scanWord? n (c :: rest) with
    | none =>
      rw [hs] at hkind
      exact hkind.elim
    | some s =>
      obtain ⟨hends, w, hw, hlocal⟩ := scanWord?_local hs (Nat.le_of_lt hn)
      cases w with
      | nil =>
        have hrest : c :: rest = s.rest := hw
        exact absurd (hrest ▸ hends) (not_endsName_of_word hword _)
      | cons d w =>
        obtain ⟨rfl, hrest⟩ := List.cons.inj hw
        refine ⟨hends, fun _ _ _ => not_endsName_of_word hword rest, c, w, hw,
          not_isGapChar_of_word hword, fun r hr => ?_⟩
        rw [hscan, ← List.cons_append, hlocal r hr]
        rfl
  -- a text that starts no such token is none of the others
  have hother : ∀ found : Option (Scanned TokenKind), (∀ s, found = some s → ¬ s.value.IsCommon) →
      ¬ (found.getD ⟨.invalid, 0, c :: rest⟩).value.IsCommon := by
    intro found hfound
    cases found with
    | none => exact fun h => h
    | some s => exact hfound s rfl
  by_cases hnumber : (c.isDigit || (c == '.' && rest.head?.any Char.isDigit)) = true
  · simp only [scanKind, hword, hnumber, if_true] at hkind
    refine absurd hkind (hother _ fun s hs => ?_)
    rcases scanNumber?_value hs with hvalue | hvalue <;> simp [hvalue, TokenKind.IsCommon]
  by_cases hquote : (c == '\x22' || c == '\'') = true
  · have hplain : (isGapChar c = false ∧ c ≠ '/') ∧ c ≠ '\\' ∧ c.isDigit = false ∧
        (c == '.') = false := by
      simp only [Bool.or_eq_true, beq_iff_eq] at hquote
      rcases hquote with rfl | rfl <;> decide
    obtain ⟨hgap, hslash, hdigit, hdot⟩ := hplain
    have hscan : ∀ rest, scanKind n (c :: rest) = ((stringBody? c n rest).map fun s =>
        ⟨.string (String.ofList s.value), s.size + 1, s.rest⟩).getD ⟨.invalid, 0, c :: rest⟩ :=
      fun rest => by
        simp only [scanKind, hword, hdigit, hdot, hquote, Bool.false_and, Bool.or_false, if_true]
        rfl
    rw [hscan] at hkind ⊢
    cases hs : stringBody? c n rest with
    | none =>
      rw [hs] at hkind
      exact hkind.elim
    | some s =>
      obtain ⟨w, rfl, hlocal⟩ := stringBody?_local hslash hs
      refine ⟨trivial, by simp, c, w ++ [c], by simp, hgap, fun r _ => ?_⟩
      rw [List.append_assoc, List.singleton_append, hscan, hlocal r]
      rfl
  by_cases htemplate : (c == '\x60') = true
  · simp only [scanKind, hword, hnumber, hquote, htemplate, if_true] at hkind
    refine absurd hkind (hother _ fun s hs => ?_)
    obtain ⟨body, hbody, rfl⟩ := Option.map_eq_some_iff.mp hs
    obtain ⟨whole, proper, hvalue⟩ := scanTemplate?_value hbody
    simp [hvalue, TokenKind.IsCommon]
  by_cases hhash : (c == '#') = true
  · simp only [scanKind, hword, hnumber, hquote, htemplate, hhash, if_true] at hkind
    refine absurd hkind (hother _ fun s hs => ?_)
    obtain ⟨body, hbody, rfl⟩ := Option.map_eq_some_iff.mp hs
    exact fun h => h
  · have hscan : scanKind n (c :: rest) = ((scanPunct? (c :: rest)).map fun x =>
        ⟨.punct x.1, x.2, (c :: rest).drop x.2⟩).getD ⟨.invalid, 0, c :: rest⟩ := by
      simp only [scanKind, hword, hnumber, hquote, htemplate, hhash]
      rfl
    rw [hscan] at hkind ⊢
    cases hs : scanPunct? (c :: rest) with
    | none =>
      rw [hs] at hkind
      exact hkind.elim
    | some x =>
      obtain ⟨p, k⟩ := x
      rw [hs] at hkind
      obtain ⟨rfl, d, rest, heq, hc, hlocal⟩ := scanPunct?_common hs hkind
      obtain ⟨rfl, rfl⟩ := List.cons.inj heq
      have hplain : (isGapChar c = false ∧ c ≠ '/') ∧ (isIdentifierStart c || c == '\\') = false ∧
          c.isDigit = false ∧ (c == '.') = false := by
        rcases hc with rfl | rfl | rfl <;> decide
      obtain ⟨hgap, hstart, hdigit, hdot⟩ := hplain
      refine ⟨trivial, by simp, c, [], rfl, hgap, fun r _ => ?_⟩
      simp [scanKind, hword, hdigit, hdot, hquote, htemplate, hhash, hlocal]

/-- Names, strings, braces and commas are found in front of any text in which no name goes on. -/
theorem scanKind_local {n : Nat} {cs : List Char} (hn : cs.length < n)
    (hkind : (scanKind n cs).value.IsCommon) :
    (scanKind n cs).value.Stops (scanKind n cs).rest ∧
      ∃ c w, cs = c :: (w ++ (scanKind n cs).rest) ∧ (isGapChar c = false ∧ c ≠ '/') ∧
        ∀ r, (scanKind n cs).value.Stops r → ∀ m, (c :: (w ++ r)).length < m →
          scanKind m (c :: (w ++ r)) = { scanKind n cs with rest := r } := by
  obtain ⟨hstops, -, c, w, hcs, hgap, -⟩ := replaceable_scanKind hn hkind
  refine ⟨hstops, c, w, hcs, hgap, fun r hr m hm => ?_⟩
  -- both texts are scanned with a bound that is large enough for the two of them
  have hsame : scanKind n cs = scanKind (max n m) cs := scanKind_congr hn (by omega)
  rw [hsame] at hkind hcs hr ⊢
  obtain ⟨-, -, d, w', hcs', -, hlocal⟩ :=
    replaceable_scanKind (show cs.length < max n m by omega) hkind
  obtain ⟨rfl, hw⟩ := List.cons.inj (hcs.symm.trans hcs')
  rw [← List.append_cancel_right hw] at hlocal
  rw [← hlocal r hr]
  exact scanKind_congr hm (by omega)

/-! ### Fillers

A comment knows its end, and a blank is one character. So fillers stay the same before another text,
as long as that one does not go on with them. -/

/-- The first `*/` ends a comment whatever follows it. -/
theorem splitComment?_replace {body cs : List Char}
    (h : splitComment? (body ++ '*' :: '/' :: cs) = some (body, cs)) (ds : List Char) :
    splitComment? (body ++ '*' :: '/' :: ds) = some (body, ds) := by
  induction body with
  | nil => rfl
  | cons c body ih =>
    -- the mark stands behind all of the body
    have hmark : ∀ rest, c = '*' → body ++ '*' :: '/' :: ds = '/' :: rest → False := by
      rintro rest rfl heq
      cases body with
      | nil => cases heq
      | cons d body =>
        obtain ⟨rfl, -⟩ := List.cons.inj heq
        cases h
    have hmark' : ∀ rest, c = '*' → body ++ '*' :: '/' :: cs = '/' :: rest → False := by
      rintro rest rfl heq
      cases body with
      | nil => cases heq
      | cons d body =>
        obtain ⟨rfl, -⟩ := List.cons.inj heq
        cases h
    rw [List.cons_append, splitComment?.eq_3 _ _ hmark'] at h
    obtain ⟨found, hfound, heq⟩ := Option.map_eq_some_iff.mp h
    rw [List.cons_append, splitComment?.eq_3 _ _ hmark]
    cases heq
    rw [ih hfound]
    rfl

/-- A filler takes at least one character. -/
theorem Filler.chars_ne_nil (f : Filler) : f.chars ≠ [] := by
  cases f <;> exact List.cons_ne_nil _ _

/-- The fillers before a token stand before any other text as well. -/
theorem Fills.replace {cs rest : List Char} {fs : List Filler} (h : Fills cs fs rest)
    (hrest : rest ≠ []) {ds behind : List Char} {gs : List Filler} (hds : Fills ds gs behind) :
    Fills (fillerText fs ++ ds) (fs ++ gs) behind := by
  induction h with
  | nil => exact hds
  | blank hc _ ih => exact .blank hc (ih hrest)
  | @line body cs rest fs hbody hhead hfills ih =>
    -- a line comment ends at the end of its line, which is a filler itself
    have hhead : ∀ c ∈ (fillerText fs ++ ds).head?, isLineEnd c = true := by
      rw [hfills.eq_append] at hhead
      cases fs with
      | nil =>
        obtain ⟨c, rest, rfl⟩ := List.exists_cons_of_ne_nil hrest
        have hblank := hfills.startsNoFiller.no_blank c rfl
        simp [isGapChar, hhead c rfl] at hblank
      | cons f fs =>
        obtain ⟨c, chars, hchars⟩ := List.exists_cons_of_ne_nil f.chars_ne_nil
        intro d hd
        refine hhead d ?_
        rw [fillerText_cons, hchars] at hd ⊢
        exact hd
    have hfills := Fills.line hbody hhead (ih hrest)
    simpa [Filler.chars] using hfills
  | block hsplit _ ih =>
    have hfills := Fills.block (splitComment?_replace hsplit _) (ih hrest)
    simpa [Filler.chars] using hfills

end VueSetup.Script
