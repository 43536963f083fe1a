import VueSetup.Proofs.Text.Boundary
import VueSetup.Script.Token

/-!
# VueSetup.Proofs.Script.Scan

A scan takes the front part of its text: what it leaves is a rest of the text, and the size that it
tells is the size of what it took (`Scanned.Takes`). So the offsets of tokens fall between
characters, whatever the text holds. The main statements are `takes_skipBlanks` and
`fits_scanKind`, which together are about one token, and the ones about the places in which the
grammar scans again: `takes_scanRegex?`, `takes_scanTemplate?` and `takes_longestAngles`.
-/

namespace VueSetup.Script

open Text

/-- The text is what was taken and then the rest, and the size is that of what was taken. -/
def Scanned.Takes {α : Type} (s : Scanned α) (cs : List Char) : Prop :=
  ∃ taken, cs = taken ++ s.rest ∧ s.size = byteSize taken

namespace Scanned

variable {α β : Type} {cs : List Char}

/-- A scan that stops at once takes nothing. -/
theorem takes_nothing (v : α) (cs : List Char) : (Scanned.mk v 0 cs).Takes cs :=
  ⟨[], rfl, rfl⟩

/-- A part before what a scan takes may be counted in. -/
theorem Takes.after {s : Scanned α} (h : s.Takes cs) (front : List Char) {v : β} {n : Nat}
    (hn : n = byteSize front + s.size) : (Scanned.mk v n s.rest).Takes (front ++ cs) := by
  obtain ⟨taken, rfl, hsize⟩ := h
  exact ⟨front ++ taken, by simp, by simp [hn, hsize]⟩

/-- A character before what a scan takes may be counted in. -/
theorem Takes.cons {s : Scanned α} (h : s.Takes cs) (c : Char) {v : β} {n : Nat}
    (hn : n = c.utf8Size + s.size) : (Scanned.mk v n s.rest).Takes (c :: cs) :=
  h.after [c] (by simp [hn])

theorem takes_front (v : α) (front rest : List Char) {n : Nat} (hn : n = byteSize front) :
    (Scanned.mk v n rest).Takes (front ++ rest) :=
  ⟨front, rfl, hn⟩

theorem takes_one (v : α) (c : Char) (rest : List Char) {n : Nat} (hn : n = c.utf8Size) :
    (Scanned.mk v n rest).Takes (c :: rest) :=
  takes_front v [c] rest (by simp [hn])

end Scanned

open Scanned

/-! ### ASCII

Digits and most marks take one byte, so that a scan may count them by their number. -/

theorem toNat_lt_of_isDigit {c : Char} (h : c.isDigit = true) : c.toNat < 0x80 := by
  simp only [Char.isDigit, Bool.and_eq_true, decide_eq_true_eq, UInt32.le_iff_toNat_le] at h
  exact Nat.lt_of_le_of_lt h.2 (by decide)

theorem utf8Size_of_isDigit {c : Char} (h : c.isDigit = true) : c.utf8Size = 1 :=
  utf8Size_of_toNat_lt (toNat_lt_of_isDigit h)

/-- A digit goes on with a name, which is why a number does not end before one. -/
theorem isIdentifierPart_of_isDigit {c : Char} (h : c.isDigit = true) : isIdentifierPart c =
    true := by
  simp [isIdentifierPart, toNat_lt_of_isDigit h, Char.isAlphanum, h]

theorem utf8Size_of_isOctal {c : Char} (h : isOctal c = true) : c.utf8Size = 1 := by
  simp only [isOctal, Bool.and_eq_true, decide_eq_true_eq] at h
  exact utf8Size_of_le h.2 (by decide)

theorem utf8Size_of_hexDigit? {c : Char} {n : Nat} (h : hexDigit? c = some n) :
    c.utf8Size = 1 := by
  simp only [hexDigit?, Bool.and_eq_true, decide_eq_true_eq] at h
  split at h
  · exact utf8Size_of_le (by simp_all) (d := '9') (by decide)
  · split at h
    · exact utf8Size_of_le (by simp_all) (d := 'f') (by decide)
    · split at h
      · exact utf8Size_of_le (by simp_all) (d := 'F') (by decide)
      · cases h

/-! ### Blanks and comments

Each round passes over one blank or one comment. The bound only ends the recursion, so nothing is
asked of it here. -/

/-- The body of a comment goes up to the first `*/`, which is not part of it. -/
theorem splitComment?_eq_some {cs body rest : List Char}
    (h : splitComment? cs = some (body, rest)) :
    cs = body ++ ['*', '/'] ++ rest := by
  fun_induction splitComment? cs generalizing body with
  | case1 => cases h
  | case2 cs =>
    cases h
    rfl
  | case3 c cs _ ih =>
    obtain ⟨⟨body', rest'⟩, hsplit, heq⟩ := Option.map_eq_some_iff.mp h
    cases heq
    simp [ih hsplit]

/-- Blanks and comments in a row are taken together, by induction on the bound. -/
theorem takes_skipBlanks (n : Nat) (line : Bool) (cs : List Char) :
    (skipBlanks n 0 line cs).Takes cs := by
  -- the sizes of what was passed over before only add up
  suffices h : ∀ size, ∃ passed, cs = passed ++ (skipBlanks n size line cs).rest ∧
      (skipBlanks n size line cs).size = size + byteSize passed by
    obtain ⟨passed, htext, hsize⟩ := h 0
    exact ⟨passed, htext, by rw [hsize, Nat.zero_add]⟩
  intro size
  fun_induction skipBlanks n size line cs with
  | case1 => exact ⟨[], rfl, rfl⟩
  | case2 => exact ⟨[], rfl, rfl⟩
  | case3 n size line rest body ih =>
    obtain ⟨passed, htext, hsize⟩ := ih
    refine ⟨'/' :: '/' :: body ++ passed, ?_, ?_⟩
    · rw [List.append_assoc, ← htext]
      simp [body]
    · rw [hsize]
      simp [show ('/' : Char).utf8Size = 1 from rfl]
      omega
  | case4 n size line rest body behind hsplit ih =>
    obtain ⟨passed, htext, hsize⟩ := ih
    refine ⟨'/' :: '*' :: (body ++ ['*', '/'] ++ passed), ?_, ?_⟩
    · rw [splitComment?_eq_some hsplit, List.cons_append, List.cons_append,
        List.append_assoc _ passed, ← htext]
    · rw [hsize]
      simp [show ('/' : Char).utf8Size = 1 from rfl, show ('*' : Char).utf8Size = 1 from rfl]
      omega
  | case5 => exact ⟨[], rfl, rfl⟩
  | case6 n size line c rest _ _ _ ih =>
    obtain ⟨passed, htext, hsize⟩ := ih
    exact ⟨c :: passed, by rw [List.cons_append, ← htext], by rw [hsize, byteSize_cons]; omega⟩
  | case7 n size line c rest _ _ _ _ ih =>
    obtain ⟨passed, htext, hsize⟩ := ih
    exact ⟨c :: passed, by rw [List.cons_append, ← htext], by rw [hsize, byteSize_cons]; omega⟩
  | case8 => exact ⟨[], rfl, rfl⟩

/-! ### Escapes

Escapes stand in words, strings and templates. Each is scanned behind its backslash, and its size is
counted in bytes although its digits are counted by their number. -/

/-- Digits of a fixed number take as many bytes. -/
theorem hexDigits?_eq_some {n value : Nat} {cs : List Char} {found : Nat × List Char}
    (h : hexDigits? n value cs = some found) : ∃ digits, cs = digits ++ found.2 ∧
    byteSize digits = n := by
  fun_induction hexDigits? n value cs with
  | case1 =>
    cases h
    exact ⟨[], rfl, rfl⟩
  | case2 n value c cs ih =>
    obtain ⟨digit, hdigit, h⟩ := Option.bind_eq_some_iff.mp h
    obtain ⟨digits, htext, hsize⟩ := ih digit h
    exact ⟨c :: digits, by rw [htext]; rfl, by
      rw [byteSize_cons, utf8Size_of_hexDigit? hdigit]
      omega⟩
  | case3 => cases h

/-- The size so far is carried along, and the closing brace is counted last. -/
theorem takes_bracedHex? {value size : Nat} {cs : List Char} {s : Scanned Nat}
    (h : bracedHex? value size cs = some s) :
    ∃ taken, cs = taken ++ s.rest ∧ s.size = size + byteSize taken := by
  fun_induction bracedHex? value size cs with
  | case1 => cases h
  | case2 => cases h
  | case3 value size c cs hc _ =>
    cases h
    exact ⟨[c], rfl, by simp [beq_iff_eq.mp hc, show ('\x7d' : Char).utf8Size = 1 from rfl]⟩
  | case4 value size c cs hc ih =>
    obtain ⟨digit, hdigit, h⟩ := Option.bind_eq_some_iff.mp h
    dsimp only at h
    split at h
    · obtain ⟨taken, htext, hsize⟩ := ih digit h
      exact ⟨c :: taken, by rw [htext]; rfl, by
        rw [hsize, byteSize_cons, utf8Size_of_hexDigit? hdigit]
        omega⟩
    · cases h

theorem takes_codePoint? {cs : List Char} {s : Scanned Nat} (h : codePoint? cs = some s) :
    s.Takes cs := by
  unfold codePoint? at h
  split at h
  · obtain ⟨s, hs, rfl⟩ := Option.map_eq_some_iff.mp h
    obtain ⟨taken, rfl, hsize⟩ := takes_bracedHex? hs
    exact takes_front _ ('\x7b' :: taken) s.rest (by
      rw [byteSize_cons, hsize, show ('\x7b' : Char).utf8Size = 1 from rfl]
      omega)
  · obtain ⟨⟨value, rest⟩, hs, rfl⟩ := Option.map_eq_some_iff.mp h
    obtain ⟨digits, rfl, hsize⟩ := hexDigits?_eq_some hs
    exact takes_front _ digits rest hsize.symm

theorem takes_unicodeEscape? {cs : List Char} {s : Scanned (List Char)}
    (h : unicodeEscape? cs = some s) : s.Takes cs := by
  obtain ⟨first, hfirst, h⟩ := Option.bind_eq_some_iff.mp h
  have htakes := takes_codePoint? hfirst
  split at h
  · split at h
    · next rest hrest =>
      obtain ⟨⟨low, rest⟩, hlow, h⟩ := Option.bind_eq_some_iff.mp h
      obtain ⟨digits, hdigits, hlength⟩ := hexDigits?_eq_some hlow
      obtain ⟨taken, htext, hsize⟩ := htakes
      -- the escape of the second half is taken as well
      have hboth : ∀ v : List Char, (Scanned.mk v (first.size + 6) rest).Takes cs := fun v => by
        refine ⟨taken ++ ('\\' :: 'u' :: digits), by simp [htext, hrest, hdigits], ?_⟩
        rw [byteSize_append, hsize]
        simp [hlength, show ('\\' : Char).utf8Size = 1 from rfl,
          show ('u' : Char).utf8Size = 1 from rfl]
      dsimp only at h
      split at h
      · cases h
        exact hboth _
      · cases h
        exact hboth _
    · cases h
      exact htakes
  · split at h
    · cases h
      exact htakes
    · cases h
      exact htakes

/-- Characters of one byte each, counted by their number. -/
theorem takes_of_utf8Size_eq_one {α : Type} (v : α) {front rest cs : List Char}
    (htext : cs = front ++ rest) (h : ∀ c ∈ front, c.utf8Size = 1) :
    (Scanned.mk v front.length (cs.drop front.length)).Takes cs :=
  ⟨front, by simp [htext], (byteSize_eq_length h).symm⟩

/-- One to three digits, the value of which is at most that of a byte. -/
theorem takes_octalEscape (cs : List Char) : (octalEscape cs).Takes cs := by
  -- whatever their number, the digits are a front part of the octal digits
  have htakes : ∀ n (v : List Char), (Scanned.mk v ((cs.takeWhile isOctal).take n).length
      (cs.drop ((cs.takeWhile isOctal).take n).length)).Takes cs := fun n v => by
    have htext : cs = (cs.takeWhile isOctal).take n ++
        ((cs.takeWhile isOctal).drop n ++ cs.dropWhile isOctal) := by
      rw [← List.append_assoc, List.take_append_drop, List.takeWhile_append_dropWhile]
    refine takes_of_utf8Size_eq_one v htext fun c hc => ?_
    exact utf8Size_of_isOctal (List.all_eq_true.mp List.all_takeWhile c (List.mem_of_mem_take hc))
  simp only [octalEscape]
  split
  · exact htakes 3 _
  · rw [List.take_take]
    exact htakes 2 _

/-- One case for each character that can stand behind a backslash. -/
theorem takes_escape? {octal : Bool} {cs : List Char} {s : Scanned (List Char)}
    (h : escape? octal cs = some s) : s.Takes cs := by
  unfold escape? at h
  split at h
  · cases h
  · cases h
    exact takes_front _ ['\r', '\n'] _ rfl
  · obtain ⟨⟨value, rest⟩, hhex, rfl⟩ := Option.map_eq_some_iff.mp h
    obtain ⟨digits, rfl, hsize⟩ := hexDigits?_eq_some hhex
    exact takes_front _ ('x' :: digits) rest (by simp [hsize, show ('x' : Char).utf8Size =
      1 from rfl])
  · obtain ⟨s, hs, rfl⟩ := Option.map_eq_some_iff.mp h
    exact (takes_unicodeEscape? hs).cons 'u' (by
      rw [show ('u' : Char).utf8Size = 1 from rfl]
      omega)
  · next c rest _ _ _ =>
    split at h
    · cases h
      exact takes_one _ c rest rfl
    · split at h
      · next hzero =>
        cases h
        simp only [Bool.and_eq_true, beq_iff_eq] at hzero
        rw [hzero.1]
        exact takes_one _ '0' rest rfl
      · split at h
        · cases h
        · split at h
          · cases h
            exact takes_octalEscape _
          · cases h
            exact takes_one _ c rest rfl

/-! ### Words

The value of a word is not its text where there are escapes, so the size is that of the text and not
that of the value. -/

/-- By induction on the bound: a character or an escape is taken, and then the others. -/
theorem takes_wordChars? {n : Nat} {admits : Char → Bool} {cs : List Char}
    {s : Scanned (List Char × Bool)} (h : wordChars? n admits cs = some s) : s.Takes cs := by
  fun_induction wordChars? n admits cs generalizing s with
  | case1 =>
    cases h
    exact takes_nothing _ _
  | case2 n admits rest ih =>
    obtain ⟨point, hpoint, h⟩ := Option.bind_eq_some_iff.mp h
    dsimp only at h
    split at h
    · obtain ⟨tail, htail, h⟩ := Option.bind_eq_some_iff.mp h
      cases h
      obtain ⟨taken, rfl, hsize⟩ := takes_codePoint? hpoint
      refine (ih point htail).after ('\\' :: 'u' :: taken) ?_
      simp [hsize, show ('\\' : Char).utf8Size = 1 from rfl, show ('u' : Char).utf8Size =
        1 from rfl]
      omega
    · cases h
  | case3 => cases h
  | case4 n admits c rest _ _ _ ih =>
    obtain ⟨tail, htail, h⟩ := Option.bind_eq_some_iff.mp h
    cases h
    exact (ih htail).cons c rfl
  | case5 =>
    cases h
    exact takes_nothing _ _
  | case6 =>
    cases h
    exact takes_nothing _ _

/-- A scanned word is not empty: a name that goes on takes at least one character. -/
theorem takes_scanWord? {bound : Nat} {cs : List Char} {s : Scanned (String × Bool)}
    (h : scanWord? bound cs = some s) : s.Takes cs ∧ 0 < s.size := by
  obtain ⟨word, hword, h⟩ := Option.bind_eq_some_iff.mp h
  have htakes := takes_wordChars? hword
  split at h
  · cases h
  · next hne =>
    cases h
    refine ⟨htakes, ?_⟩
    -- a first character was admitted, and it has a byte at least
    cases bound with
    | zero =>
      cases hword
      simp at hne
    | succ n =>
      unfold wordChars? at hword
      split at hword
      · obtain ⟨point, -, hword⟩ := Option.bind_eq_some_iff.mp hword
        dsimp only at hword
        split at hword
        · obtain ⟨tail, -, hword⟩ := Option.bind_eq_some_iff.mp hword
          cases hword
          exact Nat.lt_of_lt_of_le (by omega) (Nat.le_add_right (point.size + 2) tail.size)
        · cases hword
      · cases hword
      · next c _ _ _ =>
        split at hword
        · obtain ⟨tail, -, hword⟩ := Option.bind_eq_some_iff.mp hword
          cases hword
          exact Nat.lt_of_lt_of_le c.utf8Size_pos (Nat.le_add_right _ tail.size)
        · cases hword
          simp at hne
      · cases hword
        simp at hne

/-! ### Numbers

The scan of a number is composed of scans of digits, a fraction, an exponent and the mark of a big
number, each of which takes what it counts. -/

/-- Digits with separators between them. The flag tells whether a separator may come next. -/
theorem takes_scanDigits {isDigit : Char → Bool} (hone : ∀ c, isDigit c = true → c.utf8Size = 1)
    (afterDigit : Bool) (cs : List Char) : (scanDigits isDigit afterDigit cs).Takes cs := by
  fun_induction scanDigits isDigit afterDigit cs with
  | case1 => exact takes_nothing _ _
  | case2 _ c cs hc tail ih => exact ih.cons c (by rw [hone c hc]; exact Nat.add_comm ..)
  | case3 _ c cs _ hc tail ih =>
    simp only [Bool.and_eq_true, beq_iff_eq] at hc
    exact ih.cons c (by rw [hc.1.1]; exact Nat.add_comm ..)
  | case4 => exact takes_nothing _ _

theorem takes_digits (cs : List Char) : (scanDigits Char.isDigit false cs).Takes cs :=
  takes_scanDigits (fun _ => utf8Size_of_isDigit) false cs

/-- The sign of an exponent counts to it. -/
theorem takes_scanExponent? {cs : List Char} {s : Scanned Unit} (h : scanExponent? cs = some s) :
    s.Takes cs := by
  unfold scanExponent? at h
  split at h
  · next e rest =>
    split at h
    · next he =>
      split at h
      next signSize behind hsign =>
      have hletter : e.utf8Size = 1 := by
        simp only [Bool.or_eq_true, beq_iff_eq] at he
        rcases he with rfl | rfl <;> rfl
      have hfront : ∃ sign, rest = sign ++ behind ∧ byteSize sign = signSize := by
        split at hsign
        · cases hsign
          exact ⟨['+'], rfl, rfl⟩
        · cases hsign
          exact ⟨['-'], rfl, rfl⟩
        · cases hsign
          exact ⟨[], rfl, rfl⟩
      obtain ⟨sign, rfl, hsize⟩ := hfront
      dsimp only at h
      split at h
      · cases h
      · cases h
        exact (takes_digits behind).after (e :: sign) (by rw [byteSize_cons, hletter, hsize])
    · cases h
      exact takes_nothing _ _
  · cases h
    exact takes_nothing _ _

/-- The mark is taken if it is there. -/
theorem takes_bigintMark {digits : Scanned Unit} {cs : List Char} (h : digits.Takes cs) :
    (bigintMark digits).Takes cs := by
  obtain ⟨taken, htext, hsize⟩ := h
  unfold bigintMark
  split
  · next rest hrest => exact ⟨taken ++ ['n'], by simp [htext, hrest], by simp [hsize]; rfl⟩
  · exact ⟨taken, htext, hsize⟩

/-- A number with a letter for its base, from its zero on. -/
theorem takes_scanBased? {isDigit : Char → Bool} (hone : ∀ c, isDigit c = true → c.utf8Size = 1)
    {letter : Char} (hletter : letter.utf8Size = 1) {cs : List Char} {s : Scanned TokenKind}
    (h : scanBased? isDigit cs = some s) : s.Takes ('0' :: letter :: cs) := by
  unfold scanBased? at h
  dsimp only at h
  split at h
  · cases h
  · cases h
    refine takes_bigintMark ((takes_scanDigits hone false cs).after ['0', letter] ?_)
    rw [byteSize_cons, byteSize_cons, hletter, Nat.add_comm]
    rfl

/-- The whole part has been taken before. -/
theorem takes_scanFraction? {whole cs : List Char} {wholeSize : Nat}
    (hwhole : wholeSize = byteSize whole) {s : Scanned TokenKind}
    (h : scanFraction? wholeSize cs = some s) : s.Takes (whole ++ cs) := by
  obtain ⟨fraction, hfraction, h⟩ : ∃ fraction : Scanned Unit, fraction.Takes cs ∧
      ((scanExponent? fraction.rest).bind fun exponent =>
        some (Scanned.mk TokenKind.number (wholeSize + fraction.size + exponent.size)
          exponent.rest)) = some s := by
    refine ⟨_, ?_, h⟩
    split
    · next rest => exact (takes_digits rest).cons '.' (Nat.add_comm ..)
    · exact takes_nothing _ _
  obtain ⟨exponent, hexponent, h⟩ := Option.bind_eq_some_iff.mp h
  cases h
  obtain ⟨front, rfl, hfront⟩ := hfraction
  rw [← List.append_assoc]
  refine (takes_scanExponent? hexponent).after (whole ++ front) ?_
  rw [byteSize_append, hwhole, hfront]

theorem takes_scanDecimal? {cs : List Char} {s : Scanned TokenKind} (h : scanDecimal? cs = some s) :
    s.Takes cs := by
  obtain ⟨whole, htext, hsize⟩ := takes_digits cs
  unfold scanDecimal? at h
  dsimp only at h
  split at h
  · next rest hrest =>
    cases h
    exact ⟨whole ++ ['n'], by rw [htext, hrest]; simp, by rw [hsize, byteSize_append]; rfl⟩
  · rw [htext]
    exact takes_scanFraction? hsize h

/-- A zero before other digits: octal digits only, or the whole part of a decimal number. -/
theorem takes_scanZeroLed? {cs : List Char} {s : Scanned TokenKind}
    (h : scanZeroLed? cs = some s) : s.Takes cs := by
  have hsize : (cs.takeWhile Char.isDigit).length = byteSize (cs.takeWhile Char.isDigit) :=
    (byteSize_eq_length fun c hc =>
      utf8Size_of_isDigit (List.all_eq_true.mp List.all_takeWhile c hc)).symm
  unfold scanZeroLed? at h
  dsimp only at h
  rw [← List.takeWhile_append_dropWhile (p := Char.isDigit) (l := cs)]
  split at h
  · cases h
    exact takes_front _ _ _ hsize
  · exact takes_scanFraction? hsize h

theorem takes_scanAnyNumber? {cs : List Char} {s : Scanned TokenKind}
    (h : scanAnyNumber? cs = some s) : s.Takes cs := by
  have hhex : ∀ c, (hexDigit? c).isSome = true → c.utf8Size = 1 := fun c hc => by
    obtain ⟨n, hn⟩ := Option.isSome_iff_exists.mp hc
    exact utf8Size_of_hexDigit? hn
  have hbinary : ∀ c : Char, (c == '0' || c == '1') = true → c.utf8Size = 1 := fun c hc => by
    simp only [Bool.or_eq_true, beq_iff_eq] at hc
    rcases hc with rfl | rfl <;> rfl
  have hoctal : ∀ c, isOctal c = true → c.utf8Size = 1 := fun c => utf8Size_of_isOctal
  unfold scanAnyNumber? at h
  split at h
  · exact takes_scanBased? hhex rfl h
  · exact takes_scanBased? hhex rfl h
  · exact takes_scanBased? hoctal rfl h
  · exact takes_scanBased? hoctal rfl h
  · exact takes_scanBased? hbinary rfl h
  · exact takes_scanBased? hbinary rfl h
  · cases h
  · split at h
    · exact takes_scanZeroLed? h
    · exact takes_scanDecimal? h
  · exact takes_scanDecimal? h

/-- Of what was scanned, only what no name follows is a number. -/
theorem takes_scanNumber? {cs : List Char} {s : Scanned TokenKind} (h : scanNumber? cs = some s) :
    s.Takes cs :=
  takes_scanAnyNumber? (Option.filter_eq_some_iff.mp h).1

/-- A number is not empty: no digit may follow it, and a point at its start counts to it. -/
theorem size_scanNumber?_pos {c : Char} {cs : List Char} {s : Scanned TokenKind}
    (h : scanNumber? (c :: cs) = some s)
    (hc : (c.isDigit || (c == '.' && cs.head?.any Char.isDigit)) = true) : 0 < s.size := by
  obtain ⟨hany, hrest⟩ := Option.filter_eq_some_iff.mp h
  apply Nat.pos_of_ne_zero
  intro hzero
  obtain ⟨taken, htext, hsize⟩ := takes_scanNumber? h
  obtain rfl : taken = [] := eq_nil_of_byteSize_eq_zero (by omega)
  rw [List.nil_append] at htext
  rw [← htext] at hrest
  by_cases hdigit : c.isDigit = true
  · simp [isIdentifierPart_of_isDigit hdigit] at hrest
  · have hpoint : c = '.' := by
      simp only [hdigit, Bool.false_or, Bool.and_eq_true, beq_iff_eq] at hc
      exact hc.1
    subst hpoint
    have hfraction : scanFraction? 0 ('.' :: cs) = some s := hany
    obtain ⟨_, _, hs⟩ := Option.bind_eq_some_iff.mp hfraction
    cases hs
    simp at hzero

/-- The mark decides between the two kinds of numbers. -/
theorem bigintMark_value (digits : Scanned Unit) :
    (bigintMark digits).value = .number ∨ (bigintMark digits).value = .bigint := by
  unfold bigintMark
  split
  · exact .inr rfl
  · exact .inl rfl

/-- A number with a fraction or an exponent is no big one. -/
theorem scanFraction?_value {size : Nat} {cs : List Char} {s : Scanned TokenKind}
    (h : scanFraction? size cs = some s) : s.value = .number := by
  obtain ⟨_, _, h⟩ := Option.bind_eq_some_iff.mp h
  cases h
  rfl

/-- A scanned number is of one of the two kinds. -/
theorem scanNumber?_value {cs : List Char} {s : Scanned TokenKind} (h : scanNumber? cs = some s) :
    s.value = .number ∨ s.value = .bigint := by
  have hbased : ∀ {isDigit : Char → Bool} {cs : List Char}, scanBased? isDigit cs = some s →
      s.value = .number ∨ s.value = .bigint := by
    intro isDigit cs h
    unfold scanBased? at h
    dsimp only at h
    split at h
    · cases h
    · cases h
      exact bigintMark_value _
  have hdecimal : ∀ {cs : List Char}, scanDecimal? cs = some s →
      s.value = .number ∨ s.value = .bigint := by
    intro cs h
    unfold scanDecimal? at h
    dsimp only at h
    split at h
    · cases h
      exact .inr rfl
    · exact .inl (scanFraction?_value h)
  have hzeroLed : ∀ {cs : List Char}, scanZeroLed? cs = some s → s.value = .number := by
    intro cs h
    unfold scanZeroLed? at h
    dsimp only at h
    split at h
    · cases h
      rfl
    · exact scanFraction?_value h
  -- What follows a number does not change its kind.
  have h := (Option.filter_eq_some_iff.mp h).1
  unfold scanAnyNumber? at h
  split at h
  · exact hbased h
  · exact hbased h
  · exact hbased h
  · exact hbased h
  · exact hbased h
  · exact hbased h
  · cases h
  · split at h
    · exact .inl (hzeroLed h)
    · exact hdecimal h
  · exact hdecimal h

/-! ### Strings, templates, regular expressions

The three scans that look for their own end. What they take ends with the character that closes
them, which is what parts them from a name behind. -/

/-- Characters and escapes up to the quote, which is taken as well. -/
theorem takes_stringBody? {quote : Char} (hquote : quote.utf8Size = 1) {n : Nat} {cs : List Char}
    {s : Scanned (List Char)} (h : stringBody? quote n cs = some s) : s.Takes cs := by
  fun_induction stringBody? quote n cs generalizing s with
  | case1 => cases h
  | case2 => cases h
  | case3 n c cs hc =>
    cases h
    exact takes_one _ c cs (by rw [beq_iff_eq.mp hc, hquote])
  | case4 n c cs _ hc ih =>
    obtain ⟨escaped, hescaped, h⟩ := Option.bind_eq_some_iff.mp h
    obtain ⟨tail, htail, h⟩ := Option.bind_eq_some_iff.mp h
    cases h
    obtain ⟨taken, rfl, hsize⟩ := takes_escape? hescaped
    refine (ih escaped htail).after (c :: taken) ?_
    rw [byteSize_cons, beq_iff_eq.mp hc, hsize]
    rfl
  | case5 => cases h
  | case6 n c cs _ _ _ ih =>
    obtain ⟨tail, htail, h⟩ := Option.bind_eq_some_iff.mp h
    cases h
    exact (ih htail).cons c rfl

/-- What a string takes ends with its quote. -/
theorem closes_stringBody? {quote : Char} {n : Nat} {cs : List Char} {s : Scanned (List Char)}
    (h : stringBody? quote n cs = some s) : ∃ front, cs = front ++ quote :: s.rest := by
  fun_induction stringBody? quote n cs generalizing s with
  | case1 => cases h
  | case2 => cases h
  | case3 n c cs hc =>
    cases h
    exact ⟨[], by rw [beq_iff_eq.mp hc]; rfl⟩
  | case4 n c cs _ hc ih =>
    obtain ⟨escaped, hescaped, h⟩ := Option.bind_eq_some_iff.mp h
    obtain ⟨tail, htail, h⟩ := Option.bind_eq_some_iff.mp h
    cases h
    obtain ⟨taken, rfl, -⟩ := takes_escape? hescaped
    obtain ⟨front, hfront⟩ := ih escaped htail
    exact ⟨c :: taken ++ front, by simp [hfront]⟩
  | case5 => cases h
  | case6 n c cs _ _ _ ih =>
    obtain ⟨tail, htail, h⟩ := Option.bind_eq_some_iff.mp h
    cases h
    obtain ⟨front, hfront⟩ := ih htail
    exact ⟨c :: front, by simp [hfront]⟩

/-- What stands before the tail of a template is put in front of it. -/
theorem takes_extendTemplate {tail : Scanned TokenKind} {cs : List Char} (h : tail.Takes cs)
    (front : List Char) {size : Nat} (hsize : size = byteSize front) (proper : Bool) :
    (extendTemplate size proper tail).Takes (front ++ cs) := by
  unfold extendTemplate
  split
  · exact h.after front (by rw [hsize])
  · exact h.after front (by rw [hsize])

/-- A stretch of a template goes up to its quote or up to where an expression is embedded. -/
theorem takes_scanTemplate? {n : Nat} {cs : List Char} {s : Scanned TokenKind}
    (h : scanTemplate? n cs = some s) : s.Takes cs := by
  fun_induction scanTemplate? n cs generalizing s with
  | case1 => cases h
  | case2 => cases h
  | case3 n c cs hc =>
    cases h
    exact takes_one _ c cs (by rw [beq_iff_eq.mp hc]; rfl)
  | case4 n c cs _ hc escaped hescaped ih =>
    obtain ⟨tail, htail, rfl⟩ := Option.map_eq_some_iff.mp h
    obtain ⟨taken, rfl, hsize⟩ := takes_escape? hescaped
    exact takes_extendTemplate (ih htail) (c :: taken)
      (by rw [byteSize_cons, beq_iff_eq.mp hc, hsize]; rfl) true
  | case5 n c _ hc d cs _ ih =>
    obtain ⟨tail, htail, rfl⟩ := Option.map_eq_some_iff.mp h
    exact takes_extendTemplate (ih htail) [c, d]
      (by rw [byteSize_cons, byteSize_cons, beq_iff_eq.mp hc]; rfl) false
  | case6 => cases h
  | case7 n rest =>
    cases h
    exact takes_front _ ['$', '\x7b'] rest rfl
  | case8 n c cs _ _ _ ih =>
    obtain ⟨tail, htail, rfl⟩ := Option.map_eq_some_iff.mp h
    exact takes_extendTemplate (ih htail) [c] rfl true

/-- A scanned template is of that kind, whole or not. -/
theorem scanTemplate?_value {n : Nat} {cs : List Char} {s : Scanned TokenKind}
    (h : scanTemplate? n cs = some s) : ∃ whole proper, s.value = .template whole proper := by
  have hextend : ∀ {tail : Scanned TokenKind} {size : Nat} {proper : Bool},
      (∃ whole proper, tail.value = .template whole proper) →
      ∃ whole proper', (extendTemplate size proper tail).value = .template whole proper' := by
    rintro tail size proper ⟨whole, p, htail⟩
    exact ⟨whole, p && proper, by rw [extendTemplate, htail]⟩
  fun_induction scanTemplate? n cs generalizing s with
  | case1 => cases h
  | case2 => cases h
  | case3 =>
    cases h
    exact ⟨true, true, rfl⟩
  | case4 n c cs _ _ escaped _ ih =>
    obtain ⟨tail, htail, rfl⟩ := Option.map_eq_some_iff.mp h
    exact hextend (ih htail)
  | case5 n c _ _ d cs _ ih =>
    obtain ⟨tail, htail, rfl⟩ := Option.map_eq_some_iff.mp h
    exact hextend (ih htail)
  | case6 => cases h
  | case7 =>
    cases h
    exact ⟨false, true, rfl⟩
  | case8 n c cs _ _ _ ih =>
    obtain ⟨tail, htail, rfl⟩ := Option.map_eq_some_iff.mp h
    exact hextend (ih htail)

/-- A template is whole if its tail is. -/
theorem extendTemplate_value {size : Nat} {proper : Bool} {tail : Scanned TokenKind} {p : Bool}
    (h : (extendTemplate size proper tail).value = .template true p) :
    ∃ p', tail.value = .template true p' := by
  unfold extendTemplate at h
  split at h
  · next whole p' htail =>
    cases h
    exact ⟨p', htail⟩
  · exact ⟨p, h⟩

theorem extendTemplate_rest (size : Nat) (proper : Bool) (tail : Scanned TokenKind) :
    (extendTemplate size proper tail).rest = tail.rest := by
  unfold extendTemplate
  split <;> rfl

/-- What the last part of a template takes ends with its quote. -/
theorem closes_scanTemplate? {n : Nat} {cs : List Char} {s : Scanned TokenKind}
    (h : scanTemplate? n cs = some s) {proper : Bool} (hwhole : s.value = .template true proper) :
    ∃ front, cs = front ++ '\x60' :: s.rest := by
  fun_induction scanTemplate? n cs generalizing s proper with
  | case1 => cases h
  | case2 => cases h
  | case3 n c cs hc =>
    cases h
    exact ⟨[], by rw [beq_iff_eq.mp hc]; rfl⟩
  | case4 n c cs _ hc escaped hescaped ih =>
    obtain ⟨tail, htail, rfl⟩ := Option.map_eq_some_iff.mp h
    obtain ⟨taken, rfl, -⟩ := takes_escape? hescaped
    obtain ⟨p, hp⟩ := extendTemplate_value hwhole
    obtain ⟨front, hfront⟩ := ih htail hp
    exact ⟨c :: taken ++ front, by rw [extendTemplate_rest]; simp [hfront]⟩
  | case5 n c _ hc d cs _ ih =>
    obtain ⟨tail, htail, rfl⟩ := Option.map_eq_some_iff.mp h
    obtain ⟨p, hp⟩ := extendTemplate_value hwhole
    obtain ⟨front, hfront⟩ := ih htail hp
    exact ⟨c :: d :: front, by rw [extendTemplate_rest]; simp [hfront]⟩
  | case6 => cases h
  | case7 n rest =>
    cases h
    cases hwhole
  | case8 n c cs _ _ _ ih =>
    obtain ⟨tail, htail, rfl⟩ := Option.map_eq_some_iff.mp h
    obtain ⟨p, hp⟩ := extendTemplate_value hwhole
    obtain ⟨front, hfront⟩ := ih htail hp
    exact ⟨c :: front, by rw [extendTemplate_rest]; simp [hfront]⟩

/-- A slash inside of a class does not end the expression. -/
theorem takes_regexBody? {inClass : Bool} {cs : List Char} {s : Scanned Unit}
    (h : regexBody? inClass cs = some s) : s.Takes cs := by
  fun_induction regexBody? inClass cs generalizing s with
  | case1 => cases h
  | case2 => cases h
  | case3 inClass c cs _ ih =>
    obtain ⟨s, hs, rfl⟩ := Option.map_eq_some_iff.mp h
    refine (ih hs).after ['\\', c] ?_
    rw [byteSize_cons, byteSize_cons, byteSize_nil, show ('\\' : Char).utf8Size = 1 from rfl]
    omega
  | case4 => cases h
  | case5 inClass c cs _ _ hc =>
    cases h
    simp only [Bool.and_eq_true, beq_iff_eq] at hc
    exact takes_one _ c cs (by rw [hc.1]; rfl)
  | case6 _ c cs =>
    rename_i ih
    obtain ⟨s, hs, rfl⟩ := Option.map_eq_some_iff.mp h
    exact (ih hs).cons c (Nat.add_comm ..)

/-- The flags are taken with the body. -/
theorem takes_scanRegex? {cs : List Char} {s : Scanned Unit} (h : scanRegex? cs = some s) :
    s.Takes cs := by
  unfold scanRegex? at h
  obtain ⟨body, hbody, h⟩ := Option.bind_eq_some_iff.mp h
  dsimp only at h
  split at h
  · next hflags =>
    cases h
    obtain ⟨taken, htext, hsize⟩ := takes_regexBody? hbody
    have hone : ∀ c ∈ body.rest.takeWhile isIdentifierPart, c.utf8Size = 1 := fun c hc => by
      simp only [properFlags, Bool.and_eq_true, List.all_eq_true, decide_eq_true_eq] at hflags
      have hall : (['d', 'g', 'i', 'm', 's', 'u', 'v', 'y'].all (·.utf8Size == 1)) = true := rfl
      exact eq_of_beq (List.all_eq_true.mp hall c (hflags.1 c hc))
    rw [htext]
    refine (takes_of_utf8Size_eq_one ()
      (List.takeWhile_append_dropWhile (p := isIdentifierPart)).symm hone).after taken ?_
    rw [hsize]
  · cases h

/-! ### Punctuation

The longest punctuation is looked for first. All of it is spelled in ASCII, so that its size is its
length. -/

/-- How a punctuation is spelled. -/
def Punct.chars : Punct → List Char
  | .lcurly => ['{'] | .rcurly => ['}'] | .lparen => ['('] | .rparen => [')']
  | .lbrack => ['['] | .rbrack => [']'] | .dot => ['.'] | .ellipsis => ['.', '.', '.']
  | .semicolon => [';'] | .comma => [','] | .colon => [':'] | .arrow => ['=', '>']
  | .atSign => ['@'] | .question => ['?'] | .questionDot => ['?', '.'] | .coalesce => ['?', '?']
  | .lt => ['<'] | .gt => ['>'] | .ltEq => ['<', '='] | .gtEq => ['>', '=']
  | .eqEq => ['=', '='] | .notEq => ['!', '='] | .eqEqEq => ['=', '=', '=']
  | .notEqEq => ['!', '=', '='] | .plus => ['+'] | .minus => ['-'] | .star => ['*']
  | .slash => ['/'] | .percent => ['%'] | .power => ['*', '*'] | .plusPlus => ['+', '+']
  | .minusMinus => ['-', '-'] | .shl => ['<', '<'] | .shr => ['>', '>'] | .ushr => ['>', '>', '>']
  | .amp => ['&'] | .pipe => ['|'] | .caret => ['^'] | .bang => ['!'] | .tilde => ['~']
  | .ampAmp => ['&', '&'] | .pipePipe => ['|', '|'] | .eq => ['='] | .plusEq => ['+', '=']
  | .minusEq => ['-', '='] | .starEq => ['*', '='] | .slashEq => ['/', '=']
  | .percentEq => ['%', '='] | .powerEq => ['*', '*', '='] | .shlEq => ['<', '<', '=']
  | .shrEq => ['>', '>', '='] | .ushrEq => ['>', '>', '>', '='] | .ampEq => ['&', '=']
  | .pipeEq => ['|', '='] | .caretEq => ['^', '='] | .ampAmpEq => ['&', '&', '=']
  | .pipePipeEq => ['|', '|', '='] | .coalesceEq => ['?', '?', '=']

/-- Punctuation is found where it is spelled. -/
theorem scanPunct?_spells {cs : List Char} {p : Punct} {n : Nat}
    (h : scanPunct? cs = some (p, n)) : n = p.chars.length ∧ ∃ rest, cs = p.chars ++ rest := by
  unfold scanPunct? at h
  split at h
  · cases h
  · split at h
    all_goals try split at h
    all_goals try split at h
    all_goals cases h
    all_goals exact ⟨rfl, _, rfl⟩

/-- Punctuation is made of characters of one byte each. -/
theorem Punct.chars_ascii (p : Punct) :
    0 < p.chars.length ∧ p.chars.all (·.utf8Size == 1) = true := by
  cases p <;> decide

/-- What the later statements need of the spelling: it is not empty, takes one byte for each
character, and a brace is a single one. -/
theorem scanPunct?_eq_some {cs : List Char} {p : Punct} {n : Nat}
    (h : scanPunct? cs = some (p, n)) :
    0 < n ∧ (cs.take n).length = n ∧ (cs.take n).all (·.utf8Size == 1) = true ∧
      (p = .lcurly ∨ p = .rcurly → n = 1) := by
  obtain ⟨rfl, rest, rfl⟩ := scanPunct?_spells h
  obtain ⟨hpos, hone⟩ := p.chars_ascii
  rw [List.take_left]
  refine ⟨hpos, rfl, hone, ?_⟩
  rintro (rfl | rfl) <;> rfl

/-- A first part whose characters take one byte each, counted by their number. -/
theorem takes_drop {α : Type} (v : α) {cs : List Char} {n : Nat} (hlength : (cs.take n).length = n)
    (hone : (cs.take n).all (·.utf8Size == 1) = true) : (Scanned.mk v n (cs.drop n)).Takes cs := by
  have h := takes_of_utf8Size_eq_one v (List.take_append_drop n cs).symm fun c hc =>
    beq_iff_eq.mp (List.all_eq_true.mp hone c hc)
  rwa [hlength] at h

/-- The angles at the head of a text that starts with a character of one byte. -/
theorem takes_longestAngles {cs : List Char} (h : ∃ c rest, cs = c :: rest ∧ c.utf8Size = 1) :
    (Scanned.mk () (longestAngles cs).2 (cs.drop (longestAngles cs).2)).Takes cs ∧
      0 < (longestAngles cs).2 := by
  unfold longestAngles
  split
  · exact ⟨takes_drop _ rfl rfl, by decide⟩
  · exact ⟨takes_drop _ rfl rfl, by decide⟩
  · exact ⟨takes_drop _ rfl rfl, by decide⟩
  · exact ⟨takes_drop _ rfl rfl, by decide⟩
  · exact ⟨takes_drop _ rfl rfl, by decide⟩
  · obtain ⟨c, rest, rfl, hc⟩ := h
    exact ⟨takes_drop _ rfl (by simp [hc]), by decide⟩

/-! ### One token

What holds of a token by its kind alone is put together here, in three small statements that a
cursor carries on (`Cursor.On`). -/

/-- What is known about the size of a token of a kind: only what is none and the end of the text are
empty, and a brace takes one byte. -/
def TokenKind.Sized (kind : TokenKind) (size : Nat) : Prop :=
  match kind with
  | .invalid | .endOfText => True
  | .punct p => 0 < size ∧ (p = .lcurly ∨ p = .rcurly → size = 1)
  | _ => 0 < size

/-- The character opens and closes strings or templates. -/
def isQuote (c : Char) : Bool :=
  c == '\x22' || c == '\'' || c == '\x60'

/-- All three quotes are ASCII. -/
theorem utf8Size_of_isQuote {c : Char} (h : isQuote c = true) : c.utf8Size = 1 := by
  simp only [isQuote, Bool.or_eq_true, beq_iff_eq] at h
  rcases h with (rfl | rfl) | rfl <;> rfl

/-- A token that is punctuation starts with a character of one byte, and a string or a template with
a quote. -/
def TokenKind.Starts (kind : TokenKind) (cs : List Char) : Prop :=
  match kind with
  | .punct _ => ∃ c rest, cs = c :: rest ∧ c.utf8Size = 1
  | .string _ | .template _ _ => ∃ c rest, cs = c :: rest ∧ isQuote c = true
  | _ => True

/-- A string, and a template up to its end, leave what stands behind a quote. -/
def TokenKind.Closes (kind : TokenKind) (cs rest : List Char) : Prop :=
  match kind with
  | .string _ | .template true _ => ∃ front c, cs = front ++ c :: rest ∧ isQuote c = true
  | _ => True

/-- What is known of the token at the head of a text: it takes a front part of it, of a size that
fits its kind, and starts and ends as tokens of its kind do. -/
structure Scanned.Fits (s : Scanned TokenKind) (cs : List Char) : Prop where
  takes : s.Takes cs
  sized : s.value.Sized s.size
  starts : s.value.Starts cs
  closes : s.value.Closes cs s.rest

/-- By the first character, as the scan goes: a word, a number, a string, a template, a private name
or punctuation. -/
theorem fits_scanKind (bound : Nat) (cs : List Char) : (scanKind bound cs).Fits cs := by
  -- a text that starts no token is not passed over
  have horInvalid : ∀ found : Option (Scanned TokenKind), (∀ s, found = some s → s.Fits cs) →
      (found.getD ⟨.invalid, 0, cs⟩).Fits cs := by
    intro found hfound
    cases found with
    | none => exact ⟨takes_nothing _ _, trivial, trivial, trivial⟩
    | some s => exact hfound s rfl
  cases cs with
  | nil => exact ⟨takes_nothing _ _, trivial, trivial, trivial⟩
  | cons c rest =>
    simp only [scanKind]
    split
    · refine horInvalid _ fun s hs => ?_
      obtain ⟨w, hw, rfl⟩ := Option.map_eq_some_iff.mp hs
      obtain ⟨htakes, hpos⟩ := takes_scanWord? hw
      exact ⟨htakes, hpos, trivial, trivial⟩
    split
    · next hnumber =>
      refine horInvalid _ fun s hs => ?_
      have hpos := size_scanNumber?_pos hs hnumber
      rcases scanNumber?_value hs with h | h
      · exact ⟨takes_scanNumber? hs, by rw [h]; exact hpos, by rw [h]; trivial, by rw [h]; trivial⟩
      · exact ⟨takes_scanNumber? hs, by rw [h]; exact hpos, by rw [h]; trivial, by rw [h]; trivial⟩
    split
    · next hquote =>
      refine horInvalid _ fun s hs => ?_
      obtain ⟨body, hbody, rfl⟩ := Option.map_eq_some_iff.mp hs
      have hc : c.utf8Size = 1 ∧ isQuote c = true := by
        simp only [Bool.or_eq_true, beq_iff_eq] at hquote
        rcases hquote with rfl | rfl <;> exact ⟨rfl, rfl⟩
      obtain ⟨front, hfront⟩ := closes_stringBody? hbody
      exact ⟨(takes_stringBody? hc.1 hbody).cons c (by rw [hc.1, Nat.add_comm]), Nat.succ_pos _,
        ⟨c, rest, rfl, hc.2⟩, c :: front, c, by rw [hfront]; rfl, hc.2⟩
    split
    · next hquote =>
      refine horInvalid _ fun s hs => ?_
      obtain ⟨body, hbody, rfl⟩ := Option.map_eq_some_iff.mp hs
      obtain ⟨whole, proper, hvalue⟩ := scanTemplate?_value hbody
      have hc : isQuote c = true := by rw [beq_iff_eq.mp hquote]; rfl
      refine ⟨(takes_scanTemplate? hbody).cons c (by rw [beq_iff_eq.mp hquote, Nat.add_comm]; rfl),
        by rw [hvalue]; exact Nat.succ_pos _, by rw [hvalue]; exact ⟨c, rest, rfl, hc⟩, ?_⟩
      rw [hvalue]
      cases whole with
      | false => trivial
      | true =>
        obtain ⟨front, hfront⟩ := closes_scanTemplate? hbody hvalue
        exact ⟨c :: front, '\x60', by rw [hfront]; rfl, rfl⟩
    split
    · next hhash =>
      refine horInvalid _ fun s hs => ?_
      obtain ⟨w, hw, rfl⟩ := Option.map_eq_some_iff.mp hs
      refine ⟨(takes_scanWord? hw).1.cons c ?_, Nat.succ_pos _, trivial, trivial⟩
      rw [beq_iff_eq.mp hhash, Nat.add_comm]
      rfl
    · refine horInvalid _ fun s hs => ?_
      obtain ⟨⟨p, n⟩, hp, rfl⟩ := Option.map_eq_some_iff.mp hs
      obtain ⟨hpos, hlength, hone, hbrace⟩ := scanPunct?_eq_some hp
      refine ⟨takes_drop _ hlength hone, ⟨hpos, hbrace⟩, ⟨c, rest, rfl, ?_⟩, trivial⟩
      obtain ⟨n, rfl⟩ : ∃ m, n = m + 1 := ⟨n - 1, by omega⟩
      rw [List.take_succ_cons, List.all_cons, Bool.and_eq_true] at hone
      exact beq_iff_eq.mp hone.1

end VueSetup.Script
