import VueSetup.Proofs.Script.Scan
import VueSetup.Proofs.Text.Tag

/-!
# VueSetup.Proofs.Script.Ends

Where one token ends and the next can start.

Behind a name or a number no name starts right away, since it would have been read on. All other
tokens but `<`, `<<` and `/` end with a character that stands in no closing tag (`ends_scanKind`).
Blanks and comments part a name from what stands before them (`parted_skipBlanks`). A name itself
holds no `<`, neither as it is written nor as it is meant.
-/

namespace VueSetup.Script

open Text

/-! ### Characters

Whether a character can be part of a closing tag is asked of it alone (`isTagPart`). Names have no
`<`, and white space and quotes stand in no tag before its `>`. -/

/-- The text does not start with a name. -/
def StartsNoName (cs : List Char) : Prop :=
  ∀ c ∈ cs.head?, isIdentifierStart c = false

theorem startsNoName_nil : StartsNoName [] := by
  simp [StartsNoName]

theorem startsNoName_cons {c : Char} {cs : List Char} (h : isIdentifierStart c = false) :
    StartsNoName (c :: cs) := by
  simpa [StartsNoName] using h

/-- What starts a name can also go on with it. -/
theorem isIdentifierPart_of_start {c : Char} (h : isIdentifierStart c = true) :
    isIdentifierPart c = true := by
  unfold isIdentifierStart at h
  unfold isIdentifierPart
  by_cases hascii : c.toNat < 0x80
  · rw [if_pos hascii] at h ⊢
    simp only [Char.isAlphanum, Bool.or_eq_true] at h ⊢
    rcases h with (h | h) | h <;> simp [h]
  · rw [if_neg hascii] at h ⊢
    rw [h, Bool.true_or]

/-- A left angle is no part of a name. -/
theorem ne_lt_of_isIdentifierPart {c : Char} (h : isIdentifierPart c = true) : c ≠ '<' := by
  rintro rfl
  revert h
  decide

/-- No line ends inside of a name. -/
theorem isIdentifierStart_of_isLineEnd {c : Char} (h : isLineEnd c = true) :
    isIdentifierStart c = false := by
  simp only [isLineEnd, Bool.or_eq_true, beq_iff_eq] at h
  rcases h with ((rfl | rfl) | rfl) | rfl <;> decide +kernel

/-- The end of a line stands in no tag. -/
theorem isTagPart_of_isLineEnd {c : Char} (h : isLineEnd c = true) : isTagPart c = false := by
  simp only [isLineEnd, Bool.or_eq_true, beq_iff_eq] at h
  rcases h with ((rfl | rfl) | rfl) | rfl <;> decide

/-- White space stands in no tag before its `>`. -/
theorem isTagPart_of_isSpace {c : Char} (h : isSpace c = true) : isTagPart c = false := by
  by_cases hascii : c.toNat < 128
  · simp only [isSpace, Bool.or_eq_true, beq_iff_eq, Bool.and_eq_true, decide_eq_true_eq] at h
    rcases h with ((((((((((rfl | rfl) | rfl) | rfl) | rfl) | rfl) | rfl) | hrange) | rfl) | rfl) |
      rfl) | rfl
    all_goals first
      | decide
      | omega
  · exact Bool.eq_false_iff.mpr fun htag => hascii (toNat_lt_of_isTagPart htag)

/-! ### Blanks and comments

A comment ends with `*/` or with its line, white space with itself, and none of these stands in a
closing tag. So what is passed over ends outside of any, whatever stood before. -/

/-- Blanks and comments end outside of any closing tag, unless the text ends with them. Where
nothing is passed over, no line ends. -/
theorem parted_skipBlanks {n : Nat} (size : Nat) (line : Bool) {cs : List Char}
    (hn : cs.length < n) :
    ∃ passed, cs = passed ++ (skipBlanks n size line cs).rest ∧
      ((passed = [] ∧ (skipBlanks n size line cs).value = line ∧
          ∀ c ∈ cs.head?, isLineEnd c = false) ∨
        (∀ before, ¬ EndsInTag (before ++ passed)) ∨ (skipBlanks n size line cs).rest = []) := by
  fun_induction skipBlanks n size line cs with
  | case1 => cases hn
  | case2 => exact ⟨[], rfl, .inl ⟨rfl, rfl, by simp⟩⟩
  | case3 n size line rest body ih =>
    have hlength := (List.dropWhile_suffix (l := rest) fun c => !isLineEnd c).length_le
    simp only [List.length_cons] at hn
    obtain ⟨passed, htext, hparted⟩ := ih (by omega)
    refine ⟨'/' :: '/' :: body ++ passed, ?_, .inr ?_⟩
    · rw [List.append_assoc, ← htext]
      simp [body]
    rcases hparted with ⟨rfl, -, hhead⟩ | hparted | hparted
    · -- the comment ends where a line does, or with the text
      right
      rw [← List.nil_append (skipBlanks _ _ _ _).rest, ← htext, ← List.head?_eq_none_iff]
      cases hc : (rest.dropWhile fun c => !isLineEnd c).head? with
      | none => rfl
      | some c =>
        have hend := List.head?_dropWhile_not (fun c => !isLineEnd c) rest
        rw [hc] at hend
        simp [hhead c hc] at hend
    · exact .inl fun before => by simpa using hparted (before ++ '/' :: '/' :: body)
    · exact .inr hparted
  | case4 n size line rest body behind hsplit ih =>
    simp only [splitComment?_eq_some hsplit, List.length_cons, List.length_append] at hn
    obtain ⟨passed, htext, hparted⟩ := ih (by omega)
    refine ⟨'/' :: '*' :: (body ++ ['*', '/'] ++ passed), ?_, .inr ?_⟩
    · rw [splitComment?_eq_some hsplit, List.cons_append, List.cons_append,
        List.append_assoc _ passed, ← htext]
    rcases hparted with ⟨rfl, -, -⟩ | hparted | hparted
    · left
      intro before
      -- Behind `*/` a tag would have to have a `*` in it.
      have hslash : Sealed ['/'] := sealed_of_lt_notMem (by decide)
      have hends := not_endsInTag_append
        (not_endsInTag_append_singleton (before ++ '/' :: '*' :: body) (c := '*') (by decide))
        hslash.ends
      simpa using hends
    · exact .inl fun before => by simpa using hparted (before ++ '/' :: '*' :: body ++ ['*', '/'])
    · exact .inr hparted
  | case5 => exact ⟨[], rfl, .inl ⟨rfl, rfl, by simp; decide⟩⟩
  | case6 n size line c rest _ _ hc ih =>
    obtain ⟨passed, htext, hparted⟩ := ih (Nat.lt_of_succ_lt_succ hn)
    refine ⟨c :: passed, by rw [List.cons_append, ← htext], .inr ?_⟩
    rcases hparted with ⟨rfl, -, -⟩ | hparted | hparted
    · exact .inl fun before => not_endsInTag_append_singleton before (isTagPart_of_isLineEnd hc)
    · exact .inl fun before => by simpa using hparted (before ++ [c])
    · exact .inr hparted
  | case7 n size line c rest _ _ _ hc ih =>
    obtain ⟨passed, htext, hparted⟩ := ih (Nat.lt_of_succ_lt_succ hn)
    refine ⟨c :: passed, by rw [List.cons_append, ← htext], .inr ?_⟩
    rcases hparted with ⟨rfl, -, -⟩ | hparted | hparted
    · exact .inl fun before => not_endsInTag_append_singleton before (isTagPart_of_isSpace hc)
    · exact .inl fun before => by simpa using hparted (before ++ [c])
    · exact .inr hparted
  | case8 n size line c rest _ _ hc => exact ⟨[], rfl, .inl ⟨rfl, rfl, by simpa using hc⟩⟩

/-! ### Words

A word is made of characters and escapes. It is followed along the scan, since the name that it
stands for is not the text that it is written with. -/

/-- The text is what was taken and then the rest, and no `<` was taken. -/
def TakesNoAngle (cs rest : List Char) : Prop :=
  ∃ taken, cs = taken ++ rest ∧ '<' ∉ taken

theorem TakesNoAngle.refl (cs : List Char) : TakesNoAngle cs cs :=
  ⟨[], rfl, by simp⟩

theorem TakesNoAngle.cons {cs rest : List Char} (h : TakesNoAngle cs rest) {c : Char}
    (hc : c ≠ '<') :
    TakesNoAngle (c :: cs) rest := by
  obtain ⟨taken, rfl, hlt⟩ := h
  exact ⟨c :: taken, rfl, by simp [hlt, hc.symm]⟩

/-- What was taken in two parts. -/
theorem TakesNoAngle.trans {cs middle rest : List Char} (h : TakesNoAngle cs middle)
    (h' : TakesNoAngle middle rest) : TakesNoAngle cs rest := by
  obtain ⟨taken, rfl, hlt⟩ := h
  obtain ⟨taken', rfl, hlt'⟩ := h'
  exact ⟨taken ++ taken', by simp, by simp [hlt, hlt']⟩

/-- Digits of an escape are no angles. -/
theorem ne_lt_of_hexDigit? {c : Char} {n : Nat} (h : hexDigit? c = some n) : c ≠ '<' := by
  rintro rfl
  cases h

theorem takesNoAngle_hexDigits? {n value : Nat} {cs : List Char} {found : Nat × List Char}
    (h : hexDigits? n value cs = some found) : TakesNoAngle cs found.2 := by
  fun_induction hexDigits? n value cs with
  | case1 =>
    cases h
    exact .refl _
  | case2 n value c cs ih =>
    obtain ⟨digit, hdigit, h⟩ := Option.bind_eq_some_iff.mp h
    exact (ih digit h).cons (ne_lt_of_hexDigit? hdigit)
  | case3 => cases h

/-- A code point in braces, with as many digits as it likes. -/
theorem takesNoAngle_bracedHex? {value size : Nat} {cs : List Char} {s : Scanned Nat}
    (h : bracedHex? value size cs = some s) : TakesNoAngle cs s.rest := by
  fun_induction bracedHex? value size cs with
  | case1 => cases h
  | case2 => cases h
  | case3 value size c cs hc _ =>
    cases h
    exact (TakesNoAngle.refl cs).cons (by rw [beq_iff_eq.mp hc]; decide)
  | case4 value size c cs hc ih =>
    obtain ⟨digit, hdigit, h⟩ := Option.bind_eq_some_iff.mp h
    dsimp only at h
    split at h
    · exact (ih digit h).cons (ne_lt_of_hexDigit? hdigit)
    · cases h

/-- A code point of four digits, or in braces. -/
theorem takesNoAngle_codePoint? {cs : List Char} {s : Scanned Nat} (h : codePoint? cs = some s) :
    TakesNoAngle cs s.rest := by
  unfold codePoint? at h
  split at h
  · obtain ⟨s, hs, rfl⟩ := Option.map_eq_some_iff.mp h
    exact (takesNoAngle_bracedHex? hs).cons (by decide)
  · obtain ⟨⟨value, rest⟩, hs, rfl⟩ := Option.map_eq_some_iff.mp h
    exact takesNoAngle_hexDigits? hs

/-- A word holds no `<`, and no name starts behind it unless the bound is reached. -/
theorem ends_wordChars? {n : Nat} {admits : Char → Bool} {cs : List Char}
    {s : Scanned (List Char × Bool)} (h : wordChars? n admits cs = some s) (hn : cs.length < n)
    (hstart : ∀ c, isIdentifierStart c = true → admits c = true) (hlt : admits '<' = false) :
    '<' ∉ s.value.1 ∧ StartsNoName s.rest ∧ TakesNoAngle cs s.rest := by
  have hadmits : ∀ {c}, admits c = true → c ≠ '<' := by
    rintro _ hc rfl
    rw [hlt] at hc
    cases hc
  fun_induction wordChars? n admits cs generalizing s with
  | case1 => cases hn
  | case2 n admits rest ih =>
    obtain ⟨point, hpoint, h⟩ := Option.bind_eq_some_iff.mp h
    dsimp only at h
    split at h
    · next hc =>
      obtain ⟨tail, htail, h⟩ := Option.bind_eq_some_iff.mp h
      cases h
      have htaken := takesNoAngle_codePoint? hpoint
      have hlength : point.rest.length < n := by
        obtain ⟨taken, rfl, -⟩ := htaken
        simp at hn
        omega
      -- Behind the first character of a name more characters are admitted, none of which is `<`.
      obtain ⟨hname, hrest, hword⟩ := ih point htail hlength
        (fun _ => isIdentifierPart_of_start) (by decide) fun hc => ne_lt_of_isIdentifierPart hc
      refine ⟨by simp [hname, (hadmits hc).symm], hrest, ?_⟩
      exact ((htaken.trans hword).cons (by decide)).cons (by decide)
    · cases h
  | case3 => cases h
  | case4 n admits c rest _ _ hc ih =>
    obtain ⟨tail, htail, h⟩ := Option.bind_eq_some_iff.mp h
    cases h
    obtain ⟨hname, hrest, hword⟩ := ih htail (Nat.lt_of_succ_lt_succ hn)
      (fun _ => isIdentifierPart_of_start) (by decide) fun hc => ne_lt_of_isIdentifierPart hc
    exact ⟨by simp [hname, (hadmits hc).symm], hrest, hword.cons (hadmits hc)⟩
  | case5 n admits c rest _ _ hc =>
    cases h
    refine ⟨by simp, startsNoName_cons ?_, .refl _⟩
    exact Bool.eq_false_iff.mpr fun h => hc (hstart c h)
  | case6 =>
    cases h
    exact ⟨by simp, startsNoName_nil, .refl _⟩

/-- A word without an escape starts with a character that can start a name. -/
theorem starts_wordChars? {n : Nat} {admits : Char → Bool} {cs : List Char}
    {s : Scanned (List Char × Bool)} (h : wordChars? n admits cs = some s) (hword : s.value.1 ≠ [])
    (hplain : s.value.2 = false) : ∃ c ∈ cs.head?, admits c = true := by
  unfold wordChars? at h
  split at h
  · cases h
    exact absurd rfl hword
  split at h
  · obtain ⟨point, -, h⟩ := Option.bind_eq_some_iff.mp h
    dsimp only at h
    split at h
    · obtain ⟨tail, -, h⟩ := Option.bind_eq_some_iff.mp h
      cases h
      cases hplain
    · cases h
  · cases h
  · next c rest _ _ =>
    split at h
    · next hc => exact ⟨c, rfl, hc⟩
    · cases h
      exact absurd rfl hword
  · cases h
    exact absurd rfl hword

/-- What is known about how a word is spelled: neither the text nor the name that it stands for
holds a `<`, it starts like a name unless it starts with an escape, and no name starts behind it. -/
structure WordSpelled (name : String) (escaped : Bool) (cs rest : List Char) : Prop where
  name : '<' ∉ name.toList
  starts : escaped = false → ∃ c ∈ cs.head?, isIdentifierStart c = true
  stops : StartsNoName rest
  plain : TakesNoAngle cs rest

/-- The scan of a word, with a number sign before it or not. -/
theorem wordSpelled_scanWord? {bound : Nat} {cs : List Char} {s : Scanned (String × Bool)}
    (h : scanWord? bound cs = some s) (hbound : cs.length < bound) :
    WordSpelled s.value.1 s.value.2 cs s.rest := by
  obtain ⟨word, hword, h⟩ := Option.bind_eq_some_iff.mp h
  split at h
  · cases h
  · next hne =>
    cases h
    obtain ⟨hname, hstops, hplain⟩ := ends_wordChars? hword hbound (fun _ h => h) (by decide)
    exact ⟨by simpa using hname, starts_wordChars? hword (by simpa using hne), hstops, hplain⟩

/-! ### Other tokens

Numbers, private names and regular expressions are read as far as they go. Of punctuation the last
character counts. -/

/-- The text ends with a character that stands in no closing tag before its `>`. -/
def EndsNoTag (cs rest : List Char) : Prop :=
  ∃ front c, cs = front ++ c :: rest ∧ isTagPart c = false

/-- No number is read if a name could follow: `3in x` is none. -/
theorem startsNoName_scanNumber? {cs : List Char} {s : Scanned TokenKind}
    (h : scanNumber? cs = some s) : StartsNoName s.rest := by
  have hrest := (Option.filter_eq_some_iff.mp h).2
  intro c hc
  rw [hc] at hrest
  simp at hrest
  exact Bool.eq_false_iff.mpr fun h => by simp [isIdentifierPart_of_start h] at hrest

/-- Punctuation that ends with a character of a closing tag. -/
def Punct.isOpen (p : Punct) : Bool :=
  p == .lt || p == .shl || p == .slash

/-- A first part that ends with a character of no tag, counted by its characters. -/
theorem endsNoTag_drop {cs : List Char} {n : Nat}
    (h : (cs.take n).getLast?.any (!isTagPart ·) = true) : EndsNoTag cs (cs.drop n) := by
  obtain ⟨c, hc, hpart⟩ := (Option.any_eq_true _ _).mp h
  obtain ⟨front, hfront⟩ := List.getLast?_eq_some_iff.mp hc
  refine ⟨front, c, ?_, by simpa using hpart⟩
  rw [← List.singleton_append, ← List.append_assoc, ← hfront, List.take_append_drop]

/-- By the last character of each punctuation. -/
theorem endsNoTag_scanPunct? {cs : List Char} {p : Punct} {n : Nat}
    (h : scanPunct? cs = some (p, n)) (hp : p.isOpen = false) : EndsNoTag cs (cs.drop n) := by
  refine endsNoTag_drop ?_
  obtain ⟨rfl, rest, rfl⟩ := scanPunct?_spells h
  rw [List.take_left]
  cases p <;> first
    | rfl
    | cases hp

/-- An operator of right angles ends with one of them or with an equals sign. -/
theorem endsNoTag_longestAngles {cs : List Char} (h : cs.head? = some '>') :
    EndsNoTag cs (cs.drop (longestAngles cs).2) := by
  refine endsNoTag_drop ?_
  unfold longestAngles
  split
  case h_6 =>
    obtain ⟨rest, rfl⟩ := List.head?_eq_some_iff.mp h
    rfl
  all_goals rfl

/-- Letters behind a regular expression are its flags, which are all read. -/
theorem startsNoName_scanRegex? {cs : List Char} {s : Scanned Unit} (h : scanRegex? cs = some s) :
    StartsNoName s.rest := by
  unfold scanRegex? at h
  obtain ⟨body, -, h⟩ := Option.bind_eq_some_iff.mp h
  dsimp only at h
  split at h
  · cases h
    intro c hc
    have hdrop : body.rest.drop (body.rest.takeWhile isIdentifierPart).length =
        body.rest.dropWhile isIdentifierPart := by
      have htext := List.takeWhile_append_dropWhile (p := isIdentifierPart) (l := body.rest)
      exact (congrArg (List.drop _) htext.symm).trans (List.drop_left' rfl)
    rw [hdrop] at hc
    have hnot := List.head?_dropWhile_not isIdentifierPart body.rest
    rw [hc] at hnot
    exact Bool.eq_false_iff.mpr fun h => by simp [isIdentifierPart_of_start h] at hnot
  · cases h

/-! ### One token

The statements about the scans, put together by the kind of the token. A cursor keeps them for its
token (`Cursor.On.ends`). -/

/-- What is known about how punctuation is spelled: it is no name, it ends outside of any tag unless
it is `<`, `<<` or `/`, and right angles are. -/
structure Punct.Spelled (p : Punct) (cs rest : List Char) : Prop where
  starts : StartsNoName cs
  ends : p.isOpen = false → EndsNoTag cs rest
  angle : p = .gt → cs.head? = some '>'

/-- What is known about how a token of a kind is spelled. Numbers go on as far as they can. -/
def TokenKind.Ends (kind : TokenKind) (cs rest : List Char) : Prop :=
  match kind with
  | .word name escaped => WordSpelled name escaped cs rest
  | .privateName _ | .number | .bigint => StartsNoName rest
  | .punct p => p.Spelled cs rest
  | .endOfText => StartsNoName cs
  | _ => True

/-- What each kind of token guarantees is what its scan does. -/
theorem ends_scanKind {bound : Nat} {cs : List Char} (hbound : cs.length < bound) :
    (scanKind bound cs).value.Ends cs (scanKind bound cs).rest := by
  -- a text that starts no token does not end either
  have horInvalid : ∀ found : Option (Scanned TokenKind),
      (∀ s, found = some s → s.value.Ends cs s.rest) →
      (found.getD ⟨.invalid, 0, cs⟩).value.Ends cs (found.getD ⟨.invalid, 0, cs⟩).rest := by
    intro found hfound
    cases found with
    | none => trivial
    | some s => exact hfound s rfl
  cases cs with
  | nil => exact startsNoName_nil
  | cons c rest =>
    simp only [scanKind]
    split
    · refine horInvalid _ fun s hs => ?_
      obtain ⟨w, hw, rfl⟩ := Option.map_eq_some_iff.mp hs
      exact wordSpelled_scanWord? hw hbound
    next hword =>
    split
    · refine horInvalid _ fun s hs => ?_
      have hrest := startsNoName_scanNumber? hs
      rcases scanNumber?_value hs with h | h
      · rw [h]
        exact hrest
      · rw [h]
        exact hrest
    split
    · refine horInvalid _ fun s hs => ?_
      obtain ⟨body, -, rfl⟩ := Option.map_eq_some_iff.mp hs
      trivial
    split
    · refine horInvalid _ fun s hs => ?_
      obtain ⟨body, hbody, rfl⟩ := Option.map_eq_some_iff.mp hs
      obtain ⟨whole, proper, hvalue⟩ := scanTemplate?_value hbody
      rw [hvalue]
      trivial
    split
    · refine horInvalid _ fun s hs => ?_
      obtain ⟨w, hw, rfl⟩ := Option.map_eq_some_iff.mp hs
      exact (wordSpelled_scanWord? hw (Nat.lt_of_succ_lt hbound)).stops
    · refine horInvalid _ fun s hs => ?_
      obtain ⟨⟨p, n⟩, hp, rfl⟩ := Option.map_eq_some_iff.mp hs
      have hstart : isIdentifierStart c = false :=
        (Bool.or_eq_false_iff.mp (Bool.eq_false_iff.mpr hword)).1
      refine ⟨startsNoName_cons hstart, endsNoTag_scanPunct? hp, fun hgt => ?_⟩
      obtain rfl : p = .gt := hgt
      obtain ⟨-, rest, hrest⟩ := scanPunct?_spells hp
      rw [hrest]
      rfl

end VueSetup.Script
