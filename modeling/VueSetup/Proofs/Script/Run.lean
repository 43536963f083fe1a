import VueSetup.Proofs.Script.Gap
import VueSetup.Proofs.Script.Parse

/-!
# VueSetup.Proofs.Script.Run

Running a parser on a text whose tokens are known.

The simp lemmas of the first part compute the outcome of a `do` block at a cursor step by step. The
second part says which token a cursor is on when its text is given: a name, a quoted string or some
punctuation, behind blanks (`Cursor.scanAt_gap`).
-/

namespace VueSetup.Script

open Text

namespace Parse

variable {α β : Type} {ctx : Context} {c : Cursor}

/-! ### Outcomes of steps

Where the statements about `Ensures` ask something of an outcome, these tell the outcome itself, and
that there is one. They are needed to show that a text which is written out is read, as opposed to
what holds if it is. -/

/-- The first step makes the value and the cursor that the second one starts with. -/
@[simp ↓] theorem run_bind (p : Parse α) (f : α → Parse β) :
    (p >>= f) ctx c = (p ctx c).bind fun x => f x.1 ctx x.2 := rfl

/-- Make the first step of a block, the outcome of which is known. -/
theorem run_step {p : Parse α} {a : α} {c₁ : Cursor} (h : p ctx c = some (a, c₁))
    (f : α → Parse β) : (p >>= f) ctx c = f a ctx c₁ := by
  rw [run_bind, h, Option.bind_some]

@[simp ↓] theorem run_pure (a : α) : (pure a : Parse α) ctx c = some (a, c) := rfl

@[simp ↓] theorem run_map (f : α → β) (p : Parse α) :
    (f <$> p) ctx c = (p ctx c).map fun x => (f x.1, x.2) := by
  rw [map_eq_pure_bind, run_bind]
  cases p ctx c <;> rfl

@[simp ↓] theorem run_discard (p : Parse α) :
    (discard p : Parse PUnit) ctx c = (p ctx c).map fun x => (⟨⟩, x.2) :=
  run_map _ p

@[simp ↓] theorem run_ite {P : Prop} [Decidable P] (p q : Parse α) :
    (if P then p else q) ctx c = if P then p ctx c else q ctx c := by
  by_cases h : P
  · simp [h]
  · simp [h]

@[simp ↓] theorem run_reject : (reject : Parse α) ctx c = none := rfl

@[simp ↓] theorem run_within (change : Context → Context) (p : Parse α) :
    within change p ctx c = p (change ctx) c := rfl

@[simp ↓] theorem run_read : (read : Parse Context) ctx c = some (ctx, c) := rfl

@[simp ↓] theorem run_get : (get : Parse Cursor) ctx c = some (c, c) := rfl

@[simp ↓] theorem run_token : token ctx c = some (c.token, c) := rfl

@[simp ↓] theorem run_peek : peek ctx c = some (c.next.token, c) := rfl

@[simp ↓] theorem run_peekSecond : peekSecond ctx c = some (c.next.next.token, c) := rfl

@[simp ↓] theorem run_peekThird : peekThird ctx c = some (c.next.next.next.token, c) := rfl

@[simp ↓] theorem run_start : start ctx c = some (c.token.start, c) := rfl

@[simp ↓] theorem run_spanFrom (n : Nat) : spanFrom n ctx c = some (⟨n, c.lastStop⟩, c) := rfl

@[simp ↓] theorem run_bound : bound ctx c = some (c.bound, c) := rfl

@[simp ↓] theorem run_advance : advance ctx c = some ((), c.next) := rfl

@[simp ↓] theorem run_hasTypes : hasTypes ctx c = some (ctx.dialect.types, c) := rfl

@[simp ↓] theorem run_at? (p : Punct) : at? p ctx c = some (c.token.isPunct p, c) := rfl

@[simp ↓] theorem run_atWord? (w : String) : atWord? w ctx c = some (c.token.isWord w, c) := rfl

@[simp ↓] theorem run_require (condition : Bool) :
    require condition ctx c = if condition then some ((), c) else none := by
  cases condition <;> rfl

@[simp ↓] theorem run_eat? (p : Punct) : eat? p ctx c =
    if c.token.isPunct p then some (true, c.next) else some (false, c) := by
  simp [eat?]

@[simp ↓] theorem run_eatWord? (w : String) : eatWord? w ctx c =
    if c.token.isWord w then some (true, c.next) else some (false, c) := by
  simp [eatWord?]

@[simp ↓] theorem run_expect (p : Punct) : expect p ctx c =
    if c.token.isPunct p then some ((), c.next) else none := by
  by_cases h : c.token.isPunct p = true
  · simp [expect, h]
  · simp [expect, h]

@[simp ↓] theorem run_expectWord (w : String) : expectWord w ctx c =
    if c.token.isWord w then some ((), c.next) else none := by
  by_cases h : c.token.isWord w = true
  · simp [expectWord, h]
  · simp [expectWord, h]

/-- Not a simp lemma, since the parser that is tried should be run first. -/
theorem run_attempt (p : Parse α) :
    attempt p ctx c = ((p ctx c).map fun x => (some x.1, x.2)).or (some (none, c)) := by
  show (Option.bind (p ctx c) _ <|> _) = _
  cases p ctx c with
  | none => rfl
  | some x => rfl

/-- What is only looked through gives its outcome and moves nothing. -/
@[simp ↓] theorem run_ahead (p : Parse α) :
    ahead p ctx c = some ((p ctx c).map Prod.fst, c) := by
  show (attempt p ctx c).bind (fun x => some (x.1, c)) = _
  rw [run_attempt]
  cases p ctx c <;> rfl

@[simp ↓] theorem run_sees (p : Parse Bool) :
    sees p ctx c = some (((p ctx c).map Prod.fst).getD false, c) := by
  simp [sees]

end Parse

/-! ### Blanks before a token

A gap of blanks is passed over as a whole if no blank and no comment follows it. The texts that are
run here have no comments of their own. -/

/-- The text starts with a character that is neither a blank nor a slash. -/
def StartsSolid (cs : List Char) : Prop :=
  ∀ c ∈ cs.head?, isGapChar c = false ∧ c ≠ '/'

/-- The first character decides. -/
theorem startsSolid_cons {c : Char} (hc : isGapChar c = false ∧ c ≠ '/') (cs : List Char) :
    StartsSolid (c :: cs) := by
  simpa [StartsSolid] using hc

/-- Where no blank stands nothing is passed over. -/
theorem skipBlanks_of_startsSolid {cs : List Char} (h : StartsSolid cs) (n size : Nat)
    (line : Bool) :
    skipBlanks n size line cs = ⟨line, size, cs⟩ := by
  fun_cases skipBlanks n size line cs with
  | case1 => rfl
  | case2 => rfl
  | case3 => exact absurd rfl (h _ rfl).2
  | case4 => exact absurd rfl (h _ rfl).2
  | case5 => rfl
  | case6 => simp_all [StartsSolid, isGapChar]
  | case7 => simp_all [StartsSolid, isGapChar]
  | case8 => rfl

/-- Blanks are passed over up to what is none. -/
theorem skipBlanks_gap {gap rest : List Char} (hgap : ∀ c ∈ gap, isGapChar c = true)
    (hrest : StartsSolid rest) {n : Nat} (hn : gap.length ≤ n) (size : Nat) (line : Bool) :
    skipBlanks n size line (gap ++ rest) =
      ⟨line || gap.any isLineEnd, size + byteSize gap, rest⟩ := by
  induction gap generalizing n size line with
  | nil => simpa using skipBlanks_of_startsSolid hrest n size line
  | cons c gap ih =>
    obtain ⟨hc, hgap⟩ := List.forall_mem_cons.mp hgap
    have hslash : c ≠ '/' := by
      intro heq
      simp [heq, isGapChar_slash] at hc
    cases n with
    | zero => cases hn
    | succ n =>
      rw [List.cons_append, skipBlanks.eq_5 _ _ _ _ _ (fun _ h => absurd h hslash)
        (fun _ h => absurd h hslash)]
      have hn : gap.length ≤ n := Nat.le_of_succ_le_succ hn
      by_cases hend : isLineEnd c = true
      · simp [hend, ih hgap hn, Nat.add_assoc]
      · have hspace : isSpace c = true := by simpa [isGapChar, hend] using hc
        simp [hend, hspace, ih hgap hn, Nat.add_assoc]

/-! ### The token at the head of a text

A name is read up to the first character that is no part of one, so the rest of the text must not go
on with it. The other tokens are scanned by their first characters, where `rfl` is enough. -/

/-- The text goes on with nothing that could belong to a name before it. -/
def EndsName (cs : List Char) : Prop :=
  ∀ c ∈ cs.head?, isIdentifierPart c = false ∧ c ≠ '\\'

/-- The first character decides here, too. -/
theorem endsName_cons {c : Char} (hc : isIdentifierPart c = false ∧ c ≠ '\\') (cs : List Char) :
    EndsName (c :: cs) := by
  simpa [EndsName] using hc

/-- The characters make up a name. -/
def isNameChars : List Char → Bool
  | [] => false
  | c :: cs => isIdentifierStart c && cs.all isIdentifierPart

theorem ne_backslash_of_isIdentifierPart {c : Char} (h : isIdentifierPart c = true) : c ≠ '\\' := by
  intro heq
  rw [heq] at h
  revert h
  decide

/-- A character that passes is the first one of a name. -/
theorem wordChars?_cons {c : Char} (hc : isIdentifierPart c = true) {admits : Char → Bool}
    (hadmits : admits c = true) (n : Nat) (cs : List Char) :
    wordChars? (n + 1) admits (c :: cs) = (wordChars? n isIdentifierPart cs).map fun tail =>
      ⟨(c :: tail.value.1, tail.value.2), c.utf8Size + tail.size, tail.rest⟩ := by
  have hslash := ne_backslash_of_isIdentifierPart hc
  rw [wordChars?.eq_4 _ _ _ _ (fun _ h _ => hslash h) (fun h => hslash h), if_pos hadmits]
  cases wordChars? n isIdentifierPart cs <;> rfl

/-- The whole name is taken, character by character, and no escape is among them. -/
theorem wordChars?_name {name rest : List Char} (hrest : EndsName rest)
    (hname : ∀ c ∈ name, isIdentifierPart c = true) {n : Nat} (hn : name.length ≤ n) :
    wordChars? n isIdentifierPart (name ++ rest) = some ⟨(name, false), byteSize name, rest⟩ := by
  induction name generalizing n with
  | nil =>
    cases n with
    | zero => rfl
    | succ n =>
      cases rest with
      | nil => rfl
      | cons c rest =>
        obtain ⟨hpart, hslash⟩ := hrest c rfl
        rw [List.nil_append, wordChars?.eq_4 _ _ _ _ (fun _ h _ => hslash h) (fun h => hslash h)]
        simp [hpart]
  | cons c name ih =>
    obtain ⟨hc, hname⟩ := List.forall_mem_cons.mp hname
    cases n with
    | zero => cases hn
    | succ n =>
      rw [List.cons_append, wordChars?_cons hc hc, ih hname (Nat.le_of_succ_le_succ hn)]
      rfl

/-- No blank can start a name. -/
theorem isIdentifierStart_of_isSpace {c : Char} (h : isSpace c = true) :
    isIdentifierStart c = false := by
  simp only [isSpace, Bool.or_eq_true, beq_iff_eq, Bool.and_eq_true, decide_eq_true_eq] at h
  rcases h with ((((((((((rfl | rfl) | rfl) | rfl) | rfl) | rfl) | rfl) | hrange) | rfl) | rfl) |
    rfl) | rfl
  case inl.inl.inl.inl.inr =>
    have hranges : ∀ k < 12, inRanges identifierStartRanges (0x2000 + k) = false := by
      decide +kernel
    obtain ⟨k, hk⟩ : ∃ k, c.toNat = 0x2000 + k := ⟨c.toNat - 0x2000, by omega⟩
    rw [isIdentifierStart, if_neg (by omega), hk]
    exact hranges k (by omega)
  all_goals decide +kernel

/-- A name is no blank and no comment. -/
theorem startsSolid_of_isIdentifierStart {c : Char} (h : isIdentifierStart c = true)
    (cs : List Char) : StartsSolid (c :: cs) := by
  apply startsSolid_cons
  constructor
  · rw [isGapChar, Bool.or_eq_false_iff]
    refine ⟨Bool.eq_false_iff.mpr fun hend => ?_, Bool.eq_false_iff.mpr fun hspace => ?_⟩
    · simp [isIdentifierStart_of_isLineEnd hend] at h
    · simp [isIdentifierStart_of_isSpace hspace] at h
  · intro heq
    rw [heq] at h
    revert h
    decide

/-- A name in its first character and the others. -/
theorem exists_cons_of_isNameChars {name : List Char} (h : isNameChars name = true) :
    ∃ c cs, name = c :: cs ∧ isIdentifierStart c = true ∧ ∀ d ∈ cs, isIdentifierPart d = true := by
  cases name with
  | nil => cases h
  | cons c cs => exact ⟨c, cs, rfl, by simpa [isNameChars] using h⟩

/-- A name at the head of a text is scanned as a word, which has the name as its value. -/
theorem scanKind_name {name rest : List Char} (hname : isNameChars name = true)
    (hrest : EndsName rest) {bound : Nat} (hbound : name.length ≤ bound) :
    scanKind bound (name ++ rest) = ⟨.word (String.ofList name) false, byteSize name, rest⟩ := by
  obtain ⟨c, cs, rfl, hstart, hparts⟩ := exists_cons_of_isNameChars hname
  cases bound with
  | zero => cases hbound
  | succ n =>
    have hword : wordChars? (n + 1) isIdentifierStart (c :: cs ++ rest) =
        some ⟨(c :: cs, false), byteSize (c :: cs), rest⟩ := by
      rw [List.cons_append, wordChars?_cons (isIdentifierPart_of_start hstart) hstart,
        wordChars?_name hrest hparts (Nat.le_of_succ_le_succ hbound)]
      rfl
    have hscan : scanWord? (n + 1) (c :: cs ++ rest) =
        some ⟨(String.ofList (c :: cs), false), byteSize (c :: cs), rest⟩ := by
      simp only [scanWord?, hword]
      rfl
    rw [List.cons_append] at hscan ⊢
    simp [scanKind, hstart, hscan]

/-! ### Cursors on known tokens

`Spells` puts together what was needed of the scan: the token starts where the blanks end, and takes
just its text. -/

/-- At the head of a text, before the rest, stands one token. -/
structure Spells (bound : Nat) (kind : TokenKind) (text rest : List Char) : Prop where
  solid : StartsSolid (text ++ rest)
  scan : scanKind bound (text ++ rest) = ⟨kind, byteSize text, rest⟩

/-- A name spells a word. -/
theorem spells_word {name : String} {rest : List Char} (hname : isNameChars name.toList = true)
    (hrest : EndsName rest) {bound : Nat} (hbound : name.toList.length ≤ bound) :
    Spells bound (.word name false) name.toList rest := by
  obtain ⟨c, cs, heq, hstart, -⟩ := exists_cons_of_isNameChars hname
  refine ⟨?_, ?_⟩
  · rw [heq]
    exact startsSolid_of_isIdentifierStart hstart _
  · simpa using scanKind_name hname hrest hbound

namespace Cursor

@[simp] theorem next_bound (c : Cursor) : c.next.bound = c.bound := rfl

@[simp] theorem scanAt_lastStop (bound pos : Nat) (cs : List Char) :
    (scanAt bound pos cs).lastStop = pos := rfl

@[simp] theorem scanAt_bound (bound pos : Nat) (cs : List Char) :
    (scanAt bound pos cs).bound = bound := rfl

/-- The cursor on a token that stands behind blanks, and the one behind that token. -/
theorem scanAt_gap (bound : Nat) {kind : TokenKind} (gap text rest : List Char)
    (hgap : gap.all isGapChar = true) (h : Spells bound kind text rest)
    (hbound : gap.length ≤ bound) (front : List Char) :
    (scanAt bound (byteSize front) (gap ++ (text ++ rest))).token =
        ⟨kind, byteSize (front ++ gap), byteSize (front ++ gap ++ text), gap.any isLineEnd⟩ ∧
      (scanAt bound (byteSize front) (gap ++ (text ++ rest))).next =
        scanAt bound (byteSize (front ++ gap ++ text)) rest := by
  simp [next, scanAt, skipBlanks_gap (List.all_eq_true.mp hgap) h.solid hbound, h.scan,
    Nat.add_assoc]

end Cursor

end VueSetup.Script
