import VueSetup.Proofs.Script.Cursor

/-!
# VueSetup.Proofs.Script.Parse

What the outcomes of a parser have in common, and what it lays.

`p.Ensures ctx c Q` says that every outcome of `p` at the cursor `c` satisfies `Q`. The simp lemmas
run a parser step by step: they turn a statement about a `do` block into one about its steps, and
the steps that only look at the cursor or move it by one token vanish.

`p.Lays src f` is the statement that is proved of the rules of the grammar: from any cursor on the
text, `p` reads on and makes the trees `f a` of its outcome `a` in the order of the text.
-/

namespace VueSetup.Script

/-- A keyword is spelled without escapes. -/
theorem Token.kind_of_isWord {t : Token} {w : String} (h : t.isWord w = true) :
    t.kind = .word w false := by
  unfold Token.isWord at h
  split at h
  · next name escaped hkind =>
    simp only [Bool.and_eq_true, Bool.not_eq_true', beq_iff_eq] at h
    rw [hkind, h.1, h.2]
  · cases h

namespace Parse

variable {α β : Type} {ctx : Context} {c : Cursor}

/-! ### Outcomes

A parser refuses or has one outcome, so a statement about its outcomes is a weakest precondition: it
says nothing where the parser refuses, and it composes along `do` blocks. The lemmas are oriented
from the block to its first step and are tried before the subterms are looked at (`simp ↓`), so that
one call of `simp` runs a rule up to the first parser that nothing is known about. -/

/-- Every outcome of the parser, if it has one, satisfies `Q`. -/
def Ensures (p : Parse α) (ctx : Context) (c : Cursor) (Q : α → Cursor → Prop) : Prop :=
  ∀ a c', p ctx c = some (a, c') → Q a c'

/-- What is known of the outcomes may be weakened. A lemma about a rule of the grammar is used this
way where `simp` stops at the rule. -/
theorem Ensures.imp {p : Parse α} {Q R : α → Cursor → Prop} (h : p.Ensures ctx c Q)
    (hqr : ∀ a c', Q a c' → R a c') : p.Ensures ctx c R :=
  fun a c' hp => hqr a c' (h a c' hp)

/-- What holds of all values and cursors needs no look at the parser. -/
theorem ensures_of_forall {p : Parse α} {Q : α → Cursor → Prop} (h : ∀ a c', Q a c') :
    p.Ensures ctx c Q :=
  fun a c' _ => h a c'

theorem Ensures.and {p : Parse α} {Q R : α → Cursor → Prop} (hq : p.Ensures ctx c Q)
    (hr : p.Ensures ctx c R) : p.Ensures ctx c fun a c' => Q a c' ∧ R a c' :=
  fun a c' hp => ⟨hq a c' hp, hr a c' hp⟩

/-- Where the outcome is known, only that one counts. -/
theorem ensures_of_eq {p : Parse α} {Q : α → Cursor → Prop} {a : α} {c₁ : Cursor}
    (h : p ctx c = some (a, c₁)) : p.Ensures ctx c Q ↔ Q a c₁ := by
  constructor
  · intro hq
    exact hq _ _ h
  · intro hq b c' hb
    rw [h] at hb
    cases hb
    exact hq

/-- The step on which the others rest: what follows the first parser is asked of each of its
outcomes. -/
@[simp ↓] theorem ensures_bind {p : Parse α} {f : α → Parse β} {Q : β → Cursor → Prop} :
    (p >>= f).Ensures ctx c Q ↔ p.Ensures ctx c fun a c₁ => (f a).Ensures ctx c₁ Q := by
  have h : (p >>= f) ctx c = (p ctx c).bind fun x => f x.1 ctx x.2 := rfl
  constructor
  · intro hq a c₁ ha b c' hb
    exact hq b c' (by rw [h, ha]; exact hb)
  · intro hq b c' hb
    rw [h, Option.bind_eq_some_iff] at hb
    obtain ⟨⟨a, c₁⟩, ha, hb⟩ := hb
    exact hq a c₁ ha b c' hb

@[simp ↓] theorem ensures_pure {Q : α → Cursor → Prop} {a : α} :
    (pure a : Parse α).Ensures ctx c Q ↔ Q a c :=
  ensures_of_eq rfl

@[simp ↓] theorem ensures_map {p : Parse α} {f : α → β} {Q : β → Cursor → Prop} :
    (f <$> p).Ensures ctx c Q ↔ p.Ensures ctx c fun a c₁ => Q (f a) c₁ := by
  rw [map_eq_pure_bind, ensures_bind]
  simp only [ensures_pure]

/-- A parser without an outcome satisfies everything. -/
@[simp ↓] theorem ensures_reject {Q : α → Cursor → Prop} : (reject : Parse α).Ensures ctx c Q := by
  intro a c' h
  cases h

@[simp ↓] theorem ensures_ite {P : Prop} [Decidable P] {p q : Parse α} {Q : α → Cursor → Prop} :
    (if P then p else q).Ensures ctx c Q ↔
      (P → p.Ensures ctx c Q) ∧ (¬P → q.Ensures ctx c Q) := by
  by_cases h : P
  · simp [h]
  · simp [h]

@[simp ↓] theorem ensures_discard {p : Parse α} {Q : PUnit → Cursor → Prop} :
    (discard p).Ensures ctx c Q ↔ p.Ensures ctx c fun _ c₁ => Q ⟨⟩ c₁ := by
  have h : (discard p : Parse PUnit) = (fun _ => PUnit.unit) <$> p := rfl
  rw [h, ensures_map]

/-- The surroundings change for the parser inside, while what is asked of its outcomes stays. -/
@[simp ↓] theorem ensures_within {p : Parse α} {change : Context → Context}
    {Q : α → Cursor → Prop} : (within change p).Ensures ctx c Q ↔ p.Ensures (change ctx) c Q :=
  Iff.rfl

@[simp ↓] theorem ensures_bracketed {p : Parse α} {Q : α → Cursor → Prop} :
    (bracketed p).Ensures ctx c Q ↔
      p.Ensures { ctx with allowsIn := true, inDecorator := false } c Q :=
  Iff.rfl

/-! ### Looking at the cursor and moving it

Each of these steps has an outcome that can be written down, and `Q` is asked of just that one. The
steps that require something turn into an implication. -/

@[simp ↓] theorem ensures_get {Q : Cursor → Cursor → Prop} :
    (get : Parse Cursor).Ensures ctx c Q ↔ Q c c :=
  ensures_of_eq rfl

@[simp ↓] theorem ensures_set {c₁ : Cursor} {Q : PUnit → Cursor → Prop} :
    (set c₁ : Parse PUnit).Ensures ctx c Q ↔ Q ⟨⟩ c₁ :=
  ensures_of_eq rfl

@[simp ↓] theorem ensures_read {Q : Context → Cursor → Prop} :
    (read : Parse Context).Ensures ctx c Q ↔ Q ctx c :=
  ensures_of_eq rfl

@[simp ↓] theorem ensures_token {Q : Token → Cursor → Prop} :
    token.Ensures ctx c Q ↔ Q c.token c :=
  ensures_of_eq rfl

/-- Looking ahead scans on from the cursor and leaves it where it is. -/
@[simp ↓] theorem ensures_peek {Q : Token → Cursor → Prop} :
    peek.Ensures ctx c Q ↔ Q c.next.token c :=
  ensures_of_eq rfl

@[simp ↓] theorem ensures_peekSecond {Q : Token → Cursor → Prop} :
    peekSecond.Ensures ctx c Q ↔ Q c.next.next.token c :=
  ensures_of_eq rfl

@[simp ↓] theorem ensures_peekThird {Q : Token → Cursor → Prop} :
    peekThird.Ensures ctx c Q ↔ Q c.next.next.next.token c :=
  ensures_of_eq rfl

@[simp ↓] theorem ensures_start {Q : Nat → Cursor → Prop} :
    start.Ensures ctx c Q ↔ Q c.token.start c :=
  ensures_of_eq rfl

/-- A span ends where the last token that was passed does, which leaves out the blanks behind it. -/
@[simp ↓] theorem ensures_spanFrom {n : Nat} {Q : Span → Cursor → Prop} :
    (spanFrom n).Ensures ctx c Q ↔ Q ⟨n, c.lastStop⟩ c :=
  ensures_of_eq rfl

@[simp ↓] theorem ensures_bound {Q : Nat → Cursor → Prop} : bound.Ensures ctx c Q ↔ Q c.bound c :=
  ensures_of_eq rfl

@[simp ↓] theorem ensures_at? {p : Punct} {Q : Bool → Cursor → Prop} :
    (at? p).Ensures ctx c Q ↔ Q (c.token.isPunct p) c :=
  ensures_of_eq rfl

@[simp ↓] theorem ensures_atWord? {w : String} {Q : Bool → Cursor → Prop} :
    (atWord? w).Ensures ctx c Q ↔ Q (c.token.isWord w) c :=
  ensures_of_eq rfl

@[simp ↓] theorem ensures_hasTypes {Q : Bool → Cursor → Prop} :
    hasTypes.Ensures ctx c Q ↔ Q ctx.dialect.types c :=
  ensures_of_eq rfl

@[simp ↓] theorem ensures_hasMarkup {Q : Bool → Cursor → Prop} :
    hasMarkup.Ensures ctx c Q ↔ Q ctx.dialect.markup c :=
  ensures_of_eq rfl

@[simp ↓] theorem ensures_advance {Q : Unit → Cursor → Prop} :
    advance.Ensures ctx c Q ↔ Q () c.next :=
  ensures_of_eq rfl

/-- The scanner is set to another place of the text, as it is behind a regular expression. -/
@[simp ↓] theorem ensures_moveTo {pos : Nat} {cs : List Char} {Q : Unit → Cursor → Prop} :
    (moveTo pos cs).Ensures ctx c Q ↔ Q () (Cursor.scanAt c.bound pos cs) :=
  ensures_of_eq rfl

@[simp ↓] theorem ensures_require {condition : Bool} {Q : Unit → Cursor → Prop} :
    (require condition).Ensures ctx c Q ↔ (condition = true → Q () c) := by
  simp [require]

/-- The token is passed if it is the punctuation, and the outcome tells which it was. -/
@[simp ↓] theorem ensures_eat? {p : Punct} {Q : Bool → Cursor → Prop} :
    (eat? p).Ensures ctx c Q ↔
      (c.token.isPunct p = true → Q true c.next) ∧ (c.token.isPunct p = false → Q false c) := by
  simp [eat?]

@[simp ↓] theorem ensures_eatWord? {w : String} {Q : Bool → Cursor → Prop} :
    (eatWord? w).Ensures ctx c Q ↔
      (c.token.isWord w = true → Q true c.next) ∧ (c.token.isWord w = false → Q false c) := by
  simp [eatWord?]

/-- The outcome exists only if the punctuation is there. -/
@[simp ↓] theorem ensures_expect {p : Punct} {Q : Unit → Cursor → Prop} :
    (expect p).Ensures ctx c Q ↔ (c.token.isPunct p = true → Q () c.next) := by
  simp [expect]

@[simp ↓] theorem ensures_expectWord {w : String} {Q : Unit → Cursor → Prop} :
    (expectWord w).Ensures ctx c Q ↔ (c.token.isWord w = true → Q () c.next) := by
  simp [expectWord]

/-- A statement may end at a semicolon, before a closing bracket, at the end of the text and where
the line ends. -/
@[simp ↓] theorem ensures_mayEnd {Q : Bool → Cursor → Prop} :
    mayEnd.Ensures ctx c Q ↔ Q (c.token.isPunct .semicolon || c.token.isPunct .rcurly ||
      c.token.kind == .endOfText || c.token.afterLineEnd) c := by
  simp [mayEnd]

/-! ### Trying and going back

A parser that is tried runs on the same cursor, and if it refuses the cursor is that from before. So
what holds of its outcomes is needed, and what holds where it was not run at all. -/

/-- What was tried gave an outcome, or nothing has been read. -/
theorem ensures_attempt {p : Parse α} {Q : Option α → Cursor → Prop}
    (hp : p.Ensures ctx c fun a c' => Q (some a) c') (hnone : Q none c) :
    (attempt p).Ensures ctx c Q := by
  intro a c' h
  have heq : attempt p ctx c = ((p ctx c).map fun x => (some x.1, x.2)).or (some (none, c)) := by
    show (Option.bind (p ctx c) _ <|> _) = _
    cases p ctx c with
    | none => rfl
    | some x => rfl
  rw [heq] at h
  cases hx : p ctx c with
  | none =>
    rw [hx] at h
    cases h
    exact hnone
  | some x =>
    rw [hx] at h
    cases h
    exact hp _ _ hx

/-- What is only looked through moves nothing. -/
theorem ensures_ahead {p : Parse α} {Q : Option α → Cursor → Prop} (h : ∀ a, Q a c) :
    (ahead p).Ensures ctx c Q := by
  simp only [ahead, ensures_bind, ensures_get, ensures_set, ensures_pure]
  exact ensures_attempt (fun a _ _ => h (some a)) (h none)

/-- The answer may be either, but the cursor is the old one. -/
theorem ensures_sees {p : Parse Bool} {Q : Bool → Cursor → Prop} (h : ∀ b, Q b c) :
    (sees p).Ensures ctx c Q := by
  simp only [sees, ensures_bind, ensures_pure]
  exact ensures_ahead fun a => h (a.getD false)

/-- The parser moves nothing. -/
def Stays (p : Parse α) : Prop :=
  ∀ ctx c, p.Ensures ctx c fun _ c' => c' = c

/-- A parser that moves nothing only adds a value to the context of what comes then. -/
theorem Stays.ensures {p : Parse α} (hp : p.Stays) {Q : α → Cursor → Prop} (h : ∀ a, Q a c) :
    p.Ensures ctx c Q :=
  (hp ctx c).imp fun a _ heq => heq ▸ h a

/-! ### Names

Names are words; what tells a name of the script's own from a keyword is of no concern here. -/

/-- A name of the script's own covers the token, which is passed. -/
theorem ensures_identifier {Q : Span × String → Cursor → Prop}
    (h : ∀ name escaped, c.token.kind = .word name escaped →
      Q (⟨c.token.start, c.token.stop⟩, name) c.next) : identifier.Ensures ctx c Q := by
  simp only [identifier, ensures_bind, ensures_token]
  split
  · next name escaped hkind =>
    simp only [ensures_bind, ensures_require, ensures_read, ensures_advance, ensures_pure]
    exact fun _ _ => h name escaped hkind
  · exact ensures_reject

/-- Behind a dot or as a key any word is a name. -/
theorem ensures_anyName {Q : Span × String → Cursor → Prop}
    (h : ∀ name escaped, c.token.kind = .word name escaped →
      Q (⟨c.token.start, c.token.stop⟩, name) c.next) : anyName.Ensures ctx c Q := by
  simp only [anyName, ensures_bind, ensures_token]
  split
  · next name escaped hkind =>
    simp only [ensures_bind, ensures_advance, ensures_pure]
    exact h name escaped hkind
  · exact ensures_reject

end Parse

/-! ### Laying trees

`Reach` and `Pass` tell of two cursors what has been made between them, and compose. A parser that
lays its trees extends such a stretch by its own, which is how the rules of the grammar are run: the
stretch from the start of a rule on is carried through its steps. -/

/-- From any cursor on the text the parser reads on, and makes the trees `f a` of its outcome `a` in
the order of the text. -/
def Parse.Lays {α : Type} (src : List Char) (p : Parse α) (f : α → List Node) : Prop :=
  ∀ ctx c, c.On src → p.Ensures ctx c fun a c' => Reach src c c' (f a)

/-- The same of a parser that passes at least one token. -/
def Parse.LaysPast {α : Type} (src : List Char) (p : Parse α) (f : α → List Node) : Prop :=
  ∀ ctx c, c.On src → p.Ensures ctx c fun a c' => Pass src c c' (f a)

section

variable {α : Type} {src : List Char} {ctx : Context} {c c₁ : Cursor} {ns : List Node}
  {p : Parse α} {f : α → List Node} {Q : α → Cursor → Prop}

/-- Read on behind what has been read. -/
theorem Reach.then (h : Reach src c c₁ ns) (hp : p.Lays src f)
    (hq : ∀ a c', Reach src c c' (ns ++ f a) → Q a c') : p.Ensures ctx c₁ Q :=
  (hp ctx c₁ h.on).imp fun a c' h' => hq a c' (h.append h')

/-- A stretch that has passed its first token has passed it for good. -/
theorem Pass.then (h : Pass src c c₁ ns) (hp : p.Lays src f)
    (hq : ∀ a c', Pass src c c' (ns ++ f a) → Q a c') : p.Ensures ctx c₁ Q :=
  (hp ctx c₁ h.on).imp fun a c' h' => hq a c' (h.append h')

/-- If the parser passes a token, so does the stretch. -/
theorem Reach.thenPast (h : Reach src c c₁ ns) (hp : p.LaysPast src f)
    (hq : ∀ a c', Pass src c c' (ns ++ f a) → Q a c') : p.Ensures ctx c₁ Q :=
  (hp ctx c₁ h.on).imp fun a c' h' => hq a c' (h.appendPass h')

end

namespace Parse

variable {α : Type} {src : List Char}

/-- That a token is passed may be forgotten. -/
theorem LaysPast.lays {p : Parse α} {f : α → List Node} (hp : p.LaysPast src f) : p.Lays src f :=
  fun ctx c hc => (hp ctx c hc).imp fun _ _ h => h.toReach

/-- The surroundings have no part in how the trees lie. -/
theorem Lays.within {p : Parse α} {f : α → List Node} (hp : p.Lays src f)
    (change : Context → Context) : (within change p).Lays src f :=
  fun ctx c hc => hp (change ctx) c hc

theorem Lays.bracketed {p : Parse α} {f : α → List Node} (hp : p.Lays src f) :
    (bracketed p).Lays src f :=
  hp.within _

/-- No outcome, no trees. -/
theorem lays_reject {f : α → List Node} : (reject : Parse α).Lays src f :=
  fun _ _ _ => ensures_reject

/-- A parser of one node, as a parser of a list. -/
theorem Lays.one {p : Parse Node} (hp : p.Lays src ([·])) : (one p).Lays src id := by
  intro ctx c hc
  simp only [Parse.one, ensures_bind, ensures_pure]
  exact hp ctx c hc

/-- A parser that is run on a condition makes its tree or none. -/
theorem Lays.optional {p : Parse Node} (hp : p.Lays src ([·])) (condition : Bool) :
    (optional condition p).Lays src id := by
  intro ctx c hc
  simp only [Parse.optional, ensures_ite, ensures_pure]
  exact ⟨fun _ => hp.one ctx c hc, fun _ => hc.reach⟩

/-! ### Steps

Steps that make no node only move the cursor, and keep it on the text. Two of them pass nothing but
read the current token in another way: right angles are scanned one by one and joined where an
operator may stand, and left angles that were scanned together are parted where types may stand. -/

theorem lays_eat? (p : Punct) : (eat? p).Lays src fun _ => [] := by
  intro ctx c hc
  simp only [ensures_eat?]
  exact ⟨fun _ => hc.pass.toReach, fun _ => hc.reach⟩

theorem lays_eatWord? (w : String) : (eatWord? w).Lays src fun _ => [] := by
  intro ctx c hc
  simp only [ensures_eatWord?]
  exact ⟨fun _ => hc.pass.toReach, fun _ => hc.reach⟩

theorem lays_advance : advance.Lays src fun _ => [] := by
  intro ctx c hc
  simp only [ensures_advance]
  exact hc.pass.toReach

/-- A statement ends with its semicolon, or by what stands behind it. -/
theorem lays_endStatement : endStatement.Lays src fun _ => [] := by
  intro ctx c hc
  simp only [endStatement, ensures_bind, ensures_mayEnd, ensures_require, ensures_discard]
  exact fun _ => lays_eat? .semicolon ctx c hc

/-- Reading the token as other punctuation moves nothing. -/
theorem reach_respell {c : Cursor} (hc : c.On src) {p : Punct} {n : Nat}
    (h : (c.respell p n).On src) : Reach src c (c.respell p n) [] :=
  { hc.reach with on := h }

/-- Punctuation starts with a character of one byte, so it can be read again from there. -/
theorem starts_of_isPunct {c : Cursor} (hc : c.On src) {p : Punct} (h : c.token.isPunct p = true) :
    ∃ d rest, c.here = d :: rest ∧ d.utf8Size = 1 := by
  have hstarts := hc.starts
  rwa [beq_iff_eq.mp h] at hstarts

/-- Angles are no curly brackets, so joining them opens and closes no block. -/
theorem longestAngles_ne (cs : List Char) :
    (longestAngles cs).1 ≠ .lcurly ∧ (longestAngles cs).1 ≠ .rcurly := by
  unfold longestAngles
  split <;> decide

/-- The longest operator that starts with the right angles is one token then. -/
theorem lays_joinAngles : joinAngles.Lays src fun _ => [] := by
  intro ctx c hc
  simp only [joinAngles, ensures_bind, ensures_get, ensures_ite, ensures_set, ensures_pure]
  refine ⟨fun hgt => ?_, fun _ => hc.reach⟩
  have hstarts := starts_of_isPunct hc hgt
  obtain ⟨htakes, hpos⟩ := takes_longestAngles hstarts
  refine reach_respell hc (hc.respell (hc.solid_of_isPunct hgt) htakes hpos ?_ hstarts ?_)
  · rintro (h | h)
    · exact absurd h (longestAngles_ne c.here).1
    · exact absurd h (longestAngles_ne c.here).2
  · have hends := hc.ends
    rw [beq_iff_eq.mp hgt] at hends
    exact ⟨hends.starts, fun _ => endsNoTag_longestAngles (hends.angle rfl), fun _ =>
      hends.angle rfl⟩

/-- Of several left angles the first one opens type arguments. -/
theorem lays_splitAngles : splitAngles.Lays src fun _ => [] := by
  intro ctx c hc
  simp only [splitAngles, ensures_bind, ensures_get, ensures_ite, ensures_set, ensures_pure]
  refine ⟨fun hangle => ?_, fun _ => hc.reach⟩
  obtain ⟨p, -, hp⟩ := List.any_eq_true.mp hangle
  obtain ⟨d, rest, hhere, hd⟩ := starts_of_isPunct hc hp
  refine reach_respell hc (hc.respell (hc.solid_of_isPunct hp) ?_ Nat.one_pos (fun _ => rfl)
    ⟨d, rest, hhere, hd⟩ ⟨?_, nofun, nofun⟩)
  · rw [hhere]
    exact takes_drop _ rfl (by simp [hd])
  · have hends := hc.ends
    rw [beq_iff_eq.mp hp] at hends
    exact hends.starts

/-! ### Names

Names, declared names and strings are nodes that cover one token and have no parts. -/

/-- A node that covers the token of the cursor, without parts. -/
theorem pass_leaf {c : Cursor} (hc : c.On src) {n : Node} (hparts : n.parts = [])
    (hspan : n.span = ⟨c.token.start, c.token.stop⟩) (hplain : n.isPlain = true) :
    Pass src c c.next [n] :=
  hc.pass.node hspan hplain hparts

/-- A name that is the token of the cursor, where it is used and where it is declared. -/
theorem pass_reference {c : Cursor} (hc : c.On src) {name : String} {escaped : Bool}
    (hkind : c.token.kind = .word name escaped) :
    Pass src c c.next [.reference ⟨c.token.start, c.token.stop⟩ name] :=
  pass_leaf hc rfl rfl (Node.isPlain_reference (hc.lt_notMem_word hkind) _)

/-- A name that is the token of the cursor, where it is declared. -/
theorem pass_binding {c : Cursor} (hc : c.On src) {name : String} {escaped : Bool}
    (hkind : c.token.kind = .word name escaped) :
    Pass src c c.next [.binding ⟨c.token.start, c.token.stop⟩ name []] :=
  pass_leaf hc rfl rfl (Node.isPlain_binding (hc.lt_notMem_word hkind) _ _)

/-- A string that is the token of the cursor. -/
theorem pass_string {c : Cursor} (hc : c.On src) {value : String}
    (hkind : c.token.kind = .string value) :
    Pass src c c.next [.string ⟨c.token.start, c.token.stop⟩ value] :=
  hc.pass.string (hc.quoted_string hkind) value

theorem lays_reference : reference.Lays src ([·]) := by
  intro ctx c hc
  simp only [reference, ensures_bind, ensures_pure]
  exact ensures_identifier fun name _ hkind => (pass_reference hc hkind).toReach

theorem lays_binding : binding.Lays src ([·]) := by
  intro ctx c hc
  simp only [binding, ensures_bind, ensures_pure]
  exact ensures_identifier fun name _ hkind => (pass_binding hc hkind).toReach

theorem lays_plainName : plainName.Lays src ([·]) := by
  intro ctx c hc
  simp only [plainName, ensures_bind, ensures_pure]
  exact ensures_anyName fun name _ _ => (pass_leaf hc rfl rfl rfl).toReach

/-- The number sign belongs to the token of a private name. -/
theorem lays_privateName : privateName.Lays src ([·]) := by
  intro ctx c hc
  simp only [privateName, ensures_bind, ensures_token]
  split
  · simp only [ensures_bind, ensures_advance, ensures_pure]
    exact (pass_leaf hc rfl rfl rfl).toReach
  · exact ensures_reject

theorem lays_string : string.Lays src ([·]) := by
  intro ctx c hc
  simp only [string, ensures_bind, ensures_token]
  split
  · next value hkind =>
    simp only [ensures_bind, ensures_advance, ensures_pure]
    exact (pass_string hc hkind).toReach
  · exact ensures_reject

/-! ### Repetition

The trees of a list of outcomes are those of the outcomes one after the other; `fs` tells how they
are put together. -/

section

variable {item : Parse α} {f : α → List Node} {fs : List α → List Node}

/-- By induction on the fuel: each item lies behind those before it. Without fuel nothing is read.
-/
theorem Lays.untilFuel (hitem : item.Lays src f) {stop : Parse Bool} (hstop : stop.Stays)
    (hnil : fs [] = []) (hcons : ∀ a as, fs (a :: as) = f a ++ fs as) (n : Nat) :
    (untilFuel stop item n).Lays src fs := by
  induction n with
  | zero => exact lays_reject
  | succ n ih =>
    intro ctx c hc
    simp only [Parse.untilFuel, ensures_bind, ensures_ite, ensures_pure]
    refine hstop.ensures fun b => ⟨fun _ => hnil ▸ hc.reach, fun _ => ?_⟩
    refine hc.reach.then hitem fun a c₁ h => ?_
    exact h.then ih fun as c₂ h => by simpa [hcons] using h

/-- Items up to a place that a look at the cursor recognises. -/
theorem Lays.until? (hitem : item.Lays src f) {stop : Parse Bool} (hstop : stop.Stays)
    (hnil : fs [] = []) (hcons : ∀ a as, fs (a :: as) = f a ++ fs as) :
    (until? stop item).Lays src fs := by
  intro ctx c hc
  simp only [Parse.until?, ensures_bind, ensures_bound]
  exact hitem.untilFuel hstop hnil hcons c.bound ctx c hc

/-- A separator makes no tree. Items and separators alternate. -/
theorem Lays.separatedFuel (hitem : item.Lays src f) (separator : Punct)
    (hnil : fs [] = []) (hcons : ∀ a as, fs (a :: as) = f a ++ fs as) (n : Nat) :
    (separatedFuel separator item n).Lays src fs := by
  induction n with
  | zero => exact lays_reject
  | succ n ih =>
    intro ctx c hc
    simp only [Parse.separatedFuel, ensures_bind, ensures_eat?, ensures_ite, ensures_pure]
    refine ⟨fun _ => ⟨fun _ => ?_, by simp⟩, fun _ => ⟨by simp, fun _ => hnil ▸ hc.reach⟩⟩
    refine hc.pass.then hitem fun a c₁ h => ?_
    exact h.then ih fun as c₂ h => by simpa [hcons] using h.toReach

/-- The parser lays its trees, or they are laid once the comma is passed that it stops at. -/
def LaysElement (src : List Char) (p : Parse α) (f : α → List Node) : Prop :=
  ∀ ctx c, c.On src → p.Ensures ctx c fun a c' =>
    Reach src c c' (f a) ∨ (c'.token.isPunct .comma = true ∧ Reach src c c'.next (f a))

/-- A rule that lays its trees is fit for a list. The other kind is a hole of an array, which stands
for the comma itself. -/
theorem Lays.element (hitem : item.Lays src f) : item.LaysElement src f :=
  fun ctx c hc => (hitem ctx c hc).imp fun _ _ h => .inl h

/-- The comma behind an item belongs to the list, and with it the item is laid in both cases. -/
theorem LaysElement.listFuel (hitem : item.LaysElement src f) (close : Punct)
    (hnil : fs [] = []) (hcons : ∀ a as, fs (a :: as) = f a ++ fs as) (n : Nat) :
    (listFuel close item n).Lays src fs := by
  induction n with
  | zero => exact lays_reject
  | succ n ih =>
    intro ctx c hc
    simp only [Parse.listFuel, ensures_bind, ensures_at?, ensures_eat?, ensures_ite, ensures_pure]
    refine ⟨fun _ => hnil ▸ hc.reach, fun _ => (hitem ctx c hc).imp fun a c₁ h => ?_⟩
    refine ⟨fun _ => ⟨fun _ => ?_, by simp⟩, fun hcomma => ⟨by simp, fun _ => ?_⟩⟩
    · have h' : Reach src c c₁.next (f a) := h.elim (fun h => h.next.toReach) fun h => h.2
      exact h'.then ih fun as c₂ h => by simpa [hcons] using h
    · -- an element that waits for a comma has one
      rcases h with h | ⟨h, -⟩
      · simpa [hcons, hnil] using h
      · rw [hcomma] at h
        cases h

/-- The closing punctuation belongs to the list too. -/
theorem LaysElement.listTo (hitem : item.LaysElement src f) (close : Punct)
    (hnil : fs [] = []) (hcons : ∀ a as, fs (a :: as) = f a ++ fs as) :
    (listTo close item).Lays src fs := by
  intro ctx c hc
  simp only [Parse.listTo, ensures_bind, ensures_bound, ensures_expect, ensures_pure]
  refine hc.reach.then (hitem.listFuel close hnil hcons c.bound) fun as c₁ h _ => ?_
  exact h.next.toReach

/-- Where the items are nodes, their trees are the nodes themselves. -/
theorem Lays.nodesUntil {item : Parse Node} (hitem : item.Lays src ([·])) {stop : Parse Bool}
    (hstop : stop.Stays) : (Parse.until? stop item).Lays src id :=
  hitem.until? hstop rfl fun _ _ => rfl

/-- Items that make nothing. -/
theorem Lays.skipUntil (hitem : item.Lays src fun _ => []) {stop : Parse Bool}
    (hstop : stop.Stays) : (Parse.until? stop item).Lays src fun _ => [] :=
  hitem.until? hstop rfl fun _ _ => rfl

/-- There is a first item, and it has something to stand on. -/
theorem Lays.separated (hitem : item.Lays src f) (separator : Punct) (hnil : fs [] = [])
    (hcons : ∀ a as, fs (a :: as) = f a ++ fs as) (hne : ∀ a, f a ≠ []) :
    (separated separator item).LaysPast src fs := by
  intro ctx c hc
  simp only [Parse.separated, ensures_bind, ensures_bound, ensures_pure]
  refine hc.reach.then hitem fun first c₁ h => ?_
  have hsome := h.pass (by simpa using hne first)
  refine hsome.then (hitem.separatedFuel separator hnil hcons c₁.bound) fun others c₂ h => ?_
  simpa [hcons] using h

/-- Nodes with separators between them, at least one. -/
theorem Lays.nodesSeparated {item : Parse Node} (hitem : item.Lays src ([·])) (separator : Punct) :
    (Parse.separated separator item).LaysPast src id :=
  hitem.separated separator rfl (fun _ _ => rfl) fun _ => List.cons_ne_nil _ _

/-- Nodes up to the closing punctuation, some of which may be holes. -/
theorem LaysElement.nodesTo {item : Parse Node} (hitem : item.LaysElement src ([·]))
    (close : Punct) : (Parse.listTo close item).Lays src id :=
  hitem.listTo close rfl fun _ _ => rfl

/-- Nodes up to the closing punctuation. -/
theorem Lays.nodesTo {item : Parse Node} (hitem : item.Lays src ([·])) (close : Punct) :
    (Parse.listTo close item).Lays src id :=
  hitem.element.nodesTo close

/-- What holds of every item that is read where `I` holds, holds of all items, if `I` holds behind
every item. -/
theorem ensures_until? {I : Cursor → Prop} {P : α → Prop} {ctx : Context}
    (hitem : ∀ c, I c → item.Ensures ctx c fun a c' => I c' ∧ P a) {stop : Parse Bool}
    (hstop : stop.Stays) {c : Cursor} (hc : I c) :
    (until? stop item).Ensures ctx c fun as c' => I c' ∧ ∀ a ∈ as, P a := by
  have hfuel : ∀ n c, I c →
      (untilFuel stop item n).Ensures ctx c fun as c' => I c' ∧ ∀ a ∈ as, P a := by
    intro n
    induction n with
    | zero => exact fun _ _ => ensures_reject
    | succ n ih =>
      intro c hc
      simp only [Parse.untilFuel, ensures_bind, ensures_ite, ensures_pure]
      refine hstop.ensures fun b => ⟨fun _ => ⟨hc, by simp⟩, fun _ => ?_⟩
      refine (hitem c hc).imp fun a c₁ ⟨hc₁, ha⟩ => ?_
      exact (ih c₁ hc₁).imp fun as c₂ ⟨hc₂, has⟩ => ⟨hc₂, by simpa using ⟨ha, has⟩⟩
  simp only [Parse.until?, ensures_bind, ensures_bound]
  exact hfuel c.bound c hc

/-- The same of a list, where `J` holds behind every item, and `I` behind every comma then. What
holds of the items may depend on what is behind them: that is a comma, or the end of the list. -/
theorem ensures_listTo_closed {I J : Cursor → Prop} {P : α → Prop} {ctx : Context} {close : Punct}
    (hitem : ∀ c, I c → item.Ensures ctx c fun a c' =>
      J c' ∧ (c'.token.isPunct .comma = true ∨ c'.token.isPunct close = true → P a))
    (hcomma : ∀ c, J c → c.token.isPunct .comma = true → I c.next) {c : Cursor} (hc : I c) :
    (listTo close item).Ensures ctx c fun as _ => ∀ a ∈ as, P a := by
  -- the list is known to end only when its closing punctuation is read
  have hfuel : ∀ n c, I c → (listFuel close item n).Ensures ctx c fun as c' =>
      c'.token.isPunct close = true → ∀ a ∈ as, P a := by
    intro n
    induction n with
    | zero => exact fun _ _ => ensures_reject
    | succ n ih =>
      intro c hc
      simp only [Parse.listFuel, ensures_bind, ensures_at?, ensures_eat?, ensures_ite, ensures_pure]
      refine ⟨fun _ => by simp, fun _ => (hitem c hc).imp fun a c₁ ⟨hc₁, ha⟩ => ?_⟩
      refine ⟨fun h => ⟨fun _ => ?_, by simp⟩, fun _ => ⟨by simp, fun _ hclose => ?_⟩⟩
      · refine (ih _ (hcomma c₁ hc₁ h)).imp fun as c₂ has hclose => ?_
        simpa using ⟨ha (.inl h), has hclose⟩
      · simpa using ha (.inr hclose)
  simp only [Parse.listTo, ensures_bind, ensures_bound, ensures_expect, ensures_pure]
  exact (hfuel _ _ hc).imp fun as c₁ has hclose => has hclose

/-- What holds of every item wherever it ends. -/
theorem ensures_listTo {I J : Cursor → Prop} {P : α → Prop} {ctx : Context}
    (hitem : ∀ c, I c → item.Ensures ctx c fun a c' => J c' ∧ P a)
    (hcomma : ∀ c, J c → c.token.isPunct .comma = true → I c.next) (close : Punct) {c : Cursor}
    (hc : I c) : (listTo close item).Ensures ctx c fun as _ => ∀ a ∈ as, P a :=
  ensures_listTo_closed (fun c hc => (hitem c hc).imp fun _ _ h => ⟨h.1, fun _ => h.2⟩) hcomma hc

end

end Parse

/-! ### Grammars

What is known of the rules that the rules refer to. The grammar is unfolded one level of nesting
after the other (`Grammar.upTo`), so that what holds of the empty grammar, and of a grammar whose
rules refer to one for which it holds, holds at every level. `Grammar.Sound` is the statement for
the places of trees. -/

/-- The parser refuses where there is no token. -/
def Parse.Balks {α : Type} (p : Parse α) : Prop :=
  ∀ ctx c, c.token.IsMissing → p.Ensures ctx c fun _ _ => False

/-- What the parser makes ends where the last token does. -/
abbrev Parse.Ends (p : Parse Node) : Prop :=
  ∀ ctx c, p.Ensures ctx c fun n c' => n.span.stop = c'.lastStop

/-- The rules for expressions and statements refuse where there is no token. -/
structure Grammar.Balks (g : Grammar) : Prop where
  expression : g.expression.Balks
  assignment : g.assignment.Balks
  operation : ∀ least, (g.operation least).Balks
  operand : g.operand.Balks
  access : g.access.Balks
  statement : ∀ single, (g.statement single).Balks

/-- The rules of a grammar lay the trees that they make. A rule for elements leaves the cursor on
the last token of the element. -/
structure Grammar.Sound (src : List Char) (g : Grammar) : Prop where
  balks : g.Balks
  statement_ends : ∀ single, (g.statement single).Ends
  expression : g.expression.Lays src ([·])
  assignment : g.assignment.Lays src ([·])
  operation : ∀ least, (g.operation least).Lays src ([·])
  operand : g.operand.Lays src ([·])
  access : g.access.Lays src ([·])
  statement : ∀ single, (g.statement single).Lays src ([·])
  type : g.type.Lays src ([·])
  pattern : g.pattern.Lays src ([·])
  element : ∀ ctx c, c.On src →
    g.element.Ensures ctx c fun n c' => c'.On src ∧ Pass src c c'.next [n]

end VueSetup.Script
