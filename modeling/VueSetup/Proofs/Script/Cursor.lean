import VueSetup.Proofs.Script.Ends
import VueSetup.Proofs.Script.Layout
import VueSetup.Script.Parse

/-!
# VueSetup.Proofs.Script.Cursor

Cursors on a text, and what is read from one cursor to another.

`Reach src c c' ns` says that a parser which starts at `c` and ends at `c'` has made the trees `ns`,
in the order of the text, out of what stands between them. The trees start at the token of `c` or
later and end before the token of `c'`, where the token before that one ends. `Pass` says that the
token of `c` has been left behind as well, so that a node may be made that starts at it.
-/

namespace VueSetup.Script

open Text

/-! ### Cursors on a text

`Cursor.On` is what a cursor keeps of the text it was made from: where its token and the rest stand,
and all that is known of a token by its kind. It holds of the first cursor and behind every token,
so that the rules of the grammar never look at the text itself. -/

/-- The token is none: the text ends there, or it does not go on with a token. -/
def Token.IsMissing (t : Token) : Prop :=
  t.kind = .invalid ∨ t.kind = .endOfText

/-- What lies between two tokens ends outside of any closing tag, unless the text ends with it.
Where there is nothing, no line ends. -/
def Cursor.Parted (src : List Char) (c : Cursor) : Prop :=
  ∃ before passed, src = before ++ (passed ++ c.here) ∧ byteSize before = c.lastStop ∧
    ((passed = [] ∧ c.token.afterLineEnd = false) ∨
      (∀ front, ¬ EndsInTag (front ++ passed)) ∨ c.here = [])

/-- The cursor stands on a token of the text, the first one behind what has been read. -/
structure Cursor.On (src : List Char) (c : Cursor) : Prop where
  here : ∃ before, src = before ++ c.here ∧ byteSize before = c.token.start
  behind : ∃ before, src = before ++ c.behind ∧ byteSize before = c.token.stop
  last_isBoundary : IsBoundary src c.lastStop
  last_le : c.lastStop ≤ c.token.start
  gap : c.token.start = tokenBehind src c.lastStop
  start_le : c.token.start ≤ c.token.stop
  solid : c.token.start < c.token.stop ↔ 0 < (scanKind (src.length + 1) c.here).size
  sized : c.token.kind.Sized (c.token.stop - c.token.start)
  starts : c.token.kind.Starts c.here
  closes : c.token.kind.Closes c.here c.behind
  ends : c.token.kind.Ends c.here c.behind
  parted : c.Parted src
  /-- Only punctuation is ever read in another way than it is scanned. -/
  scanned : ∀ name escaped, c.token.kind = .word name escaped →
    scanKind c.bound c.here = ⟨c.token.kind, c.token.stop - c.token.start, c.behind⟩
  bound_eq : c.bound = src.length + 1

namespace Cursor

variable {src : List Char} {c : Cursor}

/-- The scanner makes a cursor on the text wherever it is started, also in the middle of a token. -/
theorem on_scanAt {bound pos : Nat} {cs : List Char} (hbound : bound = src.length + 1)
    (h : ∃ before, src = before ++ cs ∧ byteSize before = pos) : (scanAt bound pos cs).On src := by
  have heq := hbound
  replace hbound : src.length < bound := heq ▸ Nat.lt_succ_self src.length
  obtain ⟨before, rfl, rfl⟩ := h
  obtain ⟨blanks, hblanks, hsize⟩ := takes_skipBlanks bound false cs
  have hrest : (skipBlanks bound 0 false cs).rest.length < bound := by
    rw [hblanks, List.length_append, List.length_append] at hbound
    omega
  obtain ⟨⟨taken, htaken, htoken⟩, hsized, hstarts, hcloses⟩ :=
    fits_scanKind bound (skipBlanks bound 0 false cs).rest
  refine ⟨⟨before ++ blanks, ?_, ?_⟩, ⟨before ++ blanks ++ taken, ?_, ?_⟩, ⟨before, cs, rfl, rfl⟩,
    ?_, ?_, ?_, ?_, ?_, hstarts, hcloses, ends_scanKind hrest, ?_, fun _ _ _ => ?_, heq⟩
  · rw [List.append_assoc]
    exact congrArg _ hblanks
  · rw [byteSize_append, ← hsize]
    rfl
  · rw [List.append_assoc, List.append_assoc]
    refine congrArg _ (hblanks.trans (congrArg _ ?_))
    exact htaken
  · rw [byteSize_append, byteSize_append, ← hsize, ← htoken]
    rfl
  · exact Nat.le_add_right _ _
  · exact size_skipBlanks hbound false
  · exact Nat.le_add_right _ _
  · rw [← heq]
    exact Nat.lt_add_right_iff_pos
  · simpa [scanAt] using hsized
  · have hcs : cs.length < bound := by
      rw [List.length_append] at hbound
      omega
    obtain ⟨passed, hpassed, hparted⟩ := parted_skipBlanks 0 false hcs
    exact ⟨before, passed, congrArg _ hpassed, rfl, hparted.imp_left fun h => ⟨h.1, h.2.1⟩⟩
  · simp [scanAt]

@[simp] theorem next_lastStop (c : Cursor) : c.next.lastStop = c.token.stop := rfl

namespace On

/-- Reading on stays on the text. -/
theorem next (h : c.On src) : c.next.On src :=
  on_scanAt h.bound_eq h.behind

theorem start_isBoundary (h : c.On src) : IsBoundary src c.token.start := by
  obtain ⟨before, htext, hsize⟩ := h.here
  exact ⟨before, c.here, htext, hsize⟩

/-- Inside of the text of the token, and behind it, text can be cut off where it is taken. -/
theorem exists_before (h : c.On src) {α : Type} {s : Scanned α} (hs : s.Takes c.here) :
    ∃ before, src = before ++ s.rest ∧ byteSize before = c.token.start + s.size := by
  obtain ⟨before, htext, hsize⟩ := h.here
  obtain ⟨taken, hhere, htaken⟩ := hs
  exact ⟨before ++ taken, by rw [htext, hhere, List.append_assoc],
    by rw [byteSize_append, hsize, htaken]⟩

/-- The same behind a token's first character, which takes one byte. -/
theorem exists_before_tail (h : c.On src) (hstarts : ∃ d rest, c.here = d :: rest ∧ d.utf8Size = 1)
    {α : Type} {s : Scanned α} (hs : s.Takes c.here.tail) :
    ∃ before, src = before ++ s.rest ∧ byteSize before = c.token.start + 1 + s.size := by
  obtain ⟨d, rest, hhere, hd⟩ := hstarts
  rw [hhere] at hs
  have htakes : (Scanned.mk () (1 + s.size) s.rest).Takes c.here := by
    rw [hhere]
    exact hs.cons d (by rw [hd])
  rw [Nat.add_assoc]
  exact h.exists_before htakes

/-- Two cursors that stand at one place stand on tokens that are both empty or both not. -/
theorem solid_congr {d : Cursor} (h : c.On src) (hd : d.On src)
    (hstart : c.token.start = d.token.start)
    (hsolid : c.token.start < c.token.stop) : d.token.start < d.token.stop := by
  have hhere : c.here = d.here := by
    obtain ⟨before, htext, hsize⟩ := h.here
    obtain ⟨before', htext', hsize'⟩ := hd.here
    have hsuffix := suffixFrom_append before c.here
    rw [← htext, hsize, hstart, ← hsize', htext', suffixFrom_append] at hsuffix
    exact hsuffix.symm
  rw [hd.solid, ← hhere, ← h.solid]
  exact hsolid

/-- Only a token that is none is empty. -/
theorem solid_of_not_isMissing (h : c.On src) (hc : ¬ c.token.IsMissing) :
    c.token.start < c.token.stop := by
  have hsized := h.sized
  have hle := h.start_le
  unfold TokenKind.Sized at hsized
  split at hsized
  · next hkind => exact absurd (.inl hkind) hc
  · next hkind => exact absurd (.inr hkind) hc
  · omega
  · omega

/-- Punctuation is not empty. -/
theorem solid_of_isPunct (h : c.On src) {p : Punct} (hp : c.token.isPunct p = true) :
    c.token.start < c.token.stop := by
  have hsized := h.sized
  rw [beq_iff_eq.mp hp] at hsized
  have := hsized.1
  omega

/-- Reading a token that is not empty as other punctuation keeps the cursor on the text. -/
theorem respell (h : c.On src) (hsolid : c.token.start < c.token.stop) {p : Punct} {n : Nat}
    (hn : (Scanned.mk () n (c.here.drop n)).Takes c.here) (hpos : 0 < n)
    (hbrace : p = .lcurly ∨ p = .rcurly → n = 1)
    (hstarts : ∃ d rest, c.here = d :: rest ∧ d.utf8Size = 1)
    (hends : (TokenKind.punct p).Ends c.here (c.here.drop n)) : (c.respell p n).On src where
  here := h.here
  behind := h.exists_before hn
  last_isBoundary := h.last_isBoundary
  last_le := h.last_le
  gap := h.gap
  start_le := Nat.le_add_right _ _
  solid := iff_of_true (Nat.lt_add_of_pos_right hpos) (h.solid.mp hsolid)
  sized := by
    have hsize : (c.respell p n).token.stop - (c.respell p n).token.start = n :=
      Nat.add_sub_cancel_left ..
    rw [hsize]
    exact ⟨hpos, hbrace⟩
  starts := hstarts
  closes := trivial
  ends := hends
  parted := h.parted
  scanned := nofun
  bound_eq := h.bound_eq

/-- The name that a word stands for holds no `<`. -/
theorem lt_notMem_word (h : c.On src) {name : String} {escaped : Bool}
    (hkind : c.token.kind = .word name escaped) : '<' ∉ name.toList := by
  have hends := h.ends
  rw [hkind] at hends
  exact hends.name

/-- A string or a template opens with a quote. -/
theorem opens (h : c.On src)
    (hstarts : ∃ quote rest, c.here = quote :: rest ∧ isQuote quote = true) :
    OpensAt src c.token.start := by
  obtain ⟨before, htext, hsize⟩ := h.here
  obtain ⟨quote, rest, hhere, hquote⟩ := hstarts
  exact ⟨before, quote, rest, by rw [htext, hhere], hsize, hquote⟩

/-- Text that starts behind a quote is cut off where the quote ends. -/
theorem closesAt {rest : List Char} {n : Nat}
    (hquoted : ∃ front quote, src = front ++ quote :: rest ∧ isQuote quote = true)
    (hrest : ∃ before, src = before ++ rest ∧ byteSize before = n) : ClosesAt src n := by
  obtain ⟨front, quote, htext, hquote⟩ := hquoted
  obtain ⟨before, htext', hsize⟩ := hrest
  have hsame : front ++ [quote] = before := by
    apply List.append_cancel_right
    rw [← htext', htext, List.append_assoc]
    rfl
  refine ⟨front, quote, rest, htext, ?_, hquote⟩
  rw [← hsize, ← hsame, byteSize_append, byteSize_cons, byteSize_nil, utf8Size_of_isQuote hquote]

/-- A token with a quote at each end. -/
theorem quoted (h : c.On src)
    (hstarts : ∃ quote rest, c.here = quote :: rest ∧ isQuote quote = true)
    (hcloses : ∃ front quote, c.here = front ++ quote :: c.behind ∧ isQuote quote = true) :
    Node.Quoted src ⟨c.token.start, c.token.stop⟩ := by
  obtain ⟨before, htext, -⟩ := h.here
  obtain ⟨front, quote, hhere, hquote⟩ := hcloses
  have hquoted : src = before ++ front ++ quote :: c.behind := by
    rw [htext, hhere, List.append_assoc]
  exact ⟨h.opens hstarts, closesAt ⟨_, _, hquoted, hquote⟩ h.behind⟩

/-- A string has its quotes at both ends. -/
theorem quoted_string (h : c.On src) {value : String} (hkind : c.token.kind = .string value) :
    Node.Quoted src ⟨c.token.start, c.token.stop⟩ := by
  have hstarts := h.starts
  have hcloses := h.closes
  rw [hkind] at hstarts hcloses
  exact h.quoted hstarts hcloses

/-- A template without embedded parts has, too. -/
theorem quoted_template (h : c.On src) {proper : Bool}
    (hkind : c.token.kind = .template true proper) :
    Node.Quoted src ⟨c.token.start, c.token.stop⟩ := by
  have hstarts := h.starts
  have hcloses := h.closes
  rw [hkind] at hstarts hcloses
  exact h.quoted hstarts hcloses

end On

end Cursor

/-! ### Trees that fit

A parser makes trees without knowing how much room is left for them. `Fit` therefore asks for all
rooms that hold the stretch, which also covers the empty one, where `a` may lie behind `b`. -/

/-- The trees are laid between any two offsets of which the one is not behind `a` and the other not
before `b`. -/
def Fit (src : List Char) (a b : Nat) (ns : List Node) : Prop :=
  ∀ lo hi, lo ≤ a → b ≤ hi → lo ≤ hi → Laid src lo hi ns

namespace Fit

variable {src : List Char} {a b a' b' : Nat} {ns ms : List Node}

/-- No trees fit anywhere. -/
theorem nil : Fit src a b [] := fun _ _ _ _ h => .nil h

/-- There may be more room. -/
theorem weaken (h : Fit src a b ns) (ha : a' ≤ a) (hb : b ≤ b') : Fit src a' b' ns :=
  fun lo hi hlo hhi => h lo hi (Nat.le_trans hlo ha) (Nat.le_trans hb hhi)

/-- Two stretches in order. -/
theorem append (h : Fit src a b ns) (h' : Fit src a' b' ms) (ha : a ≤ a') (hb : b ≤ b')
    (hba : b ≤ a') : Fit src a b' (ns ++ ms) := by
  intro lo hi hlo hhi hle
  -- the first trees end at `b`, unless the room starts behind it
  exact (h lo (max lo b) hlo (Nat.le_max_right ..) (Nat.le_max_left ..)).append
    (h' (max lo b) hi (by omega) hhi (by omega))

/-- Each of the trees fits where all of them do. -/
theorem of_mem (h : Fit src a b ns) {n : Node} (hn : n ∈ ns) : Fit src a b [n] :=
  fun lo hi hlo hhi hle => (h lo hi hlo hhi hle).of_mem hn

/-- Trees that fit do not make `a` come behind `b`. -/
theorem le_of_ne_nil (h : Fit src a b ns) (hne : ns ≠ []) : a ≤ b := by
  obtain ⟨n, ns, rfl⟩ := List.exists_cons_of_ne_nil hne
  apply Nat.le_of_not_lt
  intro hlt
  have hplace : ∀ x, b ≤ x → x ≤ a → n.span.start = x := by
    intro x hb ha
    obtain ⟨mid, hn, hns⟩ := Laid.cons_iff.mp (h x x ha hb (Nat.le_refl x))
    have hs := hn.sits
    have := hs.lo_le
    have := hs.start_le_stop
    have := hs.le_hi
    have := hns.le
    omega
  have := hplace b (Nat.le_refl b) (Nat.le_of_lt hlt)
  have := hplace a (Nat.le_of_lt hlt) (Nat.le_refl a)
  omega

/-- Trees that fit are laid in the stretch, if there is one. -/
theorem laid (h : Fit src a b ns) (hab : a ≤ b) : Laid src a b ns :=
  h a b (Nat.le_refl a) (Nat.le_refl b) hab

end Fit

/-- And the other way round. -/
theorem Laid.fit {src : List Char} {a b : Nat} {ns : List Node} (h : Laid src a b ns) :
    Fit src a b ns :=
  fun _ _ hlo hhi _ => h.weaken hlo hhi

namespace Node

/-- The parts of the node may lie wherever the node does, and nothing else is asked of it but that a
name is one. -/
def isPlain : Node → Bool
  | .reference _ name | .binding _ name _ => !name.toList.contains '<'
  | .block .. | .exportDefault .. | .importDeclaration .. | .member .. | .string ..
  | .template .. => false
  | _ => true

/-- Names come from words, which have no `<`. -/
theorem isPlain_reference {name : String} (h : '<' ∉ name.toList) (span : Span) :
    (reference span name).isPlain = true := by
  simpa [isPlain] using h

/-- The same of declared names. -/
theorem isPlain_binding {name : String} (h : '<' ∉ name.toList) (span : Span) (parts : List Node) :
    (binding span name parts).isPlain = true := by
  simpa [isPlain] using h

/-- Nothing has to be shown of a plain node. -/
theorem proper_of_isPlain {n : Node} (h : n.isPlain = true) (src : List Char) : n.Proper src := by
  unfold Proper
  split
  all_goals first
    | trivial
    | simpa [isPlain] using h

/-- The room of a plain node is its stretch, or what it is given. -/
theorem room_of_isPlain {n : Node} (h : n.isPlain = true) (lo hi : Nat) :
    n.room lo hi = n.span ∨ n.room lo hi = ⟨lo, hi⟩ := by
  unfold room
  split
  all_goals first
    | exact .inr rfl
    | exact .inl rfl
    | cases h

/-- The parts may be listed in the order in which the node has them. -/
theorem comprises_parts (n : Node) : n.Comprises n.parts [] := by
  unfold Comprises
  split
  · exact .inl ⟨rfl, rfl⟩
  all_goals first
    | exact ⟨rfl, rfl⟩
    | rw [List.append_nil]

end Node

/-- A node without parts fits where another node of the same stretch does. -/
theorem Fit.leaf {src : List Char} {a b : Nat} {n m : Node} (h : Fit src a b [n])
    (hspan : m.span = n.span) (hparts : m.parts = []) (hplain : m.isPlain = true) :
    Fit src a b [m] := by
  intro lo hi hlo hhi hle
  have hs := (h lo hi hlo hhi hle).sits
  have hs' : m.Sits src lo hi := by
    refine ⟨?_, ?_, ?_, ?_, ?_, Node.proper_of_isPlain hplain src⟩ <;> rw [hspan]
    · exact hs.lo_le
    · exact hs.start_le_stop
    · exact hs.le_hi
    · exact hs.start_isBoundary
    · exact hs.stop_isBoundary
  refine Laid.singleton_iff.mpr ⟨[], [], hs', hparts ▸ m.comprises_parts, .nil ?_, by simp, by simp⟩
  rcases Node.room_of_isPlain hplain lo hi with heq | heq
  · rw [heq]
    exact hs'.start_le_stop
  · rw [heq]
    exact hle

/-! ### From one cursor to another

The trees that have been made are followed from the cursor at which a rule starts, so that the rule
can make one node around all of them. A node can be made only if it does not start behind its end,
which is what `Pass` adds to `Reach`. -/

/-- The trees lie in order between the tokens of two cursors. If there are any, the first token is
left behind, unless it is empty. -/
structure Reach (src : List Char) (c c' : Cursor) (ns : List Node) : Prop where
  base : c.On src
  on : c'.On src
  last_le : c.lastStop ≤ c'.lastStop
  start_le : c.token.start ≤ c'.token.start
  fit : Fit src c.token.start c'.lastStop ns
  moved : ns.isEmpty = false → c.token.start < c.token.stop → c.token.start < c'.lastStop

/-- The trees lie in order between the tokens of two cursors, the first of which is passed. -/
structure Pass (src : List Char) (c c' : Cursor) (ns : List Node) : Prop extends
    Reach src c c' ns where
  passed : c.token.start ≤ c'.lastStop
  left : c.token.start < c.token.stop → c.token.start < c'.lastStop

section

variable {src : List Char} {c c₁ c₂ : Cursor} {n : Node} {ns ms ls : List Node}

/-- Nothing read, nothing made. -/
theorem Cursor.On.reach (h : c.On src) : Reach src c c [] :=
  ⟨h, h, Nat.le_refl _, Nat.le_refl _, .nil, nofun⟩

/-- A tree has something to stand on. -/
theorem Reach.pass (h : Reach src c c₁ ns) (hne : ns ≠ []) : Pass src c c₁ ns :=
  ⟨h, h.fit.le_of_ne_nil hne, h.moved (by simpa using hne)⟩

/-- A token that is passed behind others is passed from the first one on. -/
theorem Reach.left_trans (h : Reach src c c₁ ns) {pos : Nat} (hpos : c₁.token.start ≤ pos)
    (hleft : c₁.token.start < c₁.token.stop → c₁.token.start < pos)
    (hsolid : c.token.start < c.token.stop) : c.token.start < pos := by
  rcases Nat.lt_or_eq_of_le h.start_le with hlt | heq
  · omega
  · rw [heq]
    exact hleft (h.base.solid_congr h.on heq hsolid)

/-- What was made before comes first. The stretches lie side by side. -/
theorem Reach.append (h : Reach src c c₁ ns) (h' : Reach src c₁ c₂ ms) :
    Reach src c c₂ (ns ++ ms) where
  base := h.base
  on := h'.on
  last_le := Nat.le_trans h.last_le h'.last_le
  start_le := Nat.le_trans h.start_le h'.start_le
  fit := h.fit.append h'.fit h.start_le h'.last_le h.on.last_le
  moved := by
    intro hne hsolid
    by_cases hns : ns = []
    · have hms : ms ≠ [] := by simpa [hns] using hne
      exact h.left_trans (h'.pass hms).passed (h'.pass hms).left hsolid
    · exact Nat.lt_of_lt_of_le ((h.pass hns).left hsolid) h'.last_le

/-- What has been passed stays passed. -/
theorem Pass.append (h : Pass src c c₁ ns) (h' : Reach src c₁ c₂ ms) : Pass src c c₂ (ns ++ ms) :=
  ⟨h.toReach.append h', Nat.le_trans h.passed h'.last_le,
    fun hsolid => Nat.lt_of_lt_of_le (h.left hsolid) h'.last_le⟩

/-- A token that is passed later is behind everything before. -/
theorem Reach.appendPass (h : Reach src c c₁ ns) (h' : Pass src c₁ c₂ ms) :
    Pass src c c₂ (ns ++ ms) :=
  ⟨h.append h'.toReach, Nat.le_trans h.start_le h'.passed, h.left_trans h'.passed h'.left⟩

/-- The next token is always behind. -/
theorem Reach.next (h : Reach src c c₁ ns) : Pass src c c₁.next ns where
  base := h.base
  on := h.on.next
  last_le := Nat.le_trans h.last_le (Nat.le_trans h.on.last_le h.on.start_le)
  start_le := Nat.le_trans h.start_le (Nat.le_trans h.on.start_le h.on.next.last_le)
  fit := h.fit.weaken (Nat.le_refl _) (Nat.le_trans h.on.last_le h.on.start_le)
  moved := fun _ => h.left_trans h.on.start_le id
  passed := Nat.le_trans h.start_le h.on.start_le
  left := h.left_trans h.on.start_le id

/-- Going on from an offset behind what has been made. -/
theorem Cursor.On.scanAt (hc : c.On src) {bound pos : Nat} {cs : List Char}
    (hbound : bound = src.length + 1) (hfit : Fit src c.token.start pos ns)
    (hpos : c.token.start ≤ pos) (hleft : c.token.start < c.token.stop → c.token.start < pos)
    (hcs : ∃ before, src = before ++ cs ∧ byteSize before = pos) :
    Pass src c (Cursor.scanAt bound pos cs) ns where
  base := hc
  on := Cursor.on_scanAt hbound hcs
  last_le := Nat.le_trans hc.last_le hpos
  start_le := Nat.le_trans hpos (Cursor.on_scanAt hbound hcs).last_le
  fit := hfit
  moved := fun _ => hleft
  passed := hpos
  left := hleft

/-- Going on from an offset behind the first character of the token. -/
theorem Reach.moveTo (h : Reach src c c₁ ns) {pos : Nat} {cs : List Char}
    (hpos : c₁.token.start < pos) (hcs : ∃ before, src = before ++ cs ∧ byteSize before = pos) :
    Pass src c (Cursor.scanAt c₁.bound pos cs) ns :=
  h.base.scanAt h.on.bound_eq
    (h.fit.weaken (Nat.le_refl _) (Nat.le_trans h.on.last_le (Nat.le_of_lt hpos)))
    (Nat.le_trans h.start_le (Nat.le_of_lt hpos)) (h.left_trans (Nat.le_of_lt hpos) fun _ => hpos)
      hcs

/-- What has been made may be dropped. -/
theorem Reach.drop (h : Reach src c c₁ ns) : Reach src c c₁ [] :=
  { h with fit := .nil, moved := nofun }

/-- What has been made may be dropped. -/
theorem Pass.drop (h : Pass src c c₁ ns) : Pass src c c₁ [] :=
  { h with fit := .nil, moved := nofun }

/-- A token passed without a tree. -/
theorem Cursor.On.pass (h : c.On src) : Pass src c c.next [] :=
  h.reach.next

/-- A node around what has been read, listed in the order of the text but for parts that lie over
the others. -/
theorem Pass.enclose (h : Pass src c c₁ ns) (hspan : n.span = ⟨c.token.start, c₁.lastStop⟩)
    (hproper : n.Proper src) (hroom : ∀ lo hi, n.room lo hi = n.span ∨ n.room lo hi = ⟨lo, hi⟩)
    (hc : n.Comprises ns ls) (hleaf : ∀ l ∈ ls, l.parts = [])
    (hls : ∀ l ∈ ls, Fit src c.token.start c₁.lastStop [l]) : Pass src c c₁ [n] := by
  refine { h with fit := fun lo hi hlo hhi hle => ?_, moved := fun _ => h.left }
  have hs : n.Sits src lo hi := by
    refine ⟨?_, ?_, ?_, ?_, ?_, hproper⟩ <;> rw [hspan]
    · exact hlo
    · exact h.passed
    · exact hhi
    · exact h.base.start_isBoundary
    · exact h.on.last_isBoundary
  have hlaid : ∀ {ms}, Fit src c.token.start c₁.lastStop ms →
      Laid src (n.room lo hi).start (n.room lo hi).stop ms := by
    intro ms hfit
    rcases hroom lo hi with heq | heq
    · rw [heq, hspan]
      exact hfit.laid h.passed
    · rw [heq]
      exact hfit lo hi hlo hhi hle
  exact Laid.singleton_iff.mpr ⟨ns, ls, hs, hc, hlaid h.fit, hleaf, fun l hl => hlaid (hls l hl)⟩

/-- The general case: some parts lie over the others, and these have no parts of their own. -/
theorem Pass.comprise (h : Pass src c c₁ ns) (hspan : n.span = ⟨c.token.start, c₁.lastStop⟩)
    (hplain : n.isPlain = true) (hc : n.Comprises ns ls) (hleaf : ∀ l ∈ ls, l.parts = [])
    (hls : ∀ l ∈ ls, Fit src c.token.start c₁.lastStop [l]) : Pass src c c₁ [n] :=
  h.enclose hspan (Node.proper_of_isPlain hplain src) (Node.room_of_isPlain hplain) hc hleaf hls

/-- A node around what has been read, whose parts are just that. -/
theorem Pass.node (h : Pass src c c₁ ns) (hspan : n.span = ⟨c.token.start, c₁.lastStop⟩)
    (hplain : n.isPlain = true) (hparts : n.parts = ns) :
    Pass src c c₁ [n] :=
  h.comprise hspan hplain (hparts ▸ n.comprises_parts) (by simp) (by simp)

/-- A string around its own two quotes. -/
theorem Pass.string (h : Pass src c c₁ []) (hquoted : Node.Quoted src ⟨c.token.start, c₁.lastStop⟩)
    (value : String) : Pass src c c₁ [.string ⟨c.token.start, c₁.lastStop⟩ value] :=
  h.enclose rfl hquoted (fun _ _ => .inl rfl) (Node.comprises_parts _) (by simp) (by simp)

/-- A template around its embedded parts. -/
theorem Pass.template (h : Pass src c c₁ ns) (hquoted :
      Node.Quoted src ⟨c.token.start, c₁.lastStop⟩) :
    Pass src c c₁ [.template ⟨c.token.start, c₁.lastStop⟩ ns] :=
  h.enclose rfl hquoted (fun _ _ => .inl rfl) (Node.comprises_parts _) (by simp) (by simp)

/-- A form around what has been read. -/
theorem Pass.form (h : Pass src c c₁ ns) (kind : Form) (hparts : ms = ns) :
    Pass src c c₁ [.form kind ⟨c.token.start, c₁.lastStop⟩ ms] :=
  h.node rfl rfl hparts

/-- A node without parts may take the place of another node. -/
theorem Reach.leaf {m : Node} (h : Reach src c c₁ [n]) (hspan : m.span = n.span)
    (hparts : m.parts = []) (hplain : m.isPlain = true) : Reach src c c₁ [m] :=
  { h with fit := h.fit.leaf hspan hparts hplain }

/-- What has been made starts at the token or later. -/
theorem Reach.start_le_span (h : Reach src c c₁ [n]) : c.token.start ≤ n.span.start :=
  (h.fit.laid (h.pass (by simp)).passed).sits.lo_le

/-- What a tree has besides its place. -/
theorem Reach.proper (h : Reach src c c₁ [n]) : n.Proper src :=
  (h.fit.laid (h.pass (by simp)).passed).sits.proper

/-- A node whose parts may lie anywhere around it. -/
theorem Pass.around (h : Pass src c c₁ ns) (hroom : ∀ lo hi, n.room lo hi = ⟨lo, hi⟩)
    (hs : n.Sits src c.token.start c₁.lastStop) (hc : n.Comprises ns []) : Pass src c c₁ [n] := by
  refine { h with fit := fun lo hi hlo hhi hle => ?_, moved := fun _ => h.left }
  refine Laid.singleton_iff.mpr ⟨ns, [], hs.weaken hlo hhi, hc, ?_, by simp, by simp⟩
  rw [hroom]
  exact h.fit lo hi hlo hhi hle

end

end VueSetup.Script
