import VueSetup.Proofs.Script.Values

/-!
# VueSetup.Proofs.Script.Import

How an import stands in the text.

The names of an import are a default and then the name of the whole module or names in braces. These
are read one after the other, each but the last with a comma behind it (`Parse.Listing`). What the
cursors of that reading tell about the text is gathered in `ImportNames`: the names stand in order,
each on text of its own that starts with no blank, a comma follows the default if there is another
name, and the closing brace follows every name in braces.
-/

namespace VueSetup.Script

open Text Parse

/-! ### Lists

The reader of a list has fuel and gives the items only. The relation leaves out the fuel and keeps
the cursors between the items, from which the places of commas and of the closing punctuation are
read off. -/

namespace Parse

variable {α : Type} {ctx : Context}

/-- The items of a list are read one after the other, up to the closing punctuation. Each but the
last has a comma behind it, and the last may have one. -/
inductive Listing (ctx : Context) (close : Punct) (item : Parse α) :
    Cursor → List α → Cursor → Prop where
  | nil {c : Cursor} : c.token.isPunct close = true → Listing ctx close item c [] c
  | last {c c' : Cursor} {a : α} : c.token.isPunct close = false → item ctx c = some (a, c') →
    c'.token.isPunct .comma = false → c'.token.isPunct close = true →
    Listing ctx close item c [a] c'
  | cons {c c₁ c' : Cursor} {a : α} {as : List α} : c.token.isPunct close = false →
    item ctx c = some (a, c₁) → c₁.token.isPunct .comma = true →
    Listing ctx close item c₁.next as c' → Listing ctx close item c (a :: as) c'

/-- A list up to its closing punctuation is read item by item. -/
theorem ensures_listing (close : Punct) (item : Parse α) (c : Cursor) :
    (listTo close item).Ensures ctx c fun as c' =>
      ∃ d, Listing ctx close item c as d ∧ c' = d.next := by
  have hfuel : ∀ n c, (listFuel close item n).Ensures ctx c fun as d =>
      d.token.isPunct close = true → Listing ctx close item c as d := by
    intro n
    induction n with
    | zero => exact fun _ => ensures_reject
    | succ n ih =>
      intro c
      simp only [listFuel, ensures_bind, ensures_at?, ensures_eat?, ensures_ite, ensures_pure,
        Bool.not_eq_true]
      refine ⟨fun _ => .nil, fun hopen a c₁ hitem => ⟨fun hcomma => ⟨fun _ => ?_, by simp⟩,
        fun hcomma => ⟨by simp, fun _ => .last hopen hitem hcomma⟩⟩⟩
      exact (ih c₁.next).imp fun as d hlist hclose => .cons hopen hitem hcomma (hlist hclose)
  simp only [listTo, ensures_bind, ensures_bound, ensures_expect, ensures_pure]
  exact (hfuel c.bound c).imp fun as d hlist hclose => ⟨d, hlist hclose, rfl⟩

end Parse

variable {src : List Char} {ctx : Context} {c c' d : Cursor}

/-! ### Characters in the text

Commas and braces are told by their tokens, and a token of one character stands where the cursor
does. -/

/-- The character stands in the text between two offsets. -/
def StandsBetween (src : List Char) (lo hi : Nat) (ch : Char) : Prop :=
  ∃ before mid rest, src = before ++ (mid ++ ch :: rest) ∧ byteSize before = lo ∧
    lo + byteSize mid + ch.utf8Size ≤ hi

/-- It stands as well before any later offset. -/
theorem StandsBetween.weaken {lo hi hi' : Nat} {ch : Char} (h : StandsBetween src lo hi ch)
    (hle : hi ≤ hi') : StandsBetween src lo hi' ch := by
  obtain ⟨before, mid, rest, hsrc, hlo, hhi⟩ := h
  exact ⟨before, mid, rest, hsrc, hlo, Nat.le_trans hhi hle⟩

/-- What starts a token comes before any filler. -/
theorem Cursor.On.startsNoFiller (h : c.On src) : StartsNoFiller c.here := by
  obtain ⟨before, cs, rest, hsrc, hsize, hfills⟩ := exists_fills_behind h.last_isBoundary
  obtain ⟨front, hhere, hfront⟩ := h.here
  have heq : front ++ c.here = before ++ fillerText (fillersBehind src c.lastStop) ++ rest := by
    rw [← hhere, List.append_assoc, ← hfills.eq_append, ← hsrc]
  have hsplit := append_inj_of_byteSize_eq heq (by
    rw [hfront, h.gap, tokenBehind, byteSize_append, hsize])
  rw [hsplit.2]
  exact hfills.startsNoFiller

/-- A comma stands where its token does. -/
theorem Cursor.IsScan.here_of_comma (h : c.IsScan src) (hcomma : c.token.isPunct .comma = true) :
    ∃ rest, c.here = ',' :: rest := by
  obtain ⟨before, cs, -, rfl⟩ := h
  obtain ⟨n, hscan⟩ := scanPunct?_of_scanKind (beq_iff_eq.mp hcomma)
  exact (scanPunct?_spells hscan).2

/-- A brace is one character, and stands where its token does. -/
theorem Cursor.IsScan.here_of_rcurly (h : c.IsScan src) (hclose : c.token.isPunct .rcurly = true) :
    ∃ rest, c.here = '}' :: rest := by
  obtain ⟨before, cs, -, rfl⟩ := h
  obtain ⟨n, hscan⟩ := scanPunct?_of_scanKind (beq_iff_eq.mp hclose)
  exact (scanPunct?_spells hscan).2

/-- The first character of a token stands behind every offset up to the token. -/
theorem Cursor.On.standsBetween (h : c.On src) {pos : Nat} {ch : Char} {rest : List Char}
    (hhere : c.here = ch :: rest) (hpos : IsBoundary src pos) (hle : pos ≤ c.token.start) :
    StandsBetween src pos (c.token.start + ch.utf8Size) ch := by
  obtain ⟨front, hsrc, hfront⟩ := h.here
  obtain ⟨before, behind, hbefore, hsize⟩ := hpos
  obtain ⟨mid, rfl, -⟩ := append_eq_append_of_byteSize_le (hbefore.symm.trans hsrc) (by omega)
  refine ⟨before, mid, rest, by rw [hsrc, hhere, List.append_assoc], hsize, ?_⟩
  rw [byteSize_append] at hfront
  omega

/-! ### Imported names

Only the places of the names are of interest: each covers some text, and they stand in order. -/

/-- The imported name is some text that starts with no blank and no comment. -/
structure ImportSpecifier.Stands (src : List Char) (s : ImportSpecifier) : Prop where
  start_lt_stop : s.span.start < s.span.stop
  solid : ∃ before here, src = before ++ here ∧ byteSize before = s.span.start ∧ StartsNoFiller here
  stop_isBoundary : IsBoundary src s.span.stop

/-- The place where it starts falls between characters. -/
theorem ImportSpecifier.Stands.start_isBoundary {s : ImportSpecifier} (h : s.Stands src) :
    IsBoundary src s.span.start := by
  obtain ⟨before, here, hsrc, hsize, -⟩ := h.solid
  exact ⟨before, here, hsrc, hsize⟩

/-- The imported names stand in order between two offsets. -/
def InOrder (src : List Char) (hi : Nat) : Nat → List ImportSpecifier → Prop
  | lo, [] => lo ≤ hi
  | lo, s :: ss => lo ≤ s.span.start ∧ s.Stands src ∧ InOrder src hi s.span.stop ss

/-- The names leave no less than nothing. -/
theorem InOrder.le {lo hi : Nat} {ss : List ImportSpecifier} (h : InOrder src hi lo ss) :
    lo ≤ hi := by
  induction ss generalizing lo with
  | nil => exact h
  | cons s ss ih =>
    obtain ⟨hlo, hs, hrest⟩ := h
    have := ih hrest
    have := hs.start_lt_stop
    omega

/-- There may be more room on both sides. -/
theorem InOrder.weaken {lo lo' hi hi' : Nat} {ss : List ImportSpecifier} (h : InOrder src hi lo ss)
    (hlo : lo' ≤ lo) (hhi : hi ≤ hi') : InOrder src hi' lo' ss := by
  induction ss generalizing lo lo' with
  | nil =>
    have hle : lo ≤ hi := h
    exact Nat.le_trans hlo (Nat.le_trans hle hhi)
  | cons s ss ih => exact ⟨Nat.le_trans hlo h.1, h.2.1, ih h.2.2 (Nat.le_refl _)⟩

/-- A name stands between those before it and those behind it. -/
theorem InOrder.apart {hi lo : Nat} {before after : List ImportSpecifier} {s : ImportSpecifier}
    (h : InOrder src hi lo (before ++ s :: after)) :
    s.Stands src ∧ lo ≤ s.span.start ∧ s.span.stop ≤ hi ∧
      (∀ m ∈ before, m.span.stop ≤ s.span.start) ∧ ∀ m ∈ after, s.span.stop ≤ m.span.start := by
  have hbehind : ∀ {lo : Nat} {ss : List ImportSpecifier}, InOrder src hi lo ss →
      ∀ m ∈ ss, lo ≤ m.span.start := by
    intro lo ss h m hm
    induction ss generalizing lo with
    | nil => cases hm
    | cons s ss ih =>
      rcases List.mem_cons.mp hm with rfl | hm
      · exact h.1
      · have hlt := h.2.1.start_lt_stop
        have hstart := h.1
        have hrest := ih h.2.2 hm
        omega
  induction before generalizing lo with
  | nil => exact ⟨h.2.1, h.1, h.2.2.le, by simp, hbehind h.2.2⟩
  | cons m before ih =>
    obtain ⟨hs, hlo, hhi, hbefore, hafter⟩ := ih h.2.2
    have hlt := h.2.1.start_lt_stop
    have hm := h.1
    exact ⟨hs, by omega, hhi, List.forall_mem_cons.mpr ⟨hlo, hbefore⟩, hafter⟩

/-- A name that is read from a token on. -/
theorem stands_of_read {s : ImportSpecifier} (hc : c.On src) (hc' : c'.On src)
    (hsolid : ¬ c.token.IsMissing) (hle : c.token.stop ≤ c'.lastStop)
    (hspan : s.span = ⟨c.token.start, c'.lastStop⟩) : s.Stands src := by
  have hlt := hc.solid_of_not_isMissing hsolid
  obtain ⟨before, hsrc, hsize⟩ := hc.here
  refine ⟨?_, ⟨before, c.here, hsrc, ?_, hc.startsNoFiller⟩, ?_⟩ <;> rw [hspan]
  · exact Nat.lt_of_lt_of_le hlt hle
  · exact hsize
  · exact hc'.last_isBoundary

/-- A word is a token. -/
theorem Token.not_isMissing_of_word {t : Token} {name : String} {escaped : Bool}
    (h : t.kind = .word name escaped) : ¬ t.IsMissing := by
  simp [Token.IsMissing, h]

/-- The next token ends behind the end of this one, or there if it is empty. -/
theorem Cursor.On.stop_le_next (h : c.On src) : c.token.stop ≤ c.next.token.stop :=
  Nat.le_trans h.next.last_le h.next.start_le

namespace Grammar

/-- The rule for names passes one token, and the scanner goes on behind it. -/
theorem isScan_identifier (hc : c.On src) : identifier.Ensures ctx c fun found c' =>
    c' = c.next ∧ found.1 = ⟨c.token.start, c.token.stop⟩ ∧ ¬ c.token.IsMissing ∧
      c'.IsScan src :=
  ensures_identifier fun _ _ hkind =>
    ⟨rfl, rfl, Token.not_isMissing_of_word hkind, hc.isScan_next⟩

/-- A name in braces covers the tokens that it is read from. -/
theorem ensures_named (hc : c.On src) : importSpecifier.Ensures ctx c fun s c' =>
    c'.IsScan src ∧ s.1.kind = .named ∧ c.token.start ≤ s.1.span.start ∧
      s.1.span.stop = c'.lastStop ∧ s.1.Stands src := by
  have htype : eatTypeWord.Ensures ctx c fun _ c₁ =>
      c₁ = c ∨ (c₁ = c.next ∧ ¬ c.token.IsMissing) := by
    simp [eatTypeWord]
    exact fun _ hword _ => .inr (Token.not_isMissing_of_word (Token.kind_of_isWord hword))
  -- what is read from the same token, or from the next one
  have hread : ∀ c₁ c' : Cursor, (c₁ = c ∨ (c₁ = c.next ∧ ¬ c.token.IsMissing)) →
      ¬ c₁.token.IsMissing →
      c₁.token.stop ≤ c'.lastStop → c'.IsScan src → ∀ name,
      ImportSpecifier.Stands src ⟨.named, ⟨c.token.start, c'.lastStop⟩, name⟩ := by
    rintro c₁ c' (rfl | ⟨rfl, hfirst⟩) hsolid hle hc' name
    · exact stands_of_read hc hc'.on hsolid hle rfl
    · exact stands_of_read hc hc'.on hfirst (Nat.le_trans hc.stop_le_next hle) rfl
  have hexport : ∀ c₁, exportName.Ensures ctx c₁ fun _ c₂ =>
      c₂ = c₁.next ∧ ¬ c₁.token.IsMissing := by
    intro c₁
    simp [exportName, string, plainName]
    refine ⟨fun _ => ?_, fun _ => ensures_anyName fun _ _ hkind =>
      ⟨rfl, Token.not_isMissing_of_word hkind⟩⟩
    split
    · next hkind => simp [Token.IsMissing, hkind]
    · exact ensures_reject
  simp [importSpecifier]
  refine htype.imp fun _ c₁ h => ?_
  have hc₁ : c₁.On src := by
    rcases h with rfl | ⟨rfl, -⟩
    · exact hc
    · exact hc.next
  refine ⟨fun _ => (hexport c₁).imp ?_, fun _ => (isScan_identifier hc₁).imp ?_⟩
  · rintro _ c₂ ⟨rfl, hsolid⟩
    refine (isScan_identifier hc₁.next.next).imp ?_
    rintro _ c₃ ⟨rfl, -, -, hc₃⟩
    exact ⟨hc₃, hread c₁ _ h hsolid
      (Nat.le_trans hc₁.stop_le_next hc₁.next.stop_le_next) hc₃ _⟩
  · rintro _ c₂ ⟨rfl, -, hsolid, hc₂⟩
    exact ⟨hc₂, hread c₁ _ h hsolid (Nat.le_refl _) hc₂ _⟩

/-- The names of a listing stand in order before its closing brace. -/
theorem inOrder_of_listing {items : List (ImportSpecifier × List Node)}
    (h : Listing ctx .rcurly importSpecifier c items d) (hc : c.IsScan src) :
    d.IsScan src ∧ d.token.isPunct .rcurly = true ∧
      InOrder src d.lastStop c.lastStop (items.map (·.1)) ∧
      ∀ s ∈ items.map (·.1), s.kind = .named ∧ s.Stands src ∧ s.span.stop ≤ d.lastStop := by
  induction h with
  | nil hclose => exact ⟨hc, hclose, Nat.le_refl _, by simp⟩
  | @last c d item _ hitem _ hclose =>
    obtain ⟨hd, hkind, hstart, hstop, hstands⟩ := ensures_named hc.on _ _ hitem
    have hle : c.lastStop ≤ item.1.span.start := Nat.le_trans hc.on.last_le hstart
    refine ⟨hd, hclose, ⟨hle, hstands, Nat.le_of_eq hstop⟩, ?_⟩
    simpa using ⟨hkind, hstands, Nat.le_of_eq hstop⟩
  | @cons c c₁ d item items _ hitem _ _ ih =>
    obtain ⟨hc₁, hkind, hstart, hstop, hstands⟩ := ensures_named hc.on _ _ hitem
    obtain ⟨hd, hclose, horder, hall⟩ := ih hc₁.on.isScan_next
    have hbehind : item.1.span.stop ≤ c₁.next.lastStop :=
      hstop ▸ Nat.le_trans hc₁.on.last_le hc₁.on.start_le
    have hrest := horder.weaken hbehind (Nat.le_refl _)
    refine ⟨hd, hclose, ⟨Nat.le_trans hc.on.last_le hstart, hstands, hrest⟩, ?_⟩
    simpa using ⟨⟨hkind, hstands, hrest.le⟩, by simpa using hall⟩

end Grammar

/-! ### All names of an import

What has been said of names in braces, of the default and of the name for a whole module, put
together for an import from its first word to the end of the statement. -/

/-- The names are in braces, or there is one only, which stands for the whole module. -/
def AreOthers (specifiers : List ImportSpecifier) : Prop :=
  (∀ s ∈ specifiers, s.kind = .named) ∨ ∃ s, specifiers = [s] ∧ s.kind = .all

/-- What the names of an import tell about the text from one offset up to another. -/
structure ImportNames (src : List Char) (lo hi : Nat) (specifiers : List ImportSpecifier) :
    Prop where
  ordered : InOrder src hi lo specifiers
  /-- A default comes first. -/
  kinds : AreOthers specifiers ∨ ∃ first others, specifiers = first :: others ∧
    first.kind = .default ∧ AreOthers others
  comma : ∀ first second rest, specifiers = first :: second :: rest → first.kind = .default →
    StandsBetween src first.span.stop second.span.start ','
  brace : ∀ s ∈ specifiers, s.kind = .named → StandsBetween src s.span.stop hi '}'

/-- There may be more room on both sides. -/
theorem ImportNames.weaken {lo lo' hi hi' : Nat} {specifiers : List ImportSpecifier}
    (h : ImportNames src lo hi specifiers) (hlo : lo' ≤ lo) (hhi : hi ≤ hi') :
    ImportNames src lo' hi' specifiers :=
  ⟨h.ordered.weaken hlo hhi, h.kinds, h.comma, fun s hs hkind => (h.brace s hs hkind).weaken hhi⟩

namespace Grammar

/-- The names of a whole module and those in braces. -/
theorem names_otherSpecifiers (hc : c.On src) :
    otherSpecifiers.Ensures ctx c fun found c' =>
      c'.IsScan src ∧ ImportNames src c.token.start c'.lastStop found.1 ∧ AreOthers found.1 := by
  have hall : ∀ (specifiers : List ImportSpecifier), AreOthers specifiers →
      ∀ first second rest, specifiers = first :: second :: rest → first.kind = .default →
        StandsBetween src first.span.stop second.span.start ',' := by
    rintro _ (hnamed | ⟨s, hs, -⟩) first second rest rfl hkind
    · simp [hnamed first] at hkind
    · cases hs
  simp [otherSpecifiers, namespaceSpecifier, bracedSpecifiers]
  refine ⟨fun hstar _ => (isScan_identifier hc.next.next).imp ?_, fun _ _ => ?_⟩
  · rintro found c' ⟨rfl, -, -, hc'⟩
    have hothers : AreOthers [⟨.all, ⟨c.token.start, c.next.next.next.lastStop⟩, found.2⟩] :=
      .inr ⟨_, rfl, rfl⟩
    have hstands : ImportSpecifier.Stands src
        ⟨.all, ⟨c.token.start, c.next.next.next.lastStop⟩, found.2⟩ :=
      stands_of_read hc hc'.on (by simp [Token.IsMissing, beq_iff_eq.mp hstar])
        (Nat.le_trans hc.stop_le_next hc.next.stop_le_next) rfl
    refine ⟨hc', ⟨⟨Nat.le_refl _, hstands, Nat.le_refl _⟩, .inl hothers, hall _ hothers, ?_⟩,
      hothers⟩
    simp
  · refine (ensures_listing .rcurly importSpecifier c.next).imp ?_
    rintro items _ ⟨d, hlist, rfl⟩
    obtain ⟨hd, hclose, horder, hnames⟩ := inOrder_of_listing hlist hc.isScan_next
    have hothers : AreOthers (items.map (·.1)) := .inl fun s hs => (hnames s hs).1
    have hle : d.lastStop ≤ d.token.start := hd.on.last_le
    refine ⟨hd.on.isScan_next, ⟨?_, .inl hothers, hall _ hothers, fun s hs _ => ?_⟩, hothers⟩
    · exact horder.weaken hc.start_le (Nat.le_trans hle hd.on.start_le)
    · obtain ⟨rest, hhere⟩ := hd.here_of_rcurly hclose
      obtain ⟨-, hstands, hstop⟩ := hnames s hs
      have hbrace := hd.on.standsBetween hhere hstands.stop_isBoundary (Nat.le_trans hstop hle)
      exact hbrace.weaken (Nat.le_of_eq (stop_of_isBrace hd.on hclose (.inr rfl)).symm)

/-- A comma behind the default is passed only if other names follow. -/
theorem names_importSpecifiers (hc : c.On src) :
    importSpecifiers.Ensures ctx c fun found c' =>
      c'.IsScan src ∧ ImportNames src c.token.start c'.lastStop found.1 := by
  simp [importSpecifiers]
  refine ⟨fun _ => (isScan_identifier hc).imp ?_, fun _ => ?_⟩
  · rintro ⟨-, name⟩ _ ⟨rfl, -, hsolid, hc₁⟩
    have hstands : ImportSpecifier.Stands src
        ⟨.default, ⟨c.token.start, c.token.stop⟩, name⟩ :=
      stands_of_read hc hc₁.on hsolid (Nat.le_refl _) rfl
    refine ⟨fun hcomma => ?_, fun _ => ⟨hc₁, ⟨⟨Nat.le_refl _, hstands, Nat.le_refl _⟩,
      .inr ⟨_, [], rfl, rfl, .inl (by simp)⟩, by simp, by simp⟩⟩⟩
    refine (names_otherSpecifiers hc₁.on.next).imp ?_
    rintro found c' ⟨hc', hnames, hothers⟩
    have hbehind : c.token.stop ≤ c.next.next.token.start :=
      Nat.le_trans hc₁.on.last_le (Nat.le_trans hc₁.on.start_le hc₁.on.next.last_le)
    refine ⟨hc', ⟨⟨Nat.le_refl _, hstands, hnames.ordered.weaken hbehind (Nat.le_refl _)⟩,
      .inr ⟨_, _, rfl, rfl, hothers⟩, ?_, ?_⟩⟩
    · -- the comma is a token between the two names
      intro first second rest heq _
      obtain ⟨rfl, hrest⟩ := List.cons.inj heq
      have hsecond := hnames.ordered
      rw [hrest] at hsecond
      obtain ⟨behind, hhere⟩ := hc₁.here_of_comma hcomma
      have hlt := hc₁.on.solid_of_isPunct hcomma
      have hsize : ','.utf8Size = 1 := by decide
      have hnext := hc₁.on.next.last_le
      rw [Cursor.next_lastStop] at hnext
      have hstart := hsecond.1
      exact (hc₁.on.standsBetween hhere hstands.stop_isBoundary hc₁.on.last_le).weaken (by omega)
    · simpa using hnames.brace
  · exact (names_otherSpecifiers hc).imp fun found c' h => ⟨h.1, h.2.1⟩

/-- An import without names has none to speak of. -/
theorem names_importClause (hc : c.On src) :
    importClause.Ensures ctx c fun found c' => ∀ hi, c.token.start ≤ hi → c'.lastStop ≤ hi →
      ImportNames src c.token.start hi found.1 := by
  simp [importClause]
  refine ⟨fun _ hi hle _ => ⟨hle, .inl (.inl (by simp)), by simp, by simp⟩, fun _ => ?_⟩
  refine (names_importSpecifiers hc).imp ?_
  rintro found c' ⟨hc', hnames⟩ - hi - hhi
  have hle : c'.lastStop ≤ c'.token.stop := Nat.le_trans hc'.on.last_le hc'.on.start_le
  exact hnames.weaken (Nat.le_refl _) (Nat.le_trans hle hhi)

/-- The names of an import stand in the text of it. -/
theorem names_of_isImport {dialect : Dialect} {span : Span} {specifiers : List ImportSpecifier}
    {parts : List Node} (h : (Node.importDeclaration span specifiers parts).IsImport dialect src) :
    ImportNames src span.start span.stop specifiers := by
  obtain ⟨c, c', hc, -, -, -, hrun⟩ := h
  have hnames : importDeclaration.Ensures { dialect } c fun n _ => ∀ span specifiers parts,
      n = .importDeclaration span specifiers parts →
        ImportNames src span.start span.stop specifiers := by
    simp [importDeclaration, importEquals]
    intros
    refine (lays_skipImportWord _ _ hc.next).imp fun _ c₁ hword => ?_
    refine ((lays_importClause _ _ hword.on).and (names_importClause hword.on)).imp ?_
    rintro clause c₂ ⟨hlays, hclause⟩
    refine (ensures_moduleSource hlays.on).imp ?_
    rintro source c₃ ⟨hsource, hlt⟩
    refine (lays_endStatement _ _ hsource.on).imp fun _ c₄ hend => ?_
    have hstart : c.token.start ≤ c₁.token.start :=
      Nat.le_trans hc.start_le (Nat.le_trans hc.next.last_le hword.start_le)
    have hbehind := hlays.start_le
    have hlast := hsource.last_le
    have hstop := hend.last_le
    exact (hclause c₄.lastStop (by omega) (by omega)).weaken hstart (Nat.le_refl _)
  exact hnames _ _ hrun _ _ _ rfl

end Grammar

end VueSetup.Script
