import VueSetup.Proofs.Script.Cut

/-!
# VueSetup.Proofs.Script.Names

The names of an import as tokens.

A name in braces is one of four rows of tokens (`NameTokens`), and each of them is read back up to a
comma or a brace (`Grammar.importSpecifier_of_tokens`). So a list of names is read as before where
its tokens are the same (`Parse.Listing.alike`, `Grammar.listing_before`), and a name is cut out of
it with what separates it from the next one or from the one before.
-/

namespace VueSetup.Script

open Text Parse

variable {src : List Char} {ctx : Context} {c c' d : Cursor}

/-! ### Names and words

A token is admitted as a name by its kind and the surroundings. The rules for names read just that
and pass the token. -/

/-- A name that the script can declare. -/
def Context.Admits (ctx : Context) (kind : TokenKind) (name : String) : Prop :=
  ∃ escaped, kind = .word name escaped ∧ name ∉ Token.reserved ∧
    (ctx.allowsAwait = false ∨ name ≠ "await") ∧ (ctx.allowsYield = false ∨ name ≠ "yield")

/-- The name by which a module exports. -/
def TokenKind.exported? : TokenKind → Option String
  | .word name _ => some name
  | .string value => some value
  | _ => none

/-- An admitted token is a word. -/
theorem Context.Admits.isName {t : Token} {name : String} (h : ctx.Admits t.kind name) :
    t.isName = true := by
  obtain ⟨escaped, hkind, -⟩ := h
  simp [Token.isName, hkind]

theorem Context.Admits.isCommon {kind : TokenKind} {name : String} (h : ctx.Admits kind name) :
    kind.IsCommon := by
  obtain ⟨escaped, rfl, -⟩ := h
  trivial

/-- A module exports by words and by strings. -/
theorem Token.isName_or_isString {t : Token} {name : String} (h : t.kind.exported? = some name) :
    t.isName = true ∨ t.isString = true := by
  cases hkind : t.kind with
  | word name escaped => simp [Token.isName, hkind]
  | string value => simp [Token.isString, hkind]
  | _ => simp [hkind, TokenKind.exported?] at h

namespace Grammar

/-- What the rule reads is admitted. -/
theorem admits_identifier : identifier.Ensures ctx c fun found c' =>
    ctx.Admits c.token.kind found.2 ∧ c' = c.next := by
  unfold identifier
  simp only [ensures_bind, ensures_token]
  split
  · next name escaped hkind =>
    simp [Token.isIdentifier, hkind]
    intro hreserved hawait hyield
    exact ⟨escaped, rfl, hreserved, hawait, hyield⟩
  · exact ensures_reject

/-- What is admitted is read. -/
theorem run_identifier {name : String} (h : ctx.Admits c.token.kind name) :
    identifier ctx c = some ((⟨c.token.start, c.token.stop⟩, name), c.next) := by
  obtain ⟨escaped, hkind, hreserved, hawait, hyield⟩ := h
  simp [identifier, hkind, Token.isIdentifier, hreserved, hawait, hyield]

/-- What the rule reads is the text of the token. -/
theorem exported_exportName : exportName.Ensures ctx c fun n c' =>
    c.token.kind.exported? = some (exportText n) ∧ n.span = ⟨c.token.start, c.token.stop⟩ ∧
      c' = c.next := by
  simp [exportName, string, plainName, anyName]
  constructor
  · intro
    split
    · next value hkind => simp [hkind, TokenKind.exported?, exportText, Node.span]
    · exact ensures_reject
  · intro
    split
    · next name escaped hkind => simp [hkind, TokenKind.exported?, exportText, Node.span]
    · exact ensures_reject

/-- A word or a string is read. -/
theorem run_exportName {text : String} (h : c.token.kind.exported? = some text) :
    ∃ n, exportName ctx c = some (n, c.next) ∧ exportText n = text := by
  cases hkind : c.token.kind with
  | word name escaped =>
    rw [hkind] at h
    obtain rfl := Option.some.inj h
    exact ⟨_, by simp [exportName, Token.isString, hkind, plainName, anyName]; rfl, rfl⟩
  | string value =>
    rw [hkind] at h
    obtain rfl := Option.some.inj h
    exact ⟨_, by simp [exportName, Token.isString, hkind, string]; rfl, rfl⟩
  | _ => simp [hkind, TokenKind.exported?] at h

end Grammar

/-! ### A name in braces

Four rows of tokens, which differ in the words `type` and `as`. Since both can be names themselves,
the rule looks ahead, and what it finds is settled by what ends the row: a comma or a brace. -/

/-- The tokens of a name in braces, with the name by which the module exports it and the one that
the script declares. The word `type` may stand before them. -/
inductive NameTokens (ctx : Context) : List TokenKind → String → String → Prop where
  | own {kind : TokenKind} {name : String} : ctx.Admits kind name →
    NameTokens ctx [kind] name name
  | typed {kind : TokenKind} {name : String} : ctx.dialect.types = true → ctx.Admits kind name →
    NameTokens ctx [.word "type" false, kind] name name
  | renamed {first kind : TokenKind} {exported name : String} : first.exported? = some exported →
    ctx.Admits kind name → NameTokens ctx [first, .word "as" false, kind] exported name
  | typedRenamed {first kind : TokenKind} {exported name : String} : ctx.dialect.types = true →
    first.exported? = some exported → ctx.Admits kind name →
    NameTokens ctx [.word "type" false, first, .word "as" false, kind] exported name

/-- One name of an import: what the module exports, and what the script declares for it. -/
structure ImportEntry where
  kind : ImportKind
  exported : String
  localName : String
  deriving DecidableEq

/-- What a name of an import stands for. A name in braces may be renamed from what a part says. -/
def ImportSpecifier.entry (s : ImportSpecifier) (part : Option Node) : ImportEntry :=
  let exported :=
    if s.kind = .named then (part.map Grammar.exportText).getD s.localName
    else if s.kind = .all then "*" else "default"
  ⟨s.kind, exported, s.localName⟩

/-- What a name that is read with its parts stands for. -/
def entryOf (item : ImportSpecifier × List Node) : ImportEntry :=
  item.1.entry item.2.head?

/-- What is read as a name in braces. -/
structure IsNamed (ctx : Context) (c : Cursor) (item : ImportSpecifier × List Node) (c' : Cursor) :
    Prop where
  tokens : ∃ kinds exported, c.Reads kinds c' ∧ NameTokens ctx kinds exported item.1.localName ∧
    entryOf item = ⟨.named, exported, item.1.localName⟩
  kind : item.1.kind = .named
  span : item.1.span = ⟨c.token.start, c'.lastStop⟩
  parts : item.2 = [] ∨ ∃ part, item.2 = [part] ∧ c.token.start < part.span.stop ∧
    part.span.stop ≤ c'.lastStop

/-- A keyword by its kind. -/
theorem Token.isWord_iff {t : Token} {w : String} : t.isWord w = true ↔ t.kind = .word w false := by
  refine ⟨Token.kind_of_isWord, fun h => ?_⟩
  simp [Token.isWord, h]

namespace Grammar

/-- The word `type` is passed only in a script with types. -/
theorem ensures_eatTypeWord : eatTypeWord.Ensures ctx c fun _ c' =>
    c' = c ∨ (ctx.dialect.types = true ∧ c.token.kind = .word "type" false ∧ c' = c.next) := by
  simp [eatTypeWord]
  exact fun htypes hword _ => .inr ⟨htypes, Token.kind_of_isWord hword⟩

/-- What the rule reads is one of the rows, and covers it. -/
theorem isNamed_importSpecifier (hc : c.On src) :
    importSpecifier.Ensures ctx c fun item c' => IsNamed ctx c item c' := by
  simp [importSpecifier]
  refine ensures_eatTypeWord.imp fun _ c₁ htype => ?_
  refine ⟨fun has => exported_exportName.imp ?_, fun has => admits_identifier.imp ?_⟩
  · rintro n _ ⟨hexported, hspan, rfl⟩
    refine admits_identifier.imp ?_
    rintro ⟨_, name⟩ _ ⟨hadmits, rfl⟩
    have has := Token.kind_of_isWord has
    have hsolid : ¬ c₁.token.IsMissing := by
      rintro (hkind | hkind) <;> simp [hkind, TokenKind.exported?] at hexported
    have hpart : c₁.On src → c.token.start ≤ c₁.token.start → c.token.start < n.span.stop ∧
        n.span.stop ≤ c₁.next.next.next.lastStop := by
      intro hc₁ hle
      rw [hspan]
      exact ⟨Nat.lt_of_le_of_lt hle (hc₁.solid_of_not_isMissing hsolid),
        Nat.le_trans hc₁.stop_le_next hc₁.next.stop_le_next⟩
    rcases htype with rfl | ⟨htypes, htype, rfl⟩
    · exact ⟨⟨[c₁.token.kind, .word "as" false, c₁.next.next.token.kind], _, ⟨rfl, has, rfl, rfl⟩,
        .renamed hexported hadmits, rfl⟩, rfl, rfl, .inr ⟨n, rfl, hpart hc (Nat.le_refl _)⟩⟩
    · refine ⟨⟨[.word "type" false, c.next.token.kind, .word "as" false,
        c.next.next.next.token.kind],
        _, ⟨htype, rfl, has, rfl, rfl⟩, .typedRenamed htypes hexported hadmits, rfl⟩, rfl, rfl,
        .inr ⟨n, rfl, hpart hc.next (Nat.le_trans hc.start_le hc.next.last_le)⟩⟩
  · rintro ⟨_, name⟩ _ ⟨hadmits, rfl⟩
    rcases htype with rfl | ⟨htypes, htype, rfl⟩
    · exact ⟨⟨[c₁.token.kind], _, ⟨rfl, rfl⟩, .own hadmits, rfl⟩, rfl, rfl, .inl rfl⟩
    · exact ⟨⟨[.word "type" false, c.next.token.kind], _, ⟨htype, rfl, rfl⟩, .typed htypes hadmits,
        rfl⟩, rfl, rfl, .inl rfl⟩

variable {passed : Bool} {c₁ : Cursor}

/-- A name behind which no `as` stands. -/
theorem importSpecifier_own {name : String} (htype : eatTypeWord ctx c = some (passed, c₁))
    (has : c₁.next.token.isWord "as" = false) (hadmits : ctx.Admits c₁.token.kind name) :
    importSpecifier ctx c =
      some ((⟨.named, ⟨c.token.start, c₁.next.lastStop⟩, name⟩, []), c₁.next) := by
  simp [importSpecifier, htype, has, run_identifier hadmits]

/-- A name with `as` behind it. -/
theorem importSpecifier_renamed {exported name : String}
    (htype : eatTypeWord ctx c = some (passed, c₁)) (has : c₁.next.token.isWord "as" = true)
    (hexported : c₁.token.kind.exported? = some exported)
    (hadmits : ctx.Admits c₁.next.next.token.kind name) :
    ∃ n, importSpecifier ctx c = some ((⟨.named, ⟨c.token.start, c₁.next.next.next.lastStop⟩, name⟩,
      [n]), c₁.next.next.next) ∧ exportText n = exported := by
  obtain ⟨n, hn, htext⟩ : ∃ n, exportName ctx c₁ = some (n, c₁.next) ∧ exportText n = exported :=
    run_exportName hexported
  exact ⟨n, by simp [importSpecifier, htype, has, hn, run_identifier hadmits], htext⟩

/-- A name in braces is read up to what ends it. -/
theorem importSpecifier_of_tokens {kinds : List TokenKind} {exported name : String}
    (h : NameTokens ctx kinds exported name) (hread : c.Reads kinds c')
    (hend : c'.token.isPunct .comma = true ∨ c'.token.isPunct .rcurly = true) :
    ∃ item, importSpecifier ctx c = some (item, c') ∧ entryOf item = ⟨.named, exported, name⟩ := by
  have hno : c'.token.isWord "as" = false ∧ c'.token.isName = false ∧
      c'.token.isString = false := by
    rcases hend with hend | hend
    · simp [Token.isWord, Token.isName, Token.isString, beq_iff_eq.mp hend]
    · simp [Token.isWord, Token.isName, Token.isString, beq_iff_eq.mp hend]
  obtain ⟨has, hname, hstring⟩ := hno
  cases h with
  | own hadmits =>
    obtain ⟨rfl, rfl⟩ := hread
    have htype : eatTypeWord ctx c = some (false, c) := by
      simp [eatTypeWord, has, hname, hstring]
    exact ⟨_, importSpecifier_own htype has hadmits, rfl⟩
  | typed htypes hadmits =>
    obtain ⟨htype, rfl, rfl⟩ := hread
    have htype : eatTypeWord ctx c = some (true, c.next) := by
      simp [eatTypeWord, htypes, Token.isWord_iff.mpr htype, has, hname, hadmits.isName]
    exact ⟨_, importSpecifier_own htype has hadmits, rfl⟩
  | renamed hexported hadmits =>
    obtain ⟨rfl, hword, rfl, rfl⟩ := hread
    have htype : eatTypeWord ctx c = some (false, c) := by
      simp [eatTypeWord, Token.isWord_iff.mpr hword, hname, hadmits.isName]
    obtain ⟨n, hn, htext⟩ :=
      importSpecifier_renamed htype (Token.isWord_iff.mpr hword) hexported hadmits
    exact ⟨_, hn, by simp [entryOf, ImportSpecifier.entry, htext]⟩
  | typedRenamed htypes hexported hadmits =>
    obtain ⟨htype, rfl, hword, rfl, rfl⟩ := hread
    have hfirst := Token.isName_or_isString hexported
    have htype : eatTypeWord ctx c = some (true, c.next) := by
      simp [eatTypeWord, htypes, Token.isWord_iff.mpr htype, Token.isWord_iff.mpr hword,
        hadmits.isName, hfirst]
    obtain ⟨n, hn, htext⟩ :=
      importSpecifier_renamed htype (Token.isWord_iff.mpr hword) hexported hadmits
    exact ⟨_, hn, by simp [entryOf, ImportSpecifier.entry, htext]⟩

end Grammar

/-! ### Names in braces and a cut

Lists are cut between items, so that every item is read as a whole either before or behind the cut.
The comma next to the item that is taken out goes with it. -/

theorem NameTokens.isCommon {kinds : List TokenKind} {exported name : String}
    (h : NameTokens ctx kinds exported name) : ∀ kind ∈ kinds, kind.IsCommon := by
  have hexported : ∀ {kind : TokenKind} {name}, kind.exported? = some name → kind.IsCommon := by
    intro kind name h
    cases kind <;> trivial
  cases h with
  | own hadmits => simpa using hadmits.isCommon
  | typed _ hadmits => simpa using ⟨trivial, hadmits.isCommon⟩
  | renamed hfirst hadmits => simpa using ⟨hexported hfirst, trivial, hadmits.isCommon⟩
  | typedRenamed _ hfirst hadmits =>
    simpa using ⟨trivial, hexported hfirst, trivial, hadmits.isCommon⟩

/-- An item goes forward in the text. -/
theorem IsNamed.start_le {item : ImportSpecifier × List Node} (h : IsNamed ctx c item c')
    (hc : c.IsScan src) : c.token.start ≤ c'.token.start := by
  obtain ⟨kinds, exported, hread, -⟩ := h.tokens
  exact hc.start_le_of_reads hread

/-- The first token of an item ends in it. -/
theorem IsNamed.stop_le {item : ImportSpecifier × List Node} (h : IsNamed ctx c item c')
    (hc : c.IsScan src) : c.token.stop ≤ c'.lastStop := by
  obtain ⟨kinds, exported, hread, htokens, -⟩ := h.tokens
  cases kinds with
  | nil => cases htokens
  | cons => exact hc.stop_le_of_reads hread

/-- An item starts with a word or a string. -/
theorem IsNamed.isPunct_eq_false {item : ImportSpecifier × List Node} (h : IsNamed ctx c item c')
    (p : Punct) : c.token.isPunct p = false := by
  obtain ⟨kinds, exported, hread, htokens, -⟩ := h.tokens
  have hword : ∀ {name}, ctx.Admits c.token.kind name → c.token.isPunct p = false := by
    rintro name ⟨escaped, hkind, -⟩
    simp [Token.isPunct, hkind]
  cases htokens with
  | own hadmits => exact hword (hread.1 ▸ hadmits)
  | typed _ _ => simp [Token.isPunct, hread.1]
  | renamed hfirst _ =>
    rw [← hread.1] at hfirst
    cases hkind : c.token.kind <;> simp_all [TokenKind.exported?, Token.isPunct]
  | typedRenamed _ _ _ => simp [Token.isPunct, hread.1]

theorem IsNamed.isCommon {item : ImportSpecifier × List Node} (h : IsNamed ctx c item c') :
    c.token.kind.IsCommon := by
  obtain ⟨kinds, exported, hread, htokens, -⟩ := h.tokens
  have hcommon := htokens.isCommon
  cases kinds with
  | nil => cases htokens
  | cons kind kinds =>
    obtain rfl := hread.1
    exact hcommon _ List.mem_cons_self

/-- No name goes on at the offset. -/
def EndsNameAt (src : List Char) (pos : Nat) : Prop :=
  ∃ before rest, src = before ++ rest ∧ byteSize before = pos ∧ EndsName rest

/-- Where a name has been scanned no name goes on. -/
theorem Cursor.IsScan.endsNameAt (h : c.IsScan src) {name : String}
    (hadmits : ctx.Admits c.token.kind name) : EndsNameAt src c.next.lastStop := by
  obtain ⟨escaped, hkind, -⟩ := hadmits
  obtain ⟨before, hsrc, hsize⟩ := h.on.behind
  have hends := h.stops (by rw [hkind]; trivial)
  rw [hkind] at hends
  exact ⟨before, c.behind, hsrc, hsize, hends⟩

/-- An item ends with a name. -/
theorem IsNamed.endsNameAt {item : ImportSpecifier × List Node} (h : IsNamed ctx c item c')
    (hc : c.IsScan src) : EndsNameAt src c'.lastStop := by
  obtain ⟨kinds, exported, hread, htokens, -⟩ := h.tokens
  have hnext := hc.on.isScan_next
  cases htokens with
  | own hadmits =>
    obtain ⟨rfl, rfl⟩ := hread
    exact hc.endsNameAt hadmits
  | typed _ hadmits =>
    obtain ⟨-, rfl, rfl⟩ := hread
    exact hnext.endsNameAt hadmits
  | renamed _ hadmits =>
    obtain ⟨-, -, rfl, rfl⟩ := hread
    exact hnext.on.isScan_next.endsNameAt hadmits
  | typedRenamed _ _ hadmits =>
    obtain ⟨-, -, -, rfl, rfl⟩ := hread
    exact hnext.on.isScan_next.on.isScan_next.endsNameAt hadmits

/-- Where no name goes on every common token stops. -/
theorem stops_of_endsName {rest : List Char} (h : EndsName rest) (kind : TokenKind) :
    kind.Stops rest := by
  cases kind <;> first | exact h | trivial

/-- The end of a cut piece is the start of the text behind it. -/
theorem Cut.endsName_behind {k : Cut}
    (h : EndsNameAt k.whole (byteSize k.front + byteSize k.piece)) : EndsName k.behind := by
  obtain ⟨before, rest, hwhole, hsize, hends⟩ := h
  rw [Cut.whole, ← List.append_assoc] at hwhole
  obtain ⟨-, hrest⟩ := append_inj_of_byteSize_eq hwhole (by rw [byteSize_append, hsize])
  exact hrest ▸ hends

namespace Parse

variable {α β : Type} {k : Cut} {close : Punct} {item : Parse α} {f : α → β}

/-- Behind the cut, a list is read as before if its items are. -/
theorem Listing.alike {as : List α} (h : Listing ctx close item c as c')
    (hitem : ∀ c d a c', k.Alike c d → item ctx c = some (a, c') →
      (c'.token.isPunct .comma = true ∨ c'.token.isPunct close = true) →
      ∃ b d', item ctx d = some (b, d') ∧ k.Alike c' d' ∧ f b = f a)
    (ha : k.Alike c d) :
    ∃ bs d', Listing ctx close item d bs d' ∧ k.Alike c' d' ∧ bs.map f = as.map f := by
  induction h generalizing d with
  | nil hclose => exact ⟨[], d, .nil (ha.isPunct_eq ▸ hclose), ha, rfl⟩
  | last hopen hrun hcomma hclose =>
    obtain ⟨b, d', hrun', ha', hb⟩ := hitem _ _ _ _ ha hrun (.inr hclose)
    exact ⟨[b], d', .last (ha.isPunct_eq ▸ hopen) hrun' (ha'.isPunct_eq ▸ hcomma)
      (ha'.isPunct_eq ▸ hclose), ha', by simp [hb]⟩
  | cons hopen hrun hcomma _ ih =>
    obtain ⟨b, d₁, hrun', ha₁, hb⟩ := hitem _ _ _ _ ha hrun (.inl hcomma)
    obtain ⟨bs, d', hlist, ha', hbs⟩ := ih ha₁.next.toAlike
    exact ⟨b :: bs, d', .cons (ha.isPunct_eq ▸ hopen) hrun' (ha₁.isPunct_eq ▸ hcomma) hlist, ha',
      by simp [hb, hbs]⟩

end Parse

namespace Grammar

variable {k : Cut}

/-- A name in braces behind the cut is read as before. -/
theorem importSpecifier_alike {item : ImportSpecifier × List Node} (ha : k.Alike c d)
    (hrun : importSpecifier ctx c = some (item, c'))
    (hend : c'.token.isPunct .comma = true ∨ c'.token.isPunct .rcurly = true) :
    ∃ item' d', importSpecifier ctx d = some (item', d') ∧ k.Alike c' d' ∧
      entryOf item' = entryOf item := by
  obtain ⟨kinds, exported, hread, htokens, hentry⟩ :=
    (isNamed_importSpecifier ha.whole.on _ _ hrun).tokens
  obtain ⟨d', hread', ha'⟩ := ha.reads hread
  obtain ⟨item', hrun', hentry'⟩ :=
    importSpecifier_of_tokens htokens hread' (by rwa [← ha'.isPunct_eq, ← ha'.isPunct_eq])
  exact ⟨item', d', hrun', ha', by rw [hentry', hentry]⟩

/-- A name in braces before the cut is read as before. -/
theorem importSpecifier_before {item : ImportSpecifier × List Node} (hb : k.Before c d)
    (hrun : importSpecifier ctx c = some (item, c')) (hle : c'.lastStop ≤ byteSize k.front)
    (hstops : c'.lastStop < byteSize k.front ∨ EndsName k.behind) :
    ∃ d', k.Before c' d' ∧
      ((d'.token.isPunct .comma = true ∨ d'.token.isPunct .rcurly = true) →
        ∃ item', importSpecifier ctx d = some (item', d') ∧ entryOf item' = entryOf item) := by
  obtain ⟨kinds, exported, hread, htokens, hentry⟩ :=
    (isNamed_importSpecifier hb.whole.on _ _ hrun).tokens
  obtain ⟨d', hread', hb'⟩ := hb.reads hread htokens.isCommon hle
    (hstops.imp_right stops_of_endsName)
  refine ⟨d', hb', fun hend => ?_⟩
  obtain ⟨item', hrun', hentry'⟩ := importSpecifier_of_tokens htokens hread' hend
  exact ⟨item', hrun', by rw [hentry', hentry]⟩

variable {items before : List (ImportSpecifier × List Node)} {e : Cursor}

/-- The first item of a listing is read where the listing starts. -/
theorem exists_read_of_listing {item : ImportSpecifier × List Node}
    (h : Listing ctx .rcurly importSpecifier c (item :: items) e) :
    ∃ c', importSpecifier ctx c = some (item, c') := by
  cases h with
  | last _ hrun => exact ⟨_, hrun⟩
  | cons _ hrun => exact ⟨_, hrun⟩

/-- The names before the cut are read as before, if those around it are read somehow. -/
theorem listing_before {tail : List (ImportSpecifier × List Node)} {entries : List ImportEntry}
    (htail : ∀ c d, k.Before c d → Listing ctx .rcurly importSpecifier c tail e →
      ∃ items' e', Listing ctx .rcurly importSpecifier d items' e' ∧ k.Alike e e' ∧
        items'.map entryOf = entries)
    (hfirst : ∃ first rest, tail = first :: rest ∧ first.1.span.start ≤ byteSize k.front)
    (h : Listing ctx .rcurly importSpecifier c (before ++ tail) e) (hb : k.Before c d) :
    ∃ items' e', Listing ctx .rcurly importSpecifier d items' e' ∧ k.Alike e e' ∧
      items'.map entryOf = before.map entryOf ++ entries := by
  induction before generalizing c d with
  | nil => exact htail c d hb h
  | cons item before ih =>
    obtain ⟨first, rest, rfl, hstart⟩ := hfirst
    rw [List.cons_append] at h
    generalize hbehind : before ++ first :: rest = behind at h
    cases h with
    | last => simp at hbehind
    | @cons _ c₁ _ _ _ hopen hrun hcomma hlist =>
      subst hbehind
      have hc₁ := (ensures_named hb.whole.on _ _ hrun).1
      have horder := (inOrder_of_listing hlist hc₁.on.isScan_next).2.2.1
      rw [List.map_append, List.map_cons] at horder
      have hle := horder.apart.2.1
      rw [Cursor.next_lastStop] at hle
      have hlt := hc₁.on.solid_of_isPunct hcomma
      have hlast := hc₁.on.last_le
      obtain ⟨d₁, hb₁, hread⟩ := importSpecifier_before hb hrun (by omega) (.inl (by omega))
      obtain ⟨hcomma', hb₂⟩ := hb₁.step_punct hcomma (.inr (.inr rfl)) (by omega)
      obtain ⟨item', hrun', hentry⟩ := hread (.inl hcomma')
      obtain ⟨items', e', hlist', he, hentries⟩ := ih hlist hb₂
      have hopen' := (isNamed_importSpecifier hb.rest.on _ _ hrun').isPunct_eq_false .rcurly
      exact ⟨item' :: items', e', .cons hopen' hrun' hcomma' hlist', he, by simp [hentry, hentries]⟩

/-- A name is cut out up to the next one. -/
theorem listing_upTo_next {item next : ImportSpecifier × List Node}
    (h : Listing ctx .rcurly importSpecifier c (item :: next :: items) e) (hb : k.Before c d)
    (hstart : item.1.span.start = byteSize k.front)
    (hnext : next.1.span.start = byteSize k.front + byteSize k.piece) :
    ∃ items' e', Listing ctx .rcurly importSpecifier d items' e' ∧ k.Alike e e' ∧
      items'.map entryOf = (next :: items).map entryOf := by
  cases h with
  | @cons _ c₁ _ _ _ hopen hrun hcomma hlist =>
    have hitem := isNamed_importSpecifier hb.whole.on _ _ hrun
    have hc₁ := (ensures_named hb.whole.on _ _ hrun).1.on.isScan_next
    obtain ⟨c₂, hrun₂⟩ := exists_read_of_listing hlist
    have hends : k.EndsBefore c₁.next := by
      refine Cut.endsBefore_of_start hc₁ ?_
      rw [← hnext, (isNamed_importSpecifier hc₁.on _ _ hrun₂).span]
    rw [hitem.span] at hstart
    have ha := hb.alike hends (.inr ⟨hstart, hb.whole.here_ne_nil hitem.isCommon⟩)
    exact hlist.alike (fun _ _ _ _ ha hrun hend => importSpecifier_alike ha hrun hend) ha

/-- The last name is cut out from behind the one before it. -/
theorem listing_from_previous {item previous : ImportSpecifier × List Node}
    (h : Listing ctx .rcurly importSpecifier c [previous, item] e) (hb : k.Before c d)
    (hprevious : previous.1.span.stop = byteSize k.front)
    (hstop : item.1.span.stop = byteSize k.front + byteSize k.piece) :
    ∃ items' e', Listing ctx .rcurly importSpecifier d items' e' ∧ k.Alike e e' ∧
      items'.map entryOf = [entryOf previous] := by
  cases h with
  | @cons _ c₁ _ _ _ hopen hrun hcomma hlist =>
  have hc₁ := (ensures_named hb.whole.on _ _ hrun).1.on.isScan_next
  rw [(isNamed_importSpecifier hb.whole.on _ _ hrun).span] at hprevious
  -- behind the last name there may be a comma before the brace
  have hcut : ∀ c₂, importSpecifier ctx c₁.next = some (item, c₂) → ∃ d₁, k.Alike c₂ d₁ ∧
      ((c₂.token.isPunct .comma = true ∨ c₂.token.isPunct .rcurly = true) →
        ∃ item', importSpecifier ctx d = some (item', d₁) ∧ entryOf item' = entryOf previous) := by
    intro c₂ hrun₂
    have hitem := isNamed_importSpecifier hc₁.on _ _ hrun₂
    have hc₂ := (ensures_named hc₁.on _ _ hrun₂).1
    have hlast : c₂.lastStop = byteSize k.front + byteSize k.piece := by rw [← hstop, hitem.span]
    have hends := hitem.endsNameAt hc₁
    rw [hlast] at hends
    obtain ⟨d₁, hb₁, hread⟩ := importSpecifier_before hb hrun (Nat.le_of_eq hprevious)
      (.inr (Cut.endsName_behind hends))
    have ha := hb₁.alike (Cut.endsBefore_of_last hc₂ (List.append_nil _).symm (by simp) hlast)
      (.inl hprevious)
    exact ⟨d₁, ha, fun hend => hread (by rwa [← ha.isPunct_eq, ← ha.isPunct_eq])⟩
  cases hlist with
  | last _ hrun₂ hcomma₂ hclose =>
    obtain ⟨d₁, ha, hread⟩ := hcut _ hrun₂
    obtain ⟨item', hrun', hentry⟩ := hread (.inr hclose)
    have hopen' := (isNamed_importSpecifier hb.rest.on _ _ hrun').isPunct_eq_false .rcurly
    exact ⟨[item'], d₁, .last hopen' hrun' (ha.isPunct_eq ▸ hcomma₂) (ha.isPunct_eq ▸ hclose), ha,
      by simp [hentry]⟩
  | cons _ hrun₂ hcomma₂ hnil =>
    obtain ⟨d₁, ha, hread⟩ := hcut _ hrun₂
    obtain ⟨item', hrun', hentry⟩ := hread (.inl hcomma₂)
    have hopen' := (isNamed_importSpecifier hb.rest.on _ _ hrun').isPunct_eq_false .rcurly
    cases hnil with
    | nil hclose =>
      exact ⟨[item'], d₁.next, .cons hopen' hrun' (ha.isPunct_eq ▸ hcomma₂)
        (.nil (ha.next.isPunct_eq ▸ hclose)), ha.next.toAlike, by simp [hentry]⟩

end Grammar

end VueSetup.Script
