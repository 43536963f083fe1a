import VueSetup.Proofs.Script.Names

/-!
# VueSetup.Proofs.Script.Clause

What an import says before the module that it imports from.

The names are a default, or the name of the whole module, or names in braces, or a default and one
of the others (`Others`, `Clause`). The rules read just these (`Grammar.ensures_importSpecifiers`,
`Grammar.run_importSpecifiers`), and so a word before the names is passed or not by what they are
(`Grammar.run_skipImportWord`). A default, a name in braces or all that stands behind a default can
be cut out, and the others are read from what is left (`Cut.Leaves`).
-/

namespace VueSetup.Script

open Text Parse

variable {src : List Char} {ctx : Context} {c c' d e : Cursor}

/-! ### Lists and their bound

A list is read with a bound on its length, which the relation of successive readings does not know.
That the bound is never reached follows from the text: an item takes at least one character. -/

namespace Parse

variable {α : Type} {close : Punct} {item : Parse α} {as : List α}

/-- A listing ends on its closing punctuation. -/
theorem Listing.closes (h : Listing ctx close item c as e) : e.token.isPunct close = true := by
  induction h with
  | nil hclose => exact hclose
  | last _ _ _ hclose => exact hclose
  | cons _ _ _ _ ih => exact ih

/-- A list that is read item by item is read, if it is shorter than the bound. -/
theorem listTo_of_listing (h : Listing ctx close item c as e) (hlength : as.length < c.bound) :
    listTo close item ctx c = some (as, e.next) := by
  have hfuel : ∀ n, as.length < n → listFuel close item n ctx c = some (as, e) := by
    intro n hn
    clear hlength
    induction h generalizing n with
    | nil hclose =>
      obtain ⟨n, rfl⟩ := Nat.exists_eq_add_one_of_ne_zero (Nat.ne_zero_of_lt hn)
      simp [listFuel, hclose]
    | last hopen hrun hcomma _ =>
      obtain ⟨n, rfl⟩ := Nat.exists_eq_add_one_of_ne_zero (Nat.ne_zero_of_lt hn)
      simp [listFuel, hopen, hrun, hcomma]
    | cons hopen hrun hcomma _ ih =>
      obtain ⟨n, rfl⟩ := Nat.exists_eq_add_one_of_ne_zero (Nat.ne_zero_of_lt hn)
      simp [listFuel, hopen, hrun, hcomma, ih n (Nat.lt_of_succ_lt_succ hn)]
  simp [listTo, hfuel _ hlength, h.closes]

/-- Each item takes some of the text, so that a list is never as long as its bound. -/
theorem Listing.length_lt (h : Listing ctx close item c as e) (hc : c.IsScan src)
    (hitem : ∀ c a c', c.IsScan src → item ctx c = some (a, c') →
      c'.IsScan src ∧ c.token.start ≤ c'.token.start) : as.length < c.bound := by
  suffices hlength : as.length ≤ c.here.length from
    Nat.lt_of_le_of_lt hlength hc.scanKind_here.1
  -- behind an item stands punctuation
  have hpass : ∀ {c a c' p}, c.IsScan src → item ctx c = some (a, c') →
      c'.token.isPunct p = true → c'.IsScan src ∧ c'.next.here.length < c.here.length := by
    intro c a c' p hc hrun hp
    obtain ⟨hc', hle⟩ := hitem _ _ _ hc hrun
    have hlt := hc'.on.solid_of_isPunct hp
    have hnext := hc'.on.next.last_le
    rw [Cursor.next_lastStop] at hnext
    exact ⟨hc', hc.on.here_length_lt hc'.on.next (by omega)⟩
  induction h with
  | nil => exact Nat.zero_le _
  | last _ hrun _ hclose =>
    have := (hpass hc hrun hclose).2
    exact Nat.succ_le_of_lt (Nat.lt_of_le_of_lt (Nat.zero_le _) this)
  | cons _ hrun hcomma _ ih =>
    obtain ⟨hc₁, hlt⟩ := hpass hc hrun hcomma
    exact Nat.succ_le_of_lt (Nat.lt_of_le_of_lt (ih hc₁.on.isScan_next) hlt)

end Parse

/-! ### The names of an import

The two relations follow the rules for the names word by word, and the lemmas lead both ways: what
the rules read is of this shape, and what is of this shape is read by them. -/

/-- The names of an import but for the default, read from one cursor up to another. -/
inductive Others (ctx : Context) : Cursor → List (ImportSpecifier × List Node) → Cursor → Prop where
  | all {c : Cursor} {name : String} : c.token.isPunct .star = true →
    c.next.token.isWord "as" = true → ctx.Admits c.next.next.token.kind name →
    Others ctx c [(⟨.all, ⟨c.token.start, c.next.next.token.stop⟩, name⟩, [])] c.next.next.next
  | braces {c e : Cursor} {items : List (ImportSpecifier × List Node)} :
    c.token.isPunct .lcurly = true → Listing ctx .rcurly Grammar.importSpecifier c.next items e →
    Others ctx c items e.next

/-- A name of its own on the token of the cursor. -/
def Cursor.defaultName (c : Cursor) (name : String) : ImportSpecifier × List Node :=
  (⟨.default, ⟨c.token.start, c.token.stop⟩, name⟩, [])

/-- The names of an import, read from one cursor up to another. -/
inductive Clause (ctx : Context) : Cursor → List (ImportSpecifier × List Node) → Cursor → Prop where
  | default {c : Cursor} {name : String} : ctx.Admits c.token.kind name →
    c.next.token.isPunct .comma = false → Clause ctx c [c.defaultName name] c.next
  | both {c e : Cursor} {name : String} {items : List (ImportSpecifier × List Node)} :
    ctx.Admits c.token.kind name → c.next.token.isPunct .comma = true →
    Others ctx c.next.next items e → Clause ctx c (c.defaultName name :: items) e
  | others {c e : Cursor} {items : List (ImportSpecifier × List Node)} :
    c.token.isIdentifier = false → Others ctx c items e → Clause ctx c items e

variable {items : List (ImportSpecifier × List Node)}

/-- A name that can be declared is no keyword. -/
theorem Context.Admits.isIdentifier {t : Token} {name : String} (h : ctx.Admits t.kind name) :
    t.isIdentifier = true := by
  obtain ⟨escaped, hkind, hreserved, -⟩ := h
  simp [Token.isIdentifier, hkind, hreserved]

/-- Nor is it punctuation. -/
theorem Context.Admits.isPunct_eq_false {t : Token} {name : String} (h : ctx.Admits t.kind name)
    (p : Punct) : t.isPunct p = false := by
  obtain ⟨escaped, hkind, -⟩ := h
  simp [Token.isPunct, hkind]

/-- Punctuation is no word. -/
theorem Token.isWord_eq_false_of_isPunct {t : Token} {p : Punct} (h : t.isPunct p = true)
    {w : String} : t.isWord w = false := by
  simp [Token.isWord, beq_iff_eq.mp h]

/-- The word `from` can be declared, so what cannot be declared is another token. -/
theorem Token.isWord_from_eq_false {t : Token} (h : t.isIdentifier = false) :
    t.isWord "from" = false := by
  refine Bool.eq_false_iff.mpr fun hfrom => ?_
  simp [Token.isIdentifier, Token.kind_of_isWord hfrom] at h
  revert h
  decide

theorem Token.isIdentifier_eq_false_of_isPunct {t : Token} {p : Punct} (h : t.isPunct p = true) :
    t.isIdentifier = false := by
  simp [Token.isIdentifier, beq_iff_eq.mp h]

namespace Grammar

/-- Every outcome of the rule is that of a star or of braces. -/
theorem ensures_otherSpecifiers : otherSpecifiers.Ensures ctx c fun found e =>
    ∃ items, Others ctx c items e ∧ found = (items.map (·.1), items.flatMap (·.2)) := by
  simp only [otherSpecifiers, namespaceSpecifier, bracedSpecifiers, ensures_bind, ensures_at?,
    ensures_ite, ensures_pure, ensures_start, ensures_expect, ensures_expectWord, ensures_spanFrom]
  refine ⟨fun _ hstar has => admits_identifier.imp ?_, fun _ hopen => ?_⟩
  · rintro ⟨_, name⟩ _ ⟨hadmits, rfl⟩
    exact ⟨_, .all hstar has hadmits, rfl⟩
  · refine (ensures_listing .rcurly importSpecifier c.next).imp ?_
    rintro items _ ⟨e, hlist, rfl⟩
    exact ⟨items, .braces hopen hlist, rfl⟩

/-- Every outcome of the rule is one of the three shapes. -/
theorem ensures_importSpecifiers : importSpecifiers.Ensures ctx c fun found e =>
    ∃ items, Clause ctx c items e ∧ found = (items.map (·.1), items.flatMap (·.2)) := by
  simp only [importSpecifiers, ensures_bind, ensures_token, ensures_ite, ensures_pure,
    ensures_start, ensures_spanFrom, ensures_eat?, Bool.not_eq_true]
  refine ⟨fun _ => admits_identifier.imp ?_, fun hno => ensures_otherSpecifiers.imp ?_⟩
  · rintro ⟨_, name⟩ _ ⟨hadmits, rfl⟩
    refine ⟨fun hcomma => ⟨fun _ => ensures_otherSpecifiers.imp ?_, by simp⟩,
      fun hcomma => ⟨by simp, fun _ => ⟨_, .default hadmits hcomma, rfl⟩⟩⟩
    rintro _ e ⟨items, hothers, rfl⟩
    exact ⟨_, .both hadmits hcomma hothers, rfl⟩
  · rintro _ e ⟨items, hothers, rfl⟩
    exact ⟨items, .others hno hothers, rfl⟩

/-- A star or braces are read, whatever stands behind them. -/
theorem run_otherSpecifiers (h : Others ctx c items e) (hc : c.IsScan src) :
    otherSpecifiers ctx c = some ((items.map (·.1), items.flatMap (·.2)), e) := by
  cases h with
  | all hstar has hadmits =>
    simp [otherSpecifiers, namespaceSpecifier, hstar, has, run_identifier hadmits]
  | braces hopen hlist =>
    have hstar : c.token.isPunct .star = false := by
      simp [Token.isPunct, beq_iff_eq.mp hopen]
    have hlength := hlist.length_lt hc.on.isScan_next fun c item c' hc hrun =>
      ⟨(ensures_named hc.on _ _ hrun).1, (isNamed_importSpecifier hc.on _ _ hrun).start_le hc⟩
    simp [otherSpecifiers, bracedSpecifiers, hstar, hopen, listTo_of_listing hlist hlength]

/-- Names of one of the three shapes are read. -/
theorem run_importSpecifiers (h : Clause ctx c items e) (hc : c.IsScan src) :
    importSpecifiers ctx c = some ((items.map (·.1), items.flatMap (·.2)), e) := by
  cases h with
  | default hadmits hcomma =>
    simp [importSpecifiers, hadmits.isIdentifier, run_identifier hadmits, hcomma,
      Cursor.defaultName]
  | both hadmits hcomma hothers =>
    simp [importSpecifiers, hadmits.isIdentifier, run_identifier hadmits, hcomma,
      Cursor.defaultName, run_otherSpecifiers hothers hc.on.isScan_next.on.isScan_next]
  | others hno hothers => simp [importSpecifiers, hno, run_otherSpecifiers hothers hc]

/-! ### A word before the names

The words `type`, `defer` and others are names themselves where `from` or a comma follows. So
whether one is passed depends on the names, and taking some of them out must not change it. -/

/-- Before several names, a word is passed only if it is `type`. -/
theorem passed_skipImportWord (hseveral : 1 < items.length) :
    skipImportWord.Ensures ctx c fun _ d => Clause ctx d items e →
      d = c ∨ (d = c.next ∧ ctx.dialect.types = true ∧ c.token.isWord "type" = true ∧
        d.token.isWord "from" = false) := by
  -- several names start with a name and a comma, or with a brace
  have hfollows : ∀ d : Cursor, Clause ctx d items e →
      d.token.isPunct .star = false ∧
        (d.token.isIdentifier = true → d.next.token.isPunct .comma = true) := by
    intro d hclause
    cases hclause with
    | default => simp at hseveral
    | both hadmits hcomma _ =>
      obtain ⟨escaped, hkind, -⟩ := hadmits
      exact ⟨by simp [Token.isPunct, hkind], fun _ => hcomma⟩
    | others hno hothers =>
      cases hothers with
      | all => simp at hseveral
      | braces hopen => exact ⟨by simp [Token.isPunct, beq_iff_eq.mp hopen], by simp [hno]⟩
  have hcontra : ∀ d : Cursor, Clause ctx d items e → d.token.isIdentifier = true →
      d.next.token.isWord "from" = true → False := fun d hclause hname hfrom => by
    simp [Token.isWord_eq_false_of_isPunct ((hfollows d hclause).2 hname)] at hfrom
  simp [skipImportWord]
  refine ⟨fun htypes htype => ⟨fun hfirst _ => .inr ⟨htypes, htype, ?_⟩, fun _ _ =>
    ⟨fun hfrom hfrom' hclause => ?_, fun hno _ _ => .inr ⟨htypes, htype, hno⟩⟩⟩,
    fun _ => ⟨fun _ hname hfrom hclause => (hcontra _ hclause hname hfrom).elim,
      fun _ _ hstar hclause => ?_⟩⟩
  · rcases hfirst with hfirst | hfirst <;> exact Token.isWord_eq_false_of_isPunct hfirst
  · exact (hcontra _ hclause (by simp [Token.isIdentifier, Token.kind_of_isWord hfrom]; decide)
      hfrom').elim
  · simp [(hfollows _ hclause).1] at hstar

/-- The word before the names of an import is told from them. -/
theorem run_skipImportWord (h : Clause ctx d items e) (hfrom : e.token.isWord "from" = true)
    (hstring : e.next.token.isString = true)
    (hpassed : d = c ∨ (d = c.next ∧ ctx.dialect.types = true ∧ c.token.isWord "type" = true ∧
      d.token.isWord "from" = false)) :
    skipImportWord ctx c = some ((), d) ∧
      (ctx.dialect.types && ((c.token.isIdentifier && c.next.token.isPunct .eq) ||
        (c.token.isWord "type" && c.next.token.isIdentifier && c.next.next.token.isPunct .eq))) =
        false := by
  have hfrom' : ∀ t : Token, t.isWord "from" = true →
      t.isIdentifier = true ∧ ∀ p, t.isPunct p = false := by
    intro t ht
    simp [Token.isIdentifier, Token.isPunct, Token.kind_of_isWord ht]
    decide
  -- Nothing is passed over, or the word `type` with something other than `from` behind it.
  rcases hpassed with rfl | ⟨rfl, htypes, htype, hno⟩
  · simp [skipImportWord]
    cases h with
    | default hadmits _ =>
      have hno : d.next.next.token.isWord "from" = false ∧ d.next.next.token.isPunct .eq =
          false := by
        unfold Token.isString at hstring
        split at hstring
        · next value hkind => simp [Token.isWord, Token.isPunct, hkind]
        · cases hstring
      simp [hfrom, hfrom' _ hfrom, hno]
    | both hadmits hcomma _ =>
      have hkind := beq_iff_eq.mp hcomma
      simp [Token.isPunct, Token.isWord, Token.isIdentifier, hkind]
    | others hno hothers =>
      have hword : ∀ w, d.token.isWord w = false := by
        intro w
        cases hothers with
        | all hstar => exact Token.isWord_eq_false_of_isPunct hstar
        | braces hopen => exact Token.isWord_eq_false_of_isPunct hopen
      simp [hword, hno]
  · simp [skipImportWord, htypes, htype, hno]
    cases h with
    | default hadmits _ => simp [hadmits.isIdentifier, hfrom' _ hfrom, hadmits.isPunct_eq_false]
    | both hadmits hcomma _ =>
      have heq : c.next.next.token.isPunct .eq = false := by
        simp [Token.isPunct, beq_iff_eq.mp hcomma]
      simp [hadmits.isIdentifier, hadmits.isPunct_eq_false, heq]
    | others hno hothers =>
      cases hothers with
      | all hstar => simp [hno, Token.isPunct, beq_iff_eq.mp hstar]
      | braces hopen => simp [hno, Token.isPunct, beq_iff_eq.mp hopen]

end Grammar

/-- The names of an import stand in the text from the one cursor up to the other. -/
theorem Clause.importNames (h : Clause ctx c items e) (hc : c.IsScan src) :
    e.IsScan src ∧ ImportNames src c.token.start e.lastStop (items.map (·.1)) :=
  Grammar.names_importSpecifiers hc.on _ _ (Grammar.run_importSpecifiers h hc)

/-! ### The names of an import and a cut

A cut takes out one name and a comma. The cases are those of `Clause`: a default before others, what
stands behind a default, and a name in braces, before or behind which another one stands. -/

variable {k : Cut} {item first : ImportSpecifier × List Node}
  {earlier later : List (ImportSpecifier × List Node)}

/-- Behind the cut, the names are read as before. -/
theorem Others.alike (h : Others ctx c items e) (ha : k.Alike c d) :
    ∃ items' e', Others ctx d items' e' ∧ k.Alike e e' ∧ items'.map entryOf =
      items.map entryOf := by
  cases h with
  | all hstar has hadmits =>
    have ha₂ := ha.next.next
    refine ⟨_, _, .all (ha.isPunct_eq ▸ hstar) ?_ ?_, ha₂.next.toAlike, rfl⟩
    · rw [Token.isWord_iff, ← ha.next.kind_eq]
      exact Token.kind_of_isWord has
    · rw [← ha₂.kind_eq]
      exact hadmits
  | braces hopen hlist =>
    obtain ⟨items', e', hlist', he, hentries⟩ := hlist.alike
      (fun _ _ _ _ ha hrun hend => Grammar.importSpecifier_alike ha hrun hend) ha.next.toAlike
    exact ⟨items', e'.next, .braces (ha.isPunct_eq ▸ hopen) hlist', he.next.toAlike, hentries⟩

/-- A star or a brace cannot be declared. -/
theorem Others.isIdentifier_eq_false (h : Others ctx c items e) : c.token.isIdentifier = false := by
  cases h with
  | all hstar => exact Token.isIdentifier_eq_false_of_isPunct hstar
  | braces hopen => exact Token.isIdentifier_eq_false_of_isPunct hopen

/-- Without the stretch, the names from `c` up to `e` leave others, which are read from `d` on. -/
structure Cut.Leaves (k : Cut) (ctx : Context) (c e : Cursor) (entries : List ImportEntry)
    (d : Cursor) :
    Prop where
  names : ∃ items' e', Clause ctx d items' e' ∧ k.Alike e e' ∧ items'.map entryOf = entries
  from_eq : c.token.isWord "from" = false → d.token.isWord "from" = false

/-- The first token of these names is not empty. -/
theorem Others.start_lt_stop (h : Others ctx c items e) (hc : c.IsScan src) :
    c.token.start < c.token.stop := by
  cases h with
  | all hstar => exact hc.on.solid_of_isPunct hstar
  | braces hopen => exact hc.on.solid_of_isPunct hopen

/-- Before other names stand a default and a comma. -/
theorem Clause.both_of_kind_ne (h : Clause ctx c (first :: item :: later) e) (hc : c.IsScan src)
    (hkind : first.1.kind ≠ .named) : ∃ name, first = c.defaultName name ∧
      ctx.Admits c.token.kind name ∧ c.next.token.isPunct .comma = true ∧
      Others ctx c.next.next (item :: later) e := by
  cases h with
  | both hadmits hcomma hothers => exact ⟨_, rfl, hadmits, hcomma, hothers⟩
  | others _ hothers =>
    cases hothers with
    | braces _ hlist =>
      have hnamed := (Grammar.inOrder_of_listing hlist hc.on.isScan_next).2.2.2 first.1 (by simp)
      exact absurd hnamed.1 hkind

/-- The name of a whole module stands alone, and no name goes on behind it. -/
theorem Others.of_kind_all (h : Others ctx c (earlier ++ item :: later) e) (hc : c.IsScan src)
    (hkind : item.1.kind = .all) : earlier = [] ∧ later = [] ∧ item.1.span.stop = e.lastStop ∧
      EndsNameAt src e.lastStop := by
  generalize hitems : earlier ++ item :: later = items at h
  cases h with
  | all _ _ hadmits =>
    obtain ⟨rfl, hlast⟩ | ⟨-, hlast⟩ := List.append_eq_singleton_iff.mp hitems
    · obtain ⟨rfl, rfl⟩ := List.cons.inj hlast
      exact ⟨rfl, rfl, rfl, hc.on.isScan_next.on.isScan_next.endsNameAt hadmits⟩
    · cases hlast
  | braces _ hlist =>
    have hnamed := (Grammar.inOrder_of_listing hlist hc.on.isScan_next).2.2.2 item.1
      (by rw [← hitems]; simp)
    simp [hnamed.1] at hkind

/-- The name of a whole module may only follow a default. -/
theorem Clause.of_kind_all (h : Clause ctx c (earlier ++ item :: later) e) (hc : c.IsScan src)
    (hseveral : 1 < (earlier ++ item :: later).length) (hkind : item.1.kind = .all) :
    ∃ first, earlier = [first] ∧ later = [] ∧ first.1.kind = .default ∧
      item.1.span.stop = e.lastStop ∧ EndsNameAt src e.lastStop := by
  generalize hitems : earlier ++ item :: later = items at h hseveral
  cases h with
  | default => exact absurd hseveral (Nat.lt_irrefl 1)
  | both _ _ hothers =>
    cases earlier with
    | nil =>
      obtain ⟨rfl, -⟩ := List.cons.inj hitems
      cases hkind
    | cons first earlier =>
      obtain ⟨rfl, rfl⟩ := List.cons.inj hitems
      obtain ⟨rfl, rfl, hstop, hends⟩ :=
        hothers.of_kind_all hc.on.isScan_next.on.isScan_next hkind
      exact ⟨_, rfl, rfl, rfl, hstop, hends⟩
  | others _ hothers =>
    subst hitems
    obtain ⟨rfl, rfl, -⟩ := hothers.of_kind_all hc hkind
    exact absurd hseveral (Nat.lt_irrefl 1)

/-- A default is cut out with the comma behind it and some blanks. -/
theorem Others.cut_default (h : Others ctx c.next.next items e) {name : String}
    (hadmits : ctx.Admits c.token.kind name) (hb : k.Before c d)
    (hstart : c.token.start = byteSize k.front) (hends : k.EndsBefore c.next.next) :
    k.Leaves ctx c e (items.map entryOf) d := by
  have ha := hb.alike hends (.inr ⟨hstart, hb.whole.here_ne_nil hadmits.isCommon⟩)
  obtain ⟨items', e', hothers', he, hentries⟩ := h.alike ha
  have hno := hothers'.isIdentifier_eq_false
  exact ⟨⟨items', e', .others hno hothers', he, hentries⟩, fun _ => Token.isWord_from_eq_false hno⟩

/-- What stands behind a default is cut out. -/
theorem Cut.Before.leaves_default {name : String} (hb : k.Before c d)
    (hadmits : ctx.Admits c.token.kind name) (hstop : c.token.stop = byteSize k.front)
    (hlast : e.lastStop = byteSize k.front + byteSize k.piece) (he : e.IsScan k.whole)
    (hends : EndsName k.behind) (hcomma : e.token.isPunct .comma = false) :
    k.Leaves ctx c e [entryOf (c.defaultName name)] d := by
  obtain ⟨hsame, -, hnext⟩ := hb.step hadmits.isCommon (Nat.le_of_eq hstop)
    (.inr (stops_of_endsName hends _))
  have ha := hnext.alike (Cut.endsBefore_of_last he (List.append_nil _).symm (by simp) hlast)
    (.inl hstop)
  exact ⟨⟨_, _, .default (hsame ▸ hadmits) (ha.isPunct_eq ▸ hcomma), ha, rfl⟩,
    fun hno => Token.isWord_congr hsame ▸ hno⟩

variable {tail : List (ImportSpecifier × List Node)} {entries : List ImportEntry}

/-- A name in braces stands behind the brace. -/
theorem Others.stop_le (h : Others ctx c (earlier ++ first :: tail) e) (hc : c.IsScan src)
    (hkind : first.1.kind = .named) : c.token.stop ≤ first.1.span.start := by
  generalize hitems : earlier ++ first :: tail = items at h
  cases h with
  | all =>
    have hfirst : first ∈ earlier ++ first :: tail := by simp
    rw [hitems, List.mem_singleton] at hfirst
    simp [hfirst] at hkind
  | braces hopen hlist =>
    have horder := (Grammar.inOrder_of_listing hlist hc.on.isScan_next).2.2.1
    rw [← hitems, List.map_append, List.map_cons] at horder
    exact horder.apart.2.1

/-- A name in braces is not the first thing of the names. -/
theorem Clause.start_lt (h : Clause ctx c (earlier ++ first :: tail) e) (hc : c.IsScan src)
    (hkind : first.1.kind = .named) : c.token.start < first.1.span.start := by
  generalize hitems : earlier ++ first :: tail = items at h
  cases h with
  | default =>
    have hfirst : first ∈ earlier ++ first :: tail := by simp
    rw [hitems, List.mem_singleton] at hfirst
    simp [hfirst, Cursor.defaultName] at hkind
  | both hadmits _ hothers =>
    cases earlier with
    | nil =>
      obtain ⟨rfl, -⟩ := List.cons.inj hitems
      simp [Cursor.defaultName] at hkind
    | cons default earlier =>
      obtain ⟨-, rfl⟩ := List.cons.inj hitems
      have hc₂ := hc.on.isScan_next.on.isScan_next
      have hle := hothers.stop_le hc₂ hkind
      have hlt := hc.on.solid_of_not_isMissing (Token.not_isMissing_of_word hadmits.choose_spec.1)
      have hstop := hc.on.stop_le_next
      have hstop₁ := hc.on.next.stop_le_next
      omega
  | others _ hothers =>
    subst hitems
    exact Nat.lt_of_lt_of_le (hothers.start_lt_stop hc) (hothers.stop_le hc hkind)

/-- A cut inside of braces leaves the braces, and what is cut is left to the lemmas on lists. -/
theorem Others.cut_listing (h : Others ctx c (earlier ++ first :: tail) e)
    (hkind : first.1.kind = .named) (hstart : first.1.span.start ≤ byteSize k.front)
    (hb : k.Before c d)
    (hcut : ∀ c d e, k.Before c d →
      Listing ctx .rcurly Grammar.importSpecifier c (first :: tail) e →
      ∃ items' e', Listing ctx .rcurly Grammar.importSpecifier d items' e' ∧ k.Alike e e' ∧
        items'.map entryOf = entries) :
    ∃ items' e', Others ctx d items' e' ∧ k.Alike e e' ∧
      items'.map entryOf = earlier.map entryOf ++ entries := by
  have hle := h.stop_le hb.whole hkind
  generalize hitems : earlier ++ first :: tail = items at h
  cases h with
  | all =>
    have hfirst : first ∈ earlier ++ first :: tail := by simp
    rw [hitems, List.mem_singleton] at hfirst
    simp [hfirst] at hkind
  | braces hopen hlist =>
    subst hitems
    obtain ⟨hopen', hnext⟩ := hb.step_punct hopen (.inl rfl) (Nat.le_trans hle hstart)
    obtain ⟨items', e', hlist', he, hentries⟩ := Grammar.listing_before (fun c d => hcut c d _)
      ⟨first, tail, rfl, hstart⟩ hlist hnext
    exact ⟨items', e'.next, .braces hopen' hlist', he.next.toAlike, hentries⟩

/-- A name in braces is cut out. -/
theorem Clause.cut_listing (h : Clause ctx c (earlier ++ first :: tail) e)
    (hkind : first.1.kind = .named) (hstart : first.1.span.start ≤ byteSize k.front)
    (hb : k.Before c d)
    (hcut : ∀ c d e, k.Before c d →
      Listing ctx .rcurly Grammar.importSpecifier c (first :: tail) e →
      ∃ items' e', Listing ctx .rcurly Grammar.importSpecifier d items' e' ∧ k.Alike e e' ∧
        items'.map entryOf = entries) :
    k.Leaves ctx c e (earlier.map entryOf ++ entries) d := by
  -- The cut is in the braces, so a default stands before it or there is none.
  have hne : ∀ name, first ≠ c.defaultName name := by
    rintro name rfl
    cases hkind
  generalize hitems : earlier ++ first :: tail = items at h
  cases h with
  | default =>
    have hfirst : first ∈ earlier ++ first :: tail := by simp
    rw [hitems, List.mem_singleton] at hfirst
    exact absurd hfirst (hne _)
  | both hadmits hcomma hothers =>
    cases earlier with
    | nil => exact absurd (List.cons.inj hitems).1 (hne _)
    | cons default earlier =>
      obtain ⟨rfl, rfl⟩ := List.cons.inj hitems
      have hc₁ := hb.whole.on.isScan_next
      have hle := hothers.stop_le hc₁.on.isScan_next hkind
      have hlt := hc₁.on.solid_of_isPunct hcomma
      have hlast := hc₁.on.last_le
      have hlast' := hc₁.on.next.last_le
      have hstop := hc₁.on.next.start_le
      rw [Cursor.next_lastStop] at hlast hlast'
      obtain ⟨hsame, -, hb₁⟩ := hb.step hadmits.isCommon (by omega) (.inl (by omega))
      obtain ⟨hcomma', hb₂⟩ := hb₁.step_punct hcomma (.inr (.inr rfl)) (by omega)
      obtain ⟨items', e', hothers', he, hentries⟩ := hothers.cut_listing hkind hstart hb₂ hcut
      refine ⟨⟨_, e', .both (hsame ▸ hadmits) hcomma' hothers', he, ?_⟩,
        fun hno => Token.isWord_congr hsame ▸ hno⟩
      simp only [List.map_cons, hentries, List.cons_append]
      rfl
  | others _ hothers =>
    subst hitems
    obtain ⟨items', e', hothers', he, hentries⟩ := hothers.cut_listing hkind hstart hb hcut
    have hno := hothers'.isIdentifier_eq_false
    exact ⟨⟨items', e', .others hno hothers', he, hentries⟩, fun _ =>
      Token.isWord_from_eq_false hno⟩

end VueSetup.Script
