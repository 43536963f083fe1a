import VueSetup.Proofs.Script.Clause

/-!
# VueSetup.Proofs.Script.Declared

What an import declares, and what it declares when a name is cut out of it.

A whole import is read word by word (`ReadsImport`). When the cut leaves some of its names, what
stands before them and behind them is read as before, so that the import is read with the names that
are left (`ReadsImport.cut`). What it declares is found again in its names and parts
(`ReadsImport.nameEntries_eq`).
-/

namespace VueSetup.Script

open Text Parse

variable {src : List Char} {ctx : Context} {c c' d e : Cursor} {k : Cut}
  {items : List (ImportSpecifier × List Node)} {item : ImportSpecifier × List Node}

/-! ### What stands around the names

Before the names there are one or two words, and behind them the module, its attributes and the end
of the statement. None of this is touched by a cut between the names. -/

/-- The cut starts behind the start of the token, or there if the token is a word. -/
def Cut.Spares (k : Cut) (c : Cursor) : Prop :=
  c.token.start < byteSize k.front ∨
    (c.token.start = byteSize k.front ∧ ∃ name escaped, c.token.kind = .word name escaped)

/-- Without the stretch, the names from `c` up to `e` leave those of the entries. -/
structure Cut.LeavesNames (k : Cut) (ctx : Context) (c e : Cursor) (entries : List ImportEntry) :
    Prop where
  spares : k.Spares c
  leaves : ∀ d, k.Before c d → k.Leaves ctx c e entries d

/-- A spared token starts before the cut or right at it. -/
theorem Cut.Spares.start_le (h : k.Spares c) : c.token.start ≤ byteSize k.front :=
  h.elim Nat.le_of_lt fun h => Nat.le_of_eq h.1

/-- A word ends before the next one, so that a cut which spares that one spares the word as well. -/
theorem Cut.Before.step_word (hb : k.Before c d) {name : String}
    (hkind : c.token.kind = .word name false) (hnext : k.Spares c.next) :
    c.token.kind = d.token.kind ∧ c.token.start = d.token.start ∧ k.Before c.next d.next := by
  have hle := hb.whole.on.next.last_le
  rw [Cursor.next_lastStop] at hle
  have hlt : c.token.stop < byteSize k.front := by
    rcases hnext with hlt | ⟨heq, name', escaped, hkind'⟩
    · omega
    · have := hb.whole.stop_lt_start hkind hkind'
      omega
  exact hb.step (by rw [hkind]; trivial) (Nat.le_of_lt hlt) (.inl hlt)

/-- Behind the cut the same words stand. -/
theorem Cut.Alike.isWord_eq (h : k.Alike c d) {w : String} : c.token.isWord w = d.token.isWord w :=
  Token.isWord_congr h.kind_eq

namespace Grammar

/-- An attribute is a key, a colon and a string. -/
theorem ensures_importAttribute : importAttribute.Ensures ctx c fun _ c' =>
    (∃ name, c.token.kind.exported? = some name) ∧ c.next.token.isPunct .colon = true ∧
      (∃ value, c.next.next.token.kind = .string value) ∧ c' = c.next.next.next := by
  simp [importAttribute, string]
  refine exported_exportName.imp ?_
  rintro n _ ⟨hexported, -, rfl⟩ hcolon
  split
  · next value hkind => simpa [hkind, hcolon] using ⟨_, hexported⟩
  · exact ensures_reject

/-- Behind the cut, an attribute is read as before. -/
theorem importAttribute_alike (ha : k.Alike c d) {n : Node}
    (hrun : importAttribute ctx c = some (n, c')) :
    ∃ n' d', importAttribute ctx d = some (n', d') ∧ k.Alike c' d' := by
  obtain ⟨⟨name, hname⟩, hcolon, ⟨value, hvalue⟩, rfl⟩ := ensures_importAttribute _ _ hrun
  have ha₂ := ha.next.next
  obtain ⟨key, hkey, -⟩ : ∃ n, exportName ctx d = some (n, d.next) ∧ exportText n = name :=
    run_exportName (ha.kind_eq ▸ hname)
  rw [ha.next.isPunct_eq] at hcolon
  rw [ha₂.kind_eq] at hvalue
  exact ⟨_, d.next.next.next, by simp [importAttribute, hkey, hcolon, string, hvalue]; rfl,
    ha₂.next.toAlike⟩

/-- Attributes are read as before, one after the other. -/
theorem importAttributes_behind (h : k.Behind c d) {ns : List Node}
    (hrun : importAttributes ctx c = some (ns, c')) :
    ∃ ns' d', importAttributes ctx d = some (ns', d') ∧ k.Behind c' d' := by
  have hword : (c.token.isWord "with" || (c.token.isWord "assert" && !c.token.afterLineEnd)) =
      (d.token.isWord "with" || (d.token.isWord "assert" && !d.token.afterLineEnd)) := by
    rw [h.isWord_eq, h.isWord_eq, h.afterLineEnd_eq]
  have hread : importAttributes.Ensures ctx c fun _ c' =>
      ((c.token.isWord "with" || (c.token.isWord "assert" && !c.token.afterLineEnd)) = true ∧
        c.next.token.isPunct .lcurly = true ∧
        ∃ ns e, Listing ctx .rcurly importAttribute c.next.next ns e ∧ c' = e.next) ∨
      ((c.token.isWord "with" || (c.token.isWord "assert" && !c.token.afterLineEnd)) = false ∧
        c' = c) := by
    simp only [importAttributes, ensures_bind, ensures_token, ensures_ite, ensures_advance,
      ensures_expect, ensures_pure, Bool.not_eq_true]
    refine ⟨fun hattrs hopen => (ensures_listing .rcurly importAttribute _).imp ?_,
      fun hno => .inr ⟨hno, trivial⟩⟩
    rintro ns _ ⟨e, hlist, rfl⟩
    exact .inl ⟨hattrs, hopen, ns, e, hlist, rfl⟩
  rcases hread _ _ hrun with ⟨hattrs, hopen, ns, e, hlist, rfl⟩ | ⟨hno, rfl⟩
  · obtain ⟨ns', e', hlist', he, -⟩ := hlist.alike (f := fun _ => ())
      (fun _ _ _ _ ha hrun _ => by
        obtain ⟨n', d', hrun', ha'⟩ := importAttribute_alike ha hrun
        exact ⟨n', d', hrun', ha', rfl⟩) h.next.next.toAlike
    have hlength := hlist'.length_lt h.next.next.rest fun c n c' hc hrun => by
      obtain ⟨-, -, -, rfl⟩ := ensures_importAttribute _ _ hrun
      have hread : c.Reads [c.token.kind, c.next.token.kind, c.next.next.token.kind]
          c.next.next.next := ⟨rfl, rfl, rfl, rfl⟩
      exact ⟨hc.reads hread, hc.start_le_of_reads hread⟩
    rw [h.next.isPunct_eq] at hopen
    rw [hword] at hattrs
    refine ⟨ns', e'.next, ?_, he.next⟩
    simp only [importAttributes, run_bind, run_token, Option.bind_some, hattrs, run_ite, if_true]
    simp [hopen, listTo_of_listing hlist' hlength]
  · rw [hword] at hno
    refine ⟨[], d, ?_, h⟩
    simp only [importAttributes, run_bind, run_token, Option.bind_some, hno, run_ite]
    rfl

/-- The module is a string, with the attributes behind it. -/
theorem ensures_string_moduleSource : moduleSource.Ensures ctx c fun ns c' => ∃ value attributes,
    c.token.kind = .string value ∧ ns = .string ⟨c.token.start, c.token.stop⟩ value :: attributes ∧
      importAttributes ctx c.next = some (attributes, c') := by
  simp only [moduleSource, string, ensures_bind, ensures_token]
  split
  · next value hkind =>
    simp only [ensures_bind, ensures_advance, ensures_pure]
    exact fun attributes c' hattributes => ⟨value, attributes, hkind, rfl, hattributes⟩
  · exact ensures_reject

/-- Behind the cut, the module is read as before. -/
theorem moduleSource_behind (h : k.Behind c d) {ns : List Node}
    (hrun : moduleSource ctx c = some (ns, c')) :
    c.token.isString = true ∧ ∃ ns' d', moduleSource ctx d = some (ns', d') ∧ k.Behind c' d' ∧
      ns'.head?.map exportText = ns.head?.map exportText := by
  obtain ⟨value, attributes, hkind, rfl, hattributes⟩ := ensures_string_moduleSource _ _ hrun
  obtain ⟨attributes', d', hattributes', h'⟩ := importAttributes_behind h.next hattributes
  have hkind' := h.kind_eq ▸ hkind
  exact ⟨by simp [Token.isString, hkind],
    .string ⟨d.token.start, d.token.stop⟩ value :: attributes', d',
    by simp [moduleSource, string, hkind', hattributes'], h', rfl⟩

/-- Behind the cut, a statement ends as before. -/
theorem endStatement_behind (h : k.Behind c d) (hrun : endStatement ctx c = some ((), c')) :
    ∃ d', endStatement ctx d = some ((), d') ∧ k.Behind c' d' := by
  have hends : ∀ c : Cursor, endStatement ctx c =
      if c.token.isPunct .semicolon || c.token.isPunct .rcurly || c.token.kind == .endOfText ||
        c.token.afterLineEnd then
        some ((), if c.token.isPunct .semicolon then c.next else c) else none := by
    intro c
    by_cases hsemicolon : c.token.isPunct .semicolon = true
    · simp [endStatement, mayEnd, hsemicolon]
    · simp only [endStatement, mayEnd, run_bind, run_token, Option.bind_some, run_pure, run_require,
        run_discard, run_eat?]
      split
      · simp [hsemicolon]
      · rfl
  rw [hends, h.isPunct_eq, h.isPunct_eq, h.kind_eq, h.afterLineEnd_eq] at hrun
  split at hrun
  · next hend =>
    cases hrun
    refine ⟨_, by rw [hends, if_pos hend], ?_⟩
    split
    · exact h.next
    · exact h
  · cases hrun

end Grammar

/-! ### What an import declares

The names of the tree and its parts are two lists, and only a renamed name has a part. Which part
belongs to which name is found again by their places. -/

/-- What names stand for, and the parts that are left. A part belongs to a name if it ends in it. -/
def nameEntries : List ImportSpecifier → List Node → List ImportEntry × List Node
  | [], parts => ([], parts)
  | s :: specifiers, parts =>
    let own := parts.head?.filter fun part => s.kind == .named && part.span.stop ≤ s.span.stop
    let found := nameEntries specifiers (if own.isSome then parts.tail else parts)
    (s.entry own :: found.1, found.2)

section

variable {s : ImportSpecifier} {specifiers : List ImportSpecifier} {part : Node} {parts : List Node}

/-- The first part lies in the name, and so it is its own. -/
theorem nameEntries_cons_own (hkind : s.kind = .named) (hle : part.span.stop ≤ s.span.stop) :
    nameEntries (s :: specifiers) (part :: parts) =
      (s.entry (some part) :: (nameEntries specifiers parts).1,
        (nameEntries specifiers parts).2) := by
  simp [nameEntries, hkind, Option.filter, hle]

/-- The first part lies behind the name, and so it belongs to another. -/
theorem nameEntries_cons_none
    (h : s.kind = .named → ∀ part ∈ parts.head?, s.span.stop < part.span.stop) :
    nameEntries (s :: specifiers) parts =
      (s.entry none :: (nameEntries specifiers parts).1, (nameEntries specifiers parts).2) := by
  have hown : (parts.head?.filter fun part => s.kind == .named && part.span.stop ≤ s.span.stop) =
      none := by
    rw [Option.filter_eq_none_iff]
    intro part hpart hown
    simp only [Bool.and_eq_true, beq_iff_eq, decide_eq_true_eq] at hown
    exact absurd hown.2 (Nat.not_le.mpr (h hown.1 part hpart))
  simp [nameEntries, hown]

end

variable {parts : List Node}

/-- A name in braces takes just the part that it was read with. -/
theorem IsNamed.nameEntries_cons (h : IsNamed ctx c item c') (hc : c.IsScan src)
    (hparts : ∀ part ∈ parts.head?, c'.lastStop < part.span.stop)
    (specifiers : List ImportSpecifier) :
    nameEntries (item.1 :: specifiers) (item.2 ++ parts) =
        (entryOf item :: (nameEntries specifiers parts).1, (nameEntries specifiers parts).2) ∧
      ∀ part ∈ (item.2 ++ parts).head?, c.lastStop < part.span.stop := by
  obtain ⟨s, own⟩ := item
  have hspan : s.span = ⟨c.token.start, c'.lastStop⟩ := h.span
  have hlast := hc.on.last_le
  rcases h.parts with hown | ⟨part, hown, hlt, hle⟩
  · obtain rfl : own = [] := hown
    refine ⟨nameEntries_cons_none fun _ => by rw [hspan]; exact hparts, fun part hpart => ?_⟩
    have hstop := h.stop_le hc
    have hle := hc.on.start_le
    have hlt := hparts part hpart
    omega
  · obtain rfl : own = [part] := hown
    refine ⟨nameEntries_cons_own h.kind (by rw [hspan]; exact hle), fun part' hpart => ?_⟩
    obtain rfl : part = part' := by simpa using hpart
    exact Nat.lt_of_le_of_lt hlast hlt

/-- By induction on the listing. The parts that are left stand behind all names. -/
theorem nameEntries_of_listing (h : Listing ctx .rcurly Grammar.importSpecifier c items e)
    (hc : c.IsScan src) (hparts : ∀ part ∈ parts.head?, e.lastStop < part.span.stop) :
    nameEntries (items.map (·.1)) (items.flatMap (·.2) ++ parts) = (items.map entryOf, parts) ∧
      ∀ part ∈ (items.flatMap (·.2) ++ parts).head?, c.lastStop < part.span.stop := by
  induction h with
  | nil => exact ⟨rfl, by simpa using hparts⟩
  | last _ hrun _ _ =>
    have hnamed := Grammar.isNamed_importSpecifier hc.on _ _ hrun
    simpa [nameEntries] using hnamed.nameEntries_cons hc hparts []
  | cons _ hrun hcomma _ ih =>
    have hnamed := Grammar.isNamed_importSpecifier hc.on _ _ hrun
    have hc₁ := (Grammar.ensures_named hc.on _ _ hrun).1
    obtain ⟨hrest, hbehind⟩ := ih hc₁.on.isScan_next hparts
    obtain ⟨hnames, hfirst⟩ := hnamed.nameEntries_cons hc (fun part hpart =>
      Nat.lt_of_le_of_lt (Nat.le_trans hc₁.on.last_le hc₁.on.start_le) (hbehind part hpart)) _
    rw [hrest] at hnames
    rw [List.map_cons, List.flatMap_cons, List.append_assoc]
    exact ⟨hnames, hfirst⟩

/-- The name of a whole module has no part. -/
theorem nameEntries_of_others (h : Others ctx c items e) (hc : c.IsScan src)
    (hparts : ∀ part ∈ parts.head?, e.lastStop < part.span.stop) :
    nameEntries (items.map (·.1)) (items.flatMap (·.2) ++ parts) = (items.map entryOf, parts) := by
  cases h with
  | all => exact nameEntries_cons_none nofun
  | braces _ hlist =>
    have hclose := (Grammar.inOrder_of_listing hlist hc.on.isScan_next).1.on
    have hle := Nat.le_trans hclose.last_le hclose.start_le
    exact (nameEntries_of_listing hlist hc.on.isScan_next fun part hpart =>
      Nat.lt_of_le_of_lt hle (hparts part hpart)).1

/-- The parts of an import tell how its names are exported. -/
theorem nameEntries_of_clause (h : Clause ctx c items e) (hc : c.IsScan src)
    (hparts : ∀ part ∈ parts.head?, e.lastStop < part.span.stop) :
    nameEntries (items.map (·.1)) (items.flatMap (·.2) ++ parts) = (items.map entryOf, parts) := by
  cases h with
  | default => exact nameEntries_cons_none nofun
  | both _ _ hothers =>
    have hrest := nameEntries_of_others hothers hc.on.isScan_next.on.isScan_next hparts
    simp only [Cursor.defaultName, List.map_cons, List.flatMap_cons, List.nil_append]
    rw [nameEntries_cons_none (by simp), hrest]
    rfl
  | others _ hothers => exact nameEntries_of_others hothers hc hparts

/-- Names start with a word, a star or a brace. -/
theorem Clause.isString_eq_false (h : Clause ctx c items e) : c.token.isString = false := by
  have hname : ∀ {name}, ctx.Admits c.token.kind name → c.token.isString = false := by
    rintro name ⟨escaped, hkind, -⟩
    simp [Token.isString, hkind]
  cases h with
  | default hadmits => exact hname hadmits
  | both hadmits => exact hname hadmits
  | others _ hothers =>
    cases hothers with
    | all hstar => simp [Token.isString, beq_iff_eq.mp hstar]
    | braces hopen => simp [Token.isString, beq_iff_eq.mp hopen]

/-! ### A whole import

The reading of an import is kept as a row of cursors, so that a cut is followed through it: the
words before the names on the one side of the cut, the module and the end of the statement on the
other. -/

/-- An import is read: behind its first word and perhaps the word `type`, its names stand from the
cursor `c₁` up to the word `from` at `e`, and the module behind that ends at `e'`. -/
structure ReadsImport (ctx : Context) (c c₁ e e' c' : Cursor)
    (items : List (ImportSpecifier × List Node)) (source : List Node) : Prop where
  passed : c₁ = c.next ∨ (c₁ = c.next.next ∧ ctx.dialect.types = true ∧
    c.next.token.isWord "type" = true ∧ c₁.token.isWord "from" = false)
  clause : Clause ctx c₁ items e
  from_word : e.token.isWord "from" = true
  source : Grammar.moduleSource ctx e.next = some (source, e')
  ends : endStatement ctx e' = some ((), c')

namespace ReadsImport

variable {c₁ e' : Cursor} {source : List Node}

/-- Behind the first word stands a word, a star or a brace. -/
theorem next_isPunct (h : ReadsImport ctx c c₁ e e' c' items source) :
    c.next.token.isPunct .dot = false ∧ c.next.token.isPunct .lparen = false := by
  have hfirst : ∀ {d : Cursor}, Clause ctx d items e →
      d.token.isPunct .dot = false ∧ d.token.isPunct .lparen = false := by
    intro d hclause
    cases hclause with
    | default hadmits => exact ⟨hadmits.isPunct_eq_false _, hadmits.isPunct_eq_false _⟩
    | both hadmits => exact ⟨hadmits.isPunct_eq_false _, hadmits.isPunct_eq_false _⟩
    | others _ hothers =>
      cases hothers with
      | all hstar => simp [Token.isPunct, beq_iff_eq.mp hstar]
      | braces hopen => simp [Token.isPunct, beq_iff_eq.mp hopen]
  rcases h.passed with rfl | ⟨rfl, -, htype, -⟩
  · exact hfirst h.clause
  · simp [Token.isPunct, Token.kind_of_isWord htype]

/-- When names are cut out, the import is read without them. -/
theorem cut (h : ReadsImport ctx c c₁ e e' c' items source) (hword : c.token.isWord "import" = true)
    (hb : k.Before c d) {entries : List ImportEntry} (hnames : k.LeavesNames ctx c₁ e entries) :
    ∃ d₁ f f' d' items' source', ReadsImport ctx d d₁ f f' d' items' source' ∧
      d.token.isWord "import" = true ∧ c.token.start = d.token.start ∧ k.Behind c' d' ∧
      items'.map entryOf = entries ∧
      source'.head?.map Grammar.exportText = source.head?.map Grammar.exportText := by
  have hkind := Token.kind_of_isWord hword
  obtain ⟨d₁, hb₁, ⟨hsame, hstart⟩, hpassed⟩ : ∃ d₁, k.Before c₁ d₁ ∧
      (c.token.kind = d.token.kind ∧ c.token.start = d.token.start) ∧ (d₁ = d.next ∨
        (d₁ = d.next.next ∧ ctx.dialect.types = true ∧ d.next.token.isWord "type" = true ∧
          c₁.token.isWord "from" = false)) := by
    rcases h.passed with rfl | ⟨rfl, htypes, htype, hno⟩
    · obtain ⟨hsame, hstart, hb₁⟩ := hb.step_word hkind hnames.spares
      exact ⟨d.next, hb₁, ⟨hsame, hstart⟩, .inl rfl⟩
    · have hkind₁ := Token.kind_of_isWord htype
      have hlt := hb.whole.on.next.solid_of_not_isMissing (Token.not_isMissing_of_word hkind₁)
      have hle := hb.whole.on.next.next.last_le
      have hspares := hnames.spares.start_le
      rw [Cursor.next_lastStop] at hle
      obtain ⟨hsame, hstart, hb₁⟩ := hb.step_word hkind (.inl (by omega))
      obtain ⟨hsame₁, -, hb₂⟩ := hb₁.step_word hkind₁ hnames.spares
      exact ⟨d.next.next, hb₂, ⟨hsame, hstart⟩,
        .inr ⟨rfl, htypes, Token.isWord_congr hsame₁ ▸ htype, hno⟩⟩
  obtain ⟨⟨items', f, hclause, hf, hentries⟩, hfrom⟩ := hnames.leaves d₁ hb₁
  obtain ⟨-, source', f', hsource, hf', htext⟩ := Grammar.moduleSource_behind hf.next h.source
  obtain ⟨d', hends, hd'⟩ := Grammar.endStatement_behind hf' h.ends
  refine ⟨d₁, f, f', d', items', source', ⟨?_, hclause, ?_, hsource, hends⟩,
    Token.isWord_congr hsame ▸ hword, hstart, hd', hentries, htext⟩
  · exact hpassed.imp_right fun h => ⟨h.1, h.2.1, h.2.2.1, hfrom h.2.2.2⟩
  · exact hf.isWord_eq ▸ h.from_word

/-- The cursors of the reading are scans. -/
theorem isScan_names (h : ReadsImport ctx c c₁ e e' c' items source) (hc : c.IsScan src) :
    c₁.IsScan src := by
  rcases h.passed with rfl | ⟨rfl, -⟩
  · exact hc.on.isScan_next
  · exact hc.on.isScan_next.on.isScan_next

/-- The word behind the names is scanned as well. -/
theorem isScan_from (h : ReadsImport ctx c c₁ e e' c' items source) (hc : c.IsScan src) :
    e.IsScan src :=
  (h.clause.importNames (h.isScan_names hc)).1

/-- What an import declares is told by its names and parts. -/
theorem nameEntries_eq (h : ReadsImport ctx c c₁ e e' c' items source) (hc : c.IsScan src) :
    nameEntries (items.map (·.1)) (items.flatMap (·.2) ++ source) =
      (items.map entryOf, source) := by
  refine nameEntries_of_clause h.clause (h.isScan_names hc) fun part hpart => ?_
  have he := (h.isScan_from hc).on
  obtain ⟨value, attributes, -, rfl, -⟩ := Grammar.ensures_string_moduleSource _ _ h.source
  obtain rfl : Node.string ⟨e.next.token.start, e.next.token.stop⟩ value = part := by
    simpa using hpart
  have hlt := he.solid_of_not_isMissing
    (Token.not_isMissing_of_word (Token.kind_of_isWord h.from_word))
  have hlast := he.last_le
  have hnext := he.next.last_le
  rw [Cursor.next_lastStop] at hnext
  have hstop := he.next.start_le
  simp only [Node.span]
  omega

end ReadsImport

namespace Grammar

/-- An import of several names is read so. -/
theorem readsImport_importDeclaration : importDeclaration.Ensures ctx c fun n c' =>
    ∀ span specifiers parts, n = .importDeclaration span specifiers parts → 1 < specifiers.length →
      ∃ c₁ e e' items source, ReadsImport ctx c c₁ e e' c' items source ∧
        span = ⟨c.token.start, c'.lastStop⟩ ∧ specifiers = items.map (·.1) ∧
        parts = items.flatMap (·.2) ++ source := by
  have hpassed : skipImportWord.Ensures ctx c.next fun _ d => ∀ items e, 1 < items.length →
      Clause ctx d items e → d = c.next ∨ (d = c.next.next ∧ ctx.dialect.types = true ∧
        c.next.token.isWord "type" = true ∧ d.token.isWord "from" = false) :=
    fun _ d hrun items e hseveral => passed_skipImportWord hseveral _ d hrun
  have hclause : ∀ c₁, importClause.Ensures ctx c₁ fun found c₂ => 1 < found.1.length →
      ∃ items e, Clause ctx c₁ items e ∧ e.token.isWord "from" = true ∧ c₂ = e.next ∧
        found = (items.map (·.1), items.flatMap (·.2)) := by
    intro c₁
    simp only [importClause, ensures_bind, ensures_token, ensures_ite, ensures_pure,
      ensures_expectWord]
    refine ⟨fun _ => by simp, fun _ => ensures_importSpecifiers.imp ?_⟩
    rintro found e ⟨items, hclause, rfl⟩ hfrom -
    exact ⟨items, e, hclause, hfrom, rfl, rfl⟩
  simp only [importDeclaration, importEquals]
  simp
  intro _
  refine hpassed.imp fun _ c₁ hpassed => (hclause c₁).imp fun found c₂ hnames => ?_
  intro source e' hsource _ c' hends hseveral
  obtain ⟨items, e, hread, hfrom, rfl, rfl⟩ := hnames hseveral
  have hpassed := hpassed items e (by simpa using hseveral) hread
  exact ⟨c₁, e, e', items, source, ⟨hpassed, hread, hfrom, hsource, hends⟩, rfl, rfl⟩

/-- An import of several names starts at its word, from which it is read. -/
theorem exists_readsImport {dialect : Dialect} {span : Span} {specifiers : List ImportSpecifier}
    {parts : List Node} (h : (Node.importDeclaration span specifiers parts).IsImport dialect src)
    (hseveral : 1 < specifiers.length) :
    ∃ c c₁ e e' c' items source, c.IsScan src ∧ c.token.isWord "import" = true ∧
      c.lastStop = c.token.start ∧ ReadsImport { dialect } c c₁ e e' c' items source ∧
      span = ⟨c.token.start, c'.lastStop⟩ ∧ specifiers = items.map (·.1) ∧
      parts = items.flatMap (·.2) ++ source := by
  obtain ⟨c₀, c', hc₀, hword, -, -, hrun⟩ := h
  obtain ⟨c, hc, hlast, hword', hstart, hnext⟩ := hc₀.exists_isScan hword
  have hsame : importDeclaration { dialect } c = importDeclaration { dialect } c₀ := by
    simp only [importDeclaration, run_bind, run_start, run_advance, Option.bind_some, hstart, hnext]
  obtain ⟨c₁, e, e', items, source, hread, rfl, hspecifiers, hparts⟩ :=
    readsImport_importDeclaration _ _ (hsame.trans hrun) _ _ _ rfl hseveral
  exact ⟨c, c₁, e, e', c', items, source, hc, hword', hlast.trans hstart.symm, hread, rfl,
    hspecifiers, hparts⟩

/-- What is read so is an import. -/
theorem run_importDeclaration {c₁ e' : Cursor} {source : List Node}
    (h : ReadsImport ctx c c₁ e e' c' items source) (hc : c.IsScan src) :
    importDeclaration ctx c = some (.importDeclaration ⟨c.token.start, c'.lastStop⟩
      (items.map (·.1))
      (items.flatMap (·.2) ++ source), c') := by
  obtain ⟨hpassed, hclause, hfrom, hsource, hends⟩ := h
  have hc₁ : c₁.IsScan src := by
    rcases hpassed with rfl | ⟨rfl, -⟩
    · exact hc.on.isScan_next
    · exact hc.on.isScan_next.on.isScan_next
  obtain ⟨value, attributes, hstring, -⟩ := ensures_string_moduleSource _ _ hsource
  obtain ⟨hskip, hequals⟩ := run_skipImportWord hclause hfrom (by simp [Token.isString, hstring])
    hpassed
  have hno : c₁.token.isString = false := hclause.isString_eq_false
  have hnames : importClause ctx c₁ = some ((items.map (·.1), items.flatMap (·.2)), e.next) := by
    simp [importClause, hno, run_importSpecifiers hclause hc₁, hfrom]
  simp only [importDeclaration, run_bind, run_start, run_advance, run_token, run_peek,
    run_peekSecond, run_hasTypes, Option.bind_some, hequals, run_ite]
  simp [hskip, hnames, hsource, hends]

variable {g : Grammar} {c₁ e' : Cursor} {source : List Node}

/-- A statement that starts with the word `import` is read as an import. -/
theorem run_statementRule_import (h : ReadsImport ctx c c₁ e e' c' items source)
    (hword : c.token.isWord "import" = true) (hc : c.IsScan src) :
    g.statementRule false ctx c = some (.importDeclaration ⟨c.token.start, c'.lastStop⟩
      (items.map (·.1)) (items.flatMap (·.2) ++ source), c') := by
  obtain ⟨n, hn⟩ : ∃ n, c.bound = n + 1 := ⟨_, hc.on.bound_eq⟩
  have hkind := Token.kind_of_isWord hword
  have hpunct : ∀ p, c.token.isPunct p = false := by
    intro p
    simp [Token.isPunct, hkind]
  have hdecorators : decorators g ctx c = some ([], c) := by
    simp [decorators, until?, hn, untilFuel, hpunct]
  have hother : ∀ w, c.token.isWord w = decide ("import" = w) := by
    intro w
    rw [Bool.eq_iff_iff]
    simp [Token.isWord, hkind]
  have hnext := h.next_isPunct
  have hwords : ∀ ws, c.token.isOneOf ws = ws.contains "import" := by
    intro ws
    simp [Token.isOneOf, hkind]
  rw [statementRule, run_step hdecorators, run_step run_start, run_step run_token,
    run_step run_peek]
  simp [hpunct, hother, hwords, atUsing, atFunction, hnext, run_importDeclaration h hc]

end Grammar

/-! ### A statement in its place

The statement is said to be read at its place in a text and on every level of the grammar, since the
rule for imports refers to no other rule. So what stands before and behind it does not matter. -/

/-- Between what stands before and behind it, the text is read as the statement, on every level of
the grammar. -/
structure ReadsStatement (dialect : Dialect) (before text behind : List Char) (n : Node) :
    Prop where
  span : n.span = ⟨byteSize before, byteSize (before ++ text)⟩
  run : ∀ g : Grammar, g.statementRule false { dialect }
      (Cursor.scanAt ((before ++ (text ++ behind)).length + 1) (byteSize before) (text ++ behind)) =
    some (n, Cursor.scanAt ((before ++ (text ++ behind)).length + 1) (byteSize (before ++ text))
      behind)

/-- A scan is told by where the last token ends. -/
theorem Cursor.IsScan.eq_scanAt (h : c.IsScan src) {before cs : List Char}
    (hsrc : src = before ++ cs)
    (hlast : c.lastStop = byteSize before) :
    c = Cursor.scanAt (src.length + 1) (byteSize before) cs := by
  obtain ⟨before', cs', hsrc', rfl⟩ := h
  rw [Cursor.scanAt_lastStop] at hlast
  obtain ⟨rfl, rfl⟩ := append_inj_of_byteSize_eq (hsrc'.symm.trans hsrc) hlast
  rfl

/-- The cursors of a reading are scans of the text that the statement stands in. -/
theorem ReadsImport.readsStatement {dialect : Dialect} {c₁ e' : Cursor} {source : List Node}
    (h : ReadsImport { dialect } c c₁ e e' c' items source) (hword : c.token.isWord "import" = true)
    {before text behind : List Char} (hc : c.IsScan (before ++ (text ++ behind)))
    (hc' : c'.IsScan (before ++ (text ++ behind))) (hstart : c.token.start = byteSize before)
    (hlast : c.lastStop = byteSize before) (hstop : c'.lastStop = byteSize (before ++ text)) :
    ReadsStatement dialect before text behind (.importDeclaration ⟨c.token.start, c'.lastStop⟩
      (items.map (·.1)) (items.flatMap (·.2) ++ source)) := by
  refine ⟨by rw [← hstart, ← hstop]; rfl, fun g => ?_⟩
  rw [← hc.eq_scanAt rfl hlast, ← hc'.eq_scanAt (List.append_assoc _ _ _).symm hstop]
  exact Grammar.run_statementRule_import h hword hc

end VueSetup.Script
