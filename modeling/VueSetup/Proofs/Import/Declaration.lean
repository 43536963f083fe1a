import VueSetup.Proofs.Import.Range
import VueSetup.Proofs.Script.Declared

/-!
# VueSetup.Proofs.Import.Declaration

What is left of a declaration when one of its names is taken out.

The stretch that goes is a cut through the names of the declaration (`leavesNames_specifierRange`).
Where the comma behind a default and the brace behind a name are the first ones that can be found
(`IsSeparate`), what is left is read as an import of just the other names (`removeUnused?_leaves`).
A comma in a comment before them is found instead, and then what is left cannot be read
(`removeUnused?_commentedComma`).
-/

namespace VueSetup

open Script (Clause Context Cursor Cut Dialect EndsName ImportEntry ImportSpecifier Node Program
  ReadsImport ReadsStatement entryOf fillerText fillersBehind nameEntries tokenBehind)
open Script.Parse (Listing)
open Text (byteSize byteSize_append suffixFrom suffixFrom_append)

namespace Import

variable {src : List Char} {ctx : Context} {c e : Cursor}

/-! ### What is looked for in the text

The stretch ends at a comma or a brace that is looked for character by character. It is the token
that is meant if no comment before it holds the same character. -/

/-- Behind the last token stand fillers, and then the next token. -/
theorem suffixFrom_lastStop (hc : c.On src) :
    suffixFrom src c.lastStop = fillerText (fillersBehind src c.lastStop) ++ c.here := by
  obtain ⟨before, fs, rfl, hsize, hfills, -⟩ := hc.exists_fills
  rw [← hsize, suffixFrom_append, hfills.fillersBehind_eq]

/-- A character at the head of a token is found there, if none stands in the comments before it. -/
theorem add_sizeThrough (hc : c.On src) {ch : Char} {rest : List Char} (hhere : c.here = ch :: rest)
    (hfree : ch ∉ fillerText (fillersBehind src c.lastStop)) :
    c.lastStop + sizeThrough ch (suffixFrom src c.lastStop) = c.token.start + ch.utf8Size := by
  rw [suffixFrom_lastStop hc, hhere, sizeThrough_append hfree, hc.gap, tokenBehind, byteSize_append,
    Text.byteSize_cons, Text.byteSize_nil]
  omega

/-- A character behind a comma is found, if none stands in the comments around the comma. -/
theorem add_sizeThrough_comma (hc : c.IsScan src) (hcomma : c.token.isPunct .comma = true)
    {ch : Char}
    {rest : List Char} (hhere : c.next.here = ch :: rest) (hne : ch ≠ ',')
    (hfree : ch ∉ fillerText (fillersBehind src c.lastStop))
    (hfree' : ch ∉ fillerText (fillersBehind src c.token.stop)) :
    c.lastStop + sizeThrough ch (suffixFrom src c.lastStop) = c.next.token.start + ch.utf8Size := by
  obtain ⟨hsplit, hstop⟩ := hc.here_eq_of_comma hcomma
  obtain ⟨before, hsrc, hsize⟩ := hc.on.behind
  have hbehind : c.behind = fillerText (fillersBehind src c.token.stop) ++ ch :: rest := by
    have hsuffix := suffixFrom_lastStop hc.on.next
    rw [Cursor.next_lastStop, hhere] at hsuffix
    rw [← hsuffix, hsrc, ← hsize, suffixFrom_append]
  rw [suffixFrom_lastStop hc.on, hsplit, hbehind, ← List.cons_append, ← List.append_assoc,
    sizeThrough_append (by simp [hfree, hfree', hne]), hc.on.next.gap, tokenBehind,
    Cursor.next_lastStop]
  have hgap := hc.on.gap
  have hcomma : ','.utf8Size = 1 := by decide
  rw [tokenBehind] at hgap
  simp only [byteSize_append, Text.byteSize_cons, Text.byteSize_nil]
  omega

/-- The first brace behind the offset is the next token or follows a comma, and no name goes on
behind it. -/
structure ClosesApart (src : List Char) (pos : Nat) : Prop where
  free : '}' ∉ fillerText (fillersBehind src pos)
  free_behind_comma : (suffixFrom src (tokenBehind src pos)).head? = some ',' →
    '}' ∉ fillerText (fillersBehind src (tokenBehind src pos + 1))
  ends : EndsName (suffixFrom src (pos + sizeThrough '}' (suffixFrom src pos)))

/-- The comma behind a default that is taken out is the first one, and so is the brace behind a name
that is taken out with its braces. -/
structure IsSeparate (src : List Char) (specifiers : List ImportSpecifier) (s : ImportSpecifier) :
    Prop where
  comma : s.kind = .default → ',' ∉ fillerText (fillersBehind src s.span.stop)
  brace : s.kind = .named → specifiers.countP (·.kind == .named) = 1 → ClosesApart src s.span.stop

/-- The brace that is found is the one that closes the names. -/
theorem ClosesApart.add_sizeThrough_eq {item : ImportSpecifier × List Node}
    (h : Listing ctx .rcurly Script.Grammar.importSpecifier c [item] e) (hc : c.IsScan src)
    (hcloses : ClosesApart src item.1.span.stop) :
    item.1.span.stop + sizeThrough '}' (suffixFrom src item.1.span.stop) = e.token.stop := by
  have hbrace : '}'.utf8Size = 1 := by decide
  have hitem : ∀ c₁, Script.Grammar.importSpecifier ctx c = some (item, c₁) →
      c₁.IsScan src ∧ item.1.span.stop = c₁.lastStop := fun c₁ hrun =>
    ⟨(Script.Grammar.ensures_named hc.on _ _ hrun).1,
      (Script.Grammar.ensures_named hc.on _ _ hrun).2.2.2.1⟩
  cases h with
  | last _ hrun _ hclose =>
    obtain ⟨he, hstop⟩ := hitem _ hrun
    obtain ⟨rest, hhere⟩ := he.here_of_rcurly hclose
    rw [hstop] at hcloses ⊢
    rw [add_sizeThrough he.on hhere hcloses.free, hbrace,
      Script.Grammar.stop_of_isBrace he.on hclose (.inr rfl)]
  | cons _ hrun hcomma hnil =>
    obtain ⟨hc₁, hstop⟩ := hitem _ hrun
    cases hnil with
    | nil hclose =>
      have he := hc₁.on.isScan_next
      obtain ⟨rest, hhere⟩ := he.here_of_rcurly hclose
      obtain ⟨hsplit, hnext⟩ := hc₁.here_eq_of_comma hcomma
      obtain ⟨before, hsrc, hsize⟩ := hc₁.on.here
      rw [hstop] at hcloses ⊢
      have hfree := hcloses.free_behind_comma (by
        rw [← hc₁.on.gap, ← hsize, hsrc, suffixFrom_append, hsplit]
        rfl)
      rw [← hc₁.on.gap, ← hnext] at hfree
      rw [add_sizeThrough_comma hc₁ hcomma hhere (by decide) hcloses.free hfree, hbrace,
        Script.Grammar.stop_of_isBrace he.on hclose (.inr rfl)]

/-! ### The names that are left

Each way of taking a name out is a cut through the names of the declaration, and leaves a row of
names that can be read. Which way it is depends on the kind of the name and on its place. -/

section

variable {k : Cut} {item first next previous : ImportSpecifier × List Node}
  {earlier later : List (ImportSpecifier × List Node)}

/-- A default is taken out with the first comma behind it. -/
theorem leaves_of_default (h : Clause ctx c (item :: next :: later) e) (hc : c.IsScan k.whole)
    (hkind : item.1.kind = .default)
    (hfree : ',' ∉ fillerText (fillersBehind k.whole item.1.span.stop))
    (hrange : specifierRange k.whole ((item :: next :: later).map (·.1)) 0 item.1 =
      ⟨byteSize k.front, byteSize k.front + byteSize k.piece⟩) :
    k.LeavesNames ctx c e ((next :: later).map entryOf) := by
  obtain ⟨name, rfl, hadmits, hcomma, hothers⟩ := h.both_of_kind_ne hc (by simp [hkind])
  have hc₁ := hc.on.isScan_next
  obtain ⟨hhere, hstop⟩ := hc₁.here_eq_of_comma hcomma
  obtain ⟨before, hwhole, hsize⟩ := hc₁.on.behind
  have hfound : c.token.stop + sizeThrough ',' (suffixFrom k.whole c.token.stop) =
      c.next.token.stop :=
    (add_sizeThrough hc₁.on hhere hfree).trans hstop.symm
  have hsuffix : suffixFrom k.whole c.next.token.stop = c.next.behind := by
    rw [hwhole, ← hsize, suffixFrom_append]
  simp only [specifierRange, Cursor.defaultName, hfound, hsuffix, Span.mk.injEq] at hrange
  obtain ⟨hstart, hend⟩ := hrange
  -- the stretch ends with the blanks behind the comma
  obtain ⟨blanks, rest, hbehind, hblanks⟩ : ∃ blanks rest, c.next.behind = blanks ++ rest ∧
      blanks = c.next.behind.takeWhile Text.isBlank :=
        ⟨_, _, List.takeWhile_append_dropWhile.symm, rfl⟩
  rw [← hblanks] at hend
  have hle : byteSize k.front ≤ byteSize before := by
    have hfirst := hc.on.start_le
    have hsecond := hc₁.on.last_le
    rw [Cursor.next_lastStop] at hsecond
    omega
  rw [Cut.whole] at hwhole
  obtain ⟨piece, rfl, hsplit⟩ := Text.append_eq_append_of_byteSize_le hwhole hle
  rw [byteSize_append] at hsize
  rw [hbehind, ← List.append_assoc] at hsplit
  obtain ⟨hpiece, -⟩ := Text.append_inj_of_byteSize_eq hsplit (by rw [byteSize_append]; omega)
  have hends : k.EndsBefore c.next.next := by
    refine Cut.endsBefore_of_last hc₁.on.isScan_next hpiece (fun ch hch => ?_) hsize.symm
    rw [hblanks] at hch
    exact Script.isGapChar_of_isBlank (List.all_eq_true.mp List.all_takeWhile ch hch)
  obtain ⟨escaped, hword, -⟩ := id hadmits
  exact ⟨.inr ⟨hstart, name, escaped, hword⟩, fun _ hb =>
    hothers.cut_default hadmits hb hstart hends⟩

/-- What stands behind a default is taken out. -/
theorem leaves_behind_default (h : Clause ctx c [first, item] e) (hc : c.IsScan k.whole)
    (hfrom : e.token.isWord "from" = true) (hkind : first.1.kind ≠ .named)
    (hstart : first.1.span.stop = byteSize k.front)
    (hlast : e.lastStop = byteSize k.front + byteSize k.piece) (hends : EndsName k.behind) :
    k.LeavesNames ctx c e [entryOf first] := by
  have he := (h.importNames hc).1
  obtain ⟨name, rfl, hadmits, -, -⟩ := h.both_of_kind_ne hc hkind
  obtain ⟨escaped, hword, -⟩ := id hadmits
  have hlt := hc.on.solid_of_not_isMissing (Script.Token.not_isMissing_of_word hword)
  have hcomma : e.token.isPunct .comma = false := by
    simp [Script.Token.isPunct, Script.Token.kind_of_isWord hfrom]
  exact ⟨.inl (hstart ▸ hlt), fun _ hb => hb.leaves_default hadmits hstart hlast he hends hcomma⟩

/-- The only name in braces is taken out with them. -/
theorem leaves_of_braced (h : Clause ctx c [first, item] e) (hc : c.IsScan k.whole)
    (hfrom : e.token.isWord "from" = true) (hkind : item.1.kind = .named)
    (honly : [first.1, item.1].countP (·.kind == .named) = 1)
    (hcloses : ClosesApart k.whole item.1.span.stop)
    (hrange : (⟨first.1.span.stop,
      item.1.span.stop + sizeThrough '}' (suffixFrom k.whole item.1.span.stop)⟩ : Span) =
        ⟨byteSize k.front, byteSize k.front + byteSize k.piece⟩) :
    k.LeavesNames ctx c e [entryOf first] := by
  have hfirst : first.1.kind ≠ .named := by
    intro hfirst
    simp [hfirst, hkind] at honly
  obtain ⟨hstart, hstop⟩ := Span.mk.inj hrange
  obtain ⟨-, -, -, -, hothers⟩ := h.both_of_kind_ne hc hfirst
  cases hothers with
  | all => cases hkind
  | braces _ hlist =>
    have hfound := hcloses.add_sizeThrough_eq hlist hc.on.isScan_next.on.isScan_next.on.isScan_next
    have hends := hcloses.ends
    have hsuffix : suffixFrom k.whole (byteSize k.front + byteSize k.piece) = k.behind := by
      rw [Cut.whole, ← List.append_assoc, ← byteSize_append, suffixFrom_append]
    rw [hstop, hsuffix] at hends
    refine leaves_behind_default h hc hfrom hfirst hstart ?_ hends
    rw [Cursor.next_lastStop, ← hfound, hstop]

/-- A name in braces is taken out up to the next one. -/
theorem leaves_upTo_next (h : Clause ctx c (earlier ++ item :: next :: later) e)
    (hc : c.IsScan k.whole)
    (hkind : item.1.kind = .named) (hstart : item.1.span.start = byteSize k.front)
    (hstop : next.1.span.start = byteSize k.front + byteSize k.piece) :
    k.LeavesNames ctx c e (earlier.map entryOf ++ (next :: later).map entryOf) :=
  ⟨.inl (hstart ▸ h.start_lt hc hkind), fun _ hb => h.cut_listing hkind (Nat.le_of_eq hstart) hb
    fun _ _ _ hb hlist => Script.Grammar.listing_upTo_next hlist hb hstart hstop⟩

/-- The last name in braces is taken out from behind the one before it. -/
theorem leaves_from_previous (h : Clause ctx c (earlier ++ [previous, item]) e)
    (hc : c.IsScan k.whole)
    (hkind : previous.1.kind = .named) (hstart : previous.1.span.stop = byteSize k.front)
    (hstop : item.1.span.stop = byteSize k.front + byteSize k.piece) :
    k.LeavesNames ctx c e (earlier.map entryOf ++ [entryOf previous]) := by
  have horder := (h.importNames hc).2.ordered
  rw [List.map_append, List.map_cons] at horder
  have hlt := horder.apart.1.start_lt_stop
  refine ⟨.inl ?_, fun _ hb => h.cut_listing hkind (by omega) hb
    fun _ _ _ hb hlist => Script.Grammar.listing_from_previous hlist hb hstart hstop⟩
  exact Nat.lt_trans (h.start_lt hc hkind) (hstart ▸ hlt)

/-- One of several names in braces is taken out with what separates it from the next one, or else
from the one before. -/
theorem leaves_between (h : Clause ctx c (earlier ++ item :: later) e) (hc : c.IsScan k.whole)
    (hseveral : 1 < (earlier ++ item :: later).length) (hkind : item.1.kind = .named)
    (hothers : ((earlier ++ item :: later).map (·.1)).countP (·.kind == .named) ≠ 1)
    (hrange : specifierRange k.whole ((earlier ++ item :: later).map (·.1)) earlier.length item.1 =
      ⟨byteSize k.front, byteSize k.front + byteSize k.piece⟩) :
    k.LeavesNames ctx c e ((earlier ++ later).map entryOf) := by
  have hkinds := (h.importNames hc).2.kinds
  cases later with
  | cons next later =>
    rw [(specifierRange_between (.inr ⟨hkind, hothers⟩)).1 next.1 (by simp)] at hrange
    obtain ⟨hstart, hstop⟩ := Span.mk.inj hrange
    rw [List.map_append]
    exact leaves_upTo_next h hc hkind hstart hstop
  | nil =>
    rcases List.eq_nil_or_concat earlier with rfl | ⟨front, previous, rfl⟩
    · simp at hseveral
    · rw [List.concat_eq_append] at h hkinds hothers hrange ⊢
      rw [(specifierRange_between (.inr ⟨hkind, hothers⟩)).2 previous.1 (by simp) (by simp)]
        at hrange
      obtain ⟨hstart, hstop⟩ := Span.mk.inj hrange
      simp only [List.append_assoc, List.singleton_append, List.map_append, List.map_cons,
        List.map_nil] at h hkinds hothers ⊢
      exact leaves_from_previous h hc (kind_of_previous hkinds hothers hkind) hstart hstop

/-- The stretch for a name takes that name out and leaves the others. -/
theorem leavesNames_specifierRange (h : Clause ctx c (earlier ++ item :: later) e)
    (hc : c.IsScan k.whole) (hfrom : e.token.isWord "from" = true)
    (hseveral : 1 < (earlier ++ item :: later).length)
    (hseparate : IsSeparate k.whole ((earlier ++ item :: later).map (·.1)) item.1)
    (hrange : specifierRange k.whole ((earlier ++ item :: later).map (·.1)) earlier.length item.1 =
      ⟨byteSize k.front, byteSize k.front + byteSize k.piece⟩) :
    k.LeavesNames ctx c e ((earlier ++ later).map entryOf) := by
  -- By the kind of the name and by what else stands in the braces.
  have hkinds := (h.importNames hc).2.kinds
  have hseveral' : 1 < (earlier.map (·.1) ++ item.1 :: later.map (·.1)).length := by
    simpa using hseveral
  have hmap : (earlier ++ item :: later).map (·.1) =
      earlier.map (·.1) ++ item.1 :: later.map (·.1) := by
    simp
  cases hkind : item.1.kind with
  | default =>
    rw [hmap] at hkinds
    obtain ⟨hearlier, _, _, hlater⟩ := default_cases hkinds hseveral' hkind
    obtain rfl := List.map_eq_nil_iff.mp hearlier
    obtain ⟨next, later, rfl, -, -⟩ := List.map_eq_cons_iff.mp hlater
    exact leaves_of_default h hc hkind (hseparate.comma hkind) hrange
  | all =>
    obtain ⟨first, rfl, rfl, hfirst, hlast, hends⟩ := h.of_kind_all hc hseveral hkind
    rw [(specifierRange_between (.inl hkind)).2 first.1 (by simp) (by simp)] at hrange
    obtain ⟨hstart, hstop⟩ := Span.mk.inj hrange
    rw [← hlast, hstop] at hends
    exact leaves_behind_default h hc hfrom (by simp [hfirst]) hstart (hlast ▸ hstop)
      (Cut.endsName_behind hends)
  | named =>
    by_cases honly : ((earlier ++ item :: later).map (·.1)).countP (·.kind == .named) = 1
    · have hcloses := hseparate.brace hkind honly
      rw [hmap] at hkinds honly
      obtain ⟨⟨_, hearlier⟩, hlater⟩ := braced_cases hkinds hseveral' hkind honly
      obtain rfl := List.map_eq_nil_iff.mp hlater
      obtain ⟨first, _, rfl, -, hnil⟩ := List.map_eq_cons_iff.mp hearlier
      obtain rfl := List.map_eq_nil_iff.mp hnil
      have hpair : [first.1, item.1].countP (·.kind == .named) = 1 := by simpa using honly
      rw [List.singleton_append, List.map_cons, List.map_singleton, List.length_singleton,
        specifierRange_braced hkind hpair] at hrange
      exact leaves_of_braced h hc hfrom hkind hpair hcloses hrange
    · exact leaves_between h hc hseveral hkind honly hrange

end

end Import

/-! ### The declaration that is left

The cut is put into the whole declaration. Its head and its module are read as before, and the names
between them as the names that are left. -/

/-- What a statement imports, and the module that it comes from. -/
def Script.Node.importEntries : Node → List (Option String × ImportEntry)
  | .importDeclaration _ specifiers parts =>
    (nameEntries specifiers parts).1.map fun entry =>
      ((nameEntries specifiers parts).2.head?.map Script.Grammar.exportText, entry)
  | _ => []

namespace Import

section

variable {k : Cut} {c' c₁ e' : Cursor} {dialect : Dialect}
  {items : List (ImportSpecifier × List Node)}
  {source : List Node}

/-- The entries of a declaration that is read are those of its names. -/
theorem importEntries_of_readsImport {span : Span}
    (h : ReadsImport ctx c c₁ e e' c' items source) (hc : c.IsScan src) :
    (Node.importDeclaration span (items.map (·.1)) (items.flatMap (·.2) ++ source)).importEntries =
      (items.map entryOf).map fun entry => (source.head?.map Script.Grammar.exportText, entry) := by
  rw [Node.importEntries, h.nameEntries_eq hc]

/-- When names are cut out of an import, what is left is read as an import of the others. -/
theorem readsStatement_of_leavesNames (h : ReadsImport { dialect } c c₁ e e' c' items source)
    (hc : c.IsScan k.whole) (hword : c.token.isWord "import" = true)
    (hstart : c.lastStop = c.token.start) (hle : c.lastStop ≤ byteSize k.front)
    {entries : List ImportEntry} (hnames : k.LeavesNames { dialect } c₁ e entries) :
    ∃ before text left behind n, k.whole = before ++ (text ++ behind) ∧
      k.rest = before ++ (left ++ behind) ∧
      ReadsStatement dialect before text behind (.importDeclaration ⟨c.token.start, c'.lastStop⟩
        (items.map (·.1)) (items.flatMap (·.2) ++ source)) ∧
      ReadsStatement dialect before left behind n ∧
      n.importEntries =
        entries.map fun entry => (source.head?.map Script.Grammar.exportText, entry) := by
  -- what stands before the import is the same in both texts
  obtain ⟨before, cs, hwhole, heq⟩ := id hc
  have hlast : c.lastStop = byteSize before := by rw [heq, Cursor.scanAt_lastStop]
  obtain ⟨front, hfront, -⟩ := Text.append_eq_append_of_byteSize_le
    (hwhole.symm.trans (show k.whole = k.front ++ (k.piece ++ k.behind) from rfl)) (hlast ▸ hle)
  have hrest : k.rest = before ++ (front ++ k.behind) := by
    rw [Cut.rest, hfront, List.append_assoc]
  let d := Cursor.scanAt (k.rest.length + 1) (byteSize before) (front ++ k.behind)
  have hb : k.Before c d := ⟨hc, ⟨before, _, hrest, rfl⟩, hlast, hle⟩
  obtain ⟨d₁, f, f', d', items', source', hread, hword', hstart', hbehind, hentries, htext⟩ :=
    h.cut hword hb hnames
  -- and so is what stands behind it
  obtain ⟨through, behind, hthrough, heq⟩ := hbehind.whole
  obtain ⟨through', behind', hthrough', heq'⟩ := hbehind.rest
  have hstop : c'.lastStop = byteSize through := by rw [heq, Cursor.scanAt_lastStop]
  have hstop' : d'.lastStop = byteSize through' := by rw [heq', Cursor.scanAt_lastStop]
  have hleLast := hbehind.le_last
  have hlastEq := hbehind.last_eq
  obtain rfl := Cut.behind_eq hthrough hthrough' (hstop ▸ hleLast) (by omega)
  obtain ⟨text, rfl, rfl⟩ :=
    Text.append_eq_append_of_byteSize_le (hwhole.symm.trans hthrough) (by omega)
  obtain ⟨left, rfl, hleft⟩ :=
    Text.append_eq_append_of_byteSize_le (hrest.symm.trans hthrough') (by omega)
  rw [hleft] at hrest
  refine ⟨before, text, left, behind, _, hwhole, hrest,
    h.readsStatement hword (hwhole ▸ hc) (hwhole ▸ hbehind.whole) (hstart ▸ hlast) hlast hstop,
    hread.readsStatement hword' (hrest ▸ hb.rest) (hrest ▸ hbehind.rest) ?_ rfl hstop', ?_⟩
  · rw [← hstart', ← hstart, hlast]
  · rw [importEntries_of_readsImport hread hb.rest, hentries, htext]

end

variable {program : Program} {name : String}

/-- One of several names is taken out. -/
theorem Occurrence.toList_of_removeUnused? {dialect : Dialect} {source code : String}
    (o : Occurrence program name) (hprogram : Program.parse? dialect source = some program)
    (hcode : removeUnused? dialect name source = some code)
    (hseveral : 1 < (o.earlier ++ o.specifier :: o.later).length) :
    ∃ k : Cut, k.whole = source.toList ∧ k.rest = code.toList ∧
      o.span.start ≤ byteSize k.front ∧
      specifierRange source.toList (o.earlier ++ o.specifier :: o.later) o.earlier.length
        o.specifier =
        ⟨byteSize k.front, byteSize k.front + byteSize k.piece⟩ := by
  have htakes := takesOut_specifierRange (o.importNames hprogram) hseveral
  have hremoval : removalRange source.toList o.span (o.earlier ++ o.specifier :: o.later)
      o.earlier.length = specifierRange source.toList (o.earlier ++ o.specifier :: o.later)
        o.earlier.length o.specifier := by
    simp only [removalRange, List.getElem?_append_right (Nat.le_refl _), Nat.sub_self,
      List.getElem?_cons_zero, if_pos hseveral]
  have hle := htakes.le_start
  obtain ⟨front, piece, behind, hsource, hrange, hhead, htail⟩ :=
    exists_pieces (Nat.le_of_lt htakes.start_lt_stop) htakes.start_isBoundary htakes.stop_isBoundary
  simp only [removeUnused?, hprogram, o.find?_eq, Option.bind_eq_bind, Option.bind_some] at hcode
  split at hcode
  · cases hcode
  · rw [hremoval, render?_remove (Nat.le_of_lt htakes.start_lt_stop) htakes.start_isBoundary
      htakes.stop_isBoundary] at hcode
    cases hcode
    rw [hhead, htail, String.toList_ofList]
    rw [hrange] at hle
    exact ⟨⟨front, piece, behind⟩, hsource.symm, rfl, hle, hrange⟩

/-- **A declaration that loses a name keeps the others.** If the comma or the brace that is looked
for is not found in a comment, the text that is left of the declaration is read as an import of just
the other names, from the same module and in the same order.

This is about declarations of several names; where a name stands alone its whole declaration goes
(`removeUnused?_removes`). It goes as far as the statement that the declaration is, in its place in
the text: that the statements before and behind it are read as they were is not said here. -/
theorem removeUnused?_leaves {dialect : Dialect} {source code : String}
    (o : Occurrence program name)
    (hprogram : Program.parse? dialect source = some program)
    (hcode : removeUnused? dialect name source = some code)
    (hseveral : 1 < (o.earlier ++ o.specifier :: o.later).length)
    (hseparate : IsSeparate source.toList (o.earlier ++ o.specifier :: o.later) o.specifier) :
    ∃ before text left behind n, source.toList = before ++ (text ++ behind) ∧
      code.toList = before ++ (left ++ behind) ∧
      ReadsStatement dialect before text behind o.declaration ∧
      ReadsStatement dialect before left behind n ∧
      n.importEntries = o.declaration.importEntries.eraseIdx o.earlier.length := by
  obtain ⟨k, hwhole, hrest, hle, hrange⟩ := o.toList_of_removeUnused? hprogram hcode hseveral
  obtain ⟨c, c₁, e, e', c', items, module, hc, hword, hstart, hread, hspan, hspecifiers, hparts⟩ :=
    Script.Grammar.exists_readsImport (Program.holds_of_parse? hprogram o.declaration_mem) hseveral
  rw [← hwhole] at hc hseparate hrange
  obtain ⟨earlier, _, rfl, hearlier, hitems⟩ := List.map_eq_append_iff.mp hspecifiers.symm
  obtain ⟨item, later, rfl, hitem, hlater⟩ := List.map_eq_cons_iff.mp hitems
  have hlength : o.earlier.length = earlier.length := by simp [← hearlier]
  rw [hspecifiers, ← hitem] at hseparate hrange
  rw [hlength] at hrange
  have hnames := leavesNames_specifierRange hread.clause (hread.isScan_names hc) hread.from_word
    (by simpa [← hearlier, ← hlater] using hseveral) hseparate hrange
  rw [hspan, ← hstart] at hle
  obtain ⟨before, text, left, behind, n, hsource, hcode, hdeclaration, hleft, hentries⟩ :=
    readsStatement_of_leavesNames hread hc hword hstart hle hnames
  refine ⟨before, text, left, behind, n, hwhole ▸ hsource, hrest ▸ hcode, ?_, hleft, ?_⟩
  · rw [Occurrence.declaration, hspan, hspecifiers, hparts]
    exact hdeclaration
  · rw [hentries, Occurrence.declaration, hspecifiers, hparts,
      importEntries_of_readsImport hread hc, hlength]
    simp [List.eraseIdx_append_of_length_le]

theorem removeUnused?_leaves_bracedName : ∃ program code,
    Program.parse? ⟨true, false⟩ bracedName = some program ∧
      removeUnused? ⟨true, false⟩ "c" bracedName = some code ∧
      ∃ o : Occurrence program "c", 1 < (o.earlier ++ o.specifier :: o.later).length ∧
        IsSeparate bracedName.toList (o.earlier ++ o.specifier :: o.later) o.specifier ∧
        ∃ before text left behind n, bracedName.toList = before ++ (text ++ behind) ∧
          code.toList = before ++ (left ++ behind) ∧
          ReadsStatement ⟨true, false⟩ before text behind o.declaration ∧
          ReadsStatement ⟨true, false⟩ before left behind n ∧
          n.importEntries = o.declaration.importEntries.eraseIdx o.earlier.length := by
  have hcode : removeUnused? ⟨true, false⟩ "c" bracedName =
      some "import a from 'x'\n\nimport d from 'y'\nd(a)\n" := by
    decide +kernel
  have hfound : (Program.parse? ⟨true, false⟩ bracedName).bind (find? · "c") = some (⟨0, 37⟩,
      [⟨.default, ⟨7, 8⟩, "a"⟩, ⟨.named, ⟨20, 26⟩, "c"⟩], 1) := by
    decide +kernel
  obtain ⟨program, hprogram, hfind⟩ := Option.bind_eq_some_iff.mp hfound
  obtain ⟨o, -, hspecifiers, hindex⟩ := exists_occurrence_of_find? hfind
  have hseveral : 1 < (o.earlier ++ o.specifier :: o.later).length := by
    rw [← hspecifiers]
    decide
  have hspecifier : o.specifier = ⟨.named, ⟨20, 26⟩, "c"⟩ := by
    have hget : (o.earlier ++ o.specifier :: o.later)[o.earlier.length]? = some o.specifier := by
      simp
    rw [← hspecifiers, ← hindex] at hget
    exact (Option.some.inj hget).symm
  have hseparate : IsSeparate bracedName.toList (o.earlier ++ o.specifier :: o.later)
      o.specifier := by
    rw [hspecifier]
    have hbehind : (suffixFrom bracedName.toList
        (26 + sizeThrough '}' (suffixFrom bracedName.toList 26))).head? = some ' ' := by
      decide +kernel
    refine ⟨nofun, fun _ _ => ⟨by decide +kernel, by decide +kernel, fun ch hch => ?_⟩⟩
    obtain rfl := Option.some.inj (hbehind.symm.trans hch)
    decide
  exact ⟨program, _, hprogram, hcode, o, hseveral, hseparate,
    removeUnused?_leaves o hprogram hcode hseveral hseparate⟩

/-- A comma in a comment behind a default, before the one that separates it from the names in
braces. -/
def commentedComma : String :=
  "import a /* , */, \x7b b \x7d from 'x'\nb()\n"

/-- The comma in the comment is taken for the separator, and what is left cannot be read. -/
theorem removeUnused?_commentedComma : ∃ program code,
    Program.parse? ⟨true, false⟩ commentedComma = some program ∧
      removeUnused? ⟨true, false⟩ "a" commentedComma = some code ∧
      Program.parse? ⟨true, false⟩ code = none := by
  have hprogram : (Program.parse? ⟨true, false⟩ commentedComma).isSome = true := by decide +kernel
  have hcode : removeUnused? ⟨true, false⟩ "a" commentedComma =
      some "import */, \x7b b \x7d from 'x'\nb()\n" := by
    decide +kernel
  have hfail : (Program.parse? ⟨true, false⟩ "import */, \x7b b \x7d from 'x'\nb()\n").isNone =
      true := by
    decide +kernel
  obtain ⟨program, hprogram⟩ := Option.isSome_iff_exists.mp hprogram
  exact ⟨program, _, hprogram, hcode, Option.isNone_iff_eq_none.mp hfail⟩

end Import

end VueSetup
