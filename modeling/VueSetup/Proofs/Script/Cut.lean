import VueSetup.Proofs.Script.Import
import VueSetup.Proofs.Script.Local

/-!
# VueSetup.Proofs.Script.Cut

Reading a text and the same text without a stretch of it.

Two cursors, one on each text, go side by side. As long as they stand before the cut, each token
that ends there is the same for both (`Cut.Before.step`). Behind the cut the text is the same, and
so are the tokens (`Cut.Alike.next`). From the one to the other the cursors come where the cut
starts at a token or right behind one and ends so as well, with nothing but fillers up to the next
token (`Cut.Before.alike`).
-/

namespace VueSetup.Script

open Text

variable {src : List Char} {c d : Cursor}

/-! ### Where a cursor stands

A cursor is told by where the last token ends and by the text from there on: what it passes over
until the next token are fillers, and a filler is the same in every text. -/

/-- Between the last token and the current one stand fillers. -/
theorem Cursor.On.exists_fills (h : c.On src) : ∃ before fs,
    src = before ++ (fillerText fs ++ c.here) ∧ byteSize before = c.lastStop ∧
      Fills (fillerText fs ++ c.here) fs c.here ∧
      c.token.start = c.lastStop + byteSize (fillerText fs) := by
  obtain ⟨before, cs, rest, hsrc, hsize, hfills⟩ := exists_fills_behind h.last_isBoundary
  obtain ⟨front, hhere, hfront⟩ := h.here
  have hgap := h.gap
  rw [tokenBehind] at hgap
  have heq : front ++ c.here = before ++ fillerText (fillersBehind src c.lastStop) ++ rest := by
    rw [← hhere, List.append_assoc, ← hfills.eq_append, ← hsrc]
  obtain ⟨-, rfl⟩ := append_inj_of_byteSize_eq heq (by rw [hfront, hgap, byteSize_append, hsize])
  refine ⟨before, _, ?_, hsize, ?_, hgap⟩
  · rw [← hfills.eq_append, ← hsrc]
  · rw [← hfills.eq_append]
    exact hfills

/-- Where fillers stand behind the last token, the current one stands behind them. -/
theorem Cursor.On.of_fills (h : c.On src) {before cs rest : List Char} {fs : List Filler}
    (hsrc : src = before ++ cs) (hsize : byteSize before = c.lastStop) (hfills : Fills cs fs rest) :
    c.here = rest ∧ c.token.start = c.lastStop + byteSize (fillerText fs) := by
  obtain ⟨before', fs', hsrc', hsize', hfills', hstart⟩ := h.exists_fills
  obtain ⟨-, rfl⟩ := append_inj_of_byteSize_eq (hsrc.symm.trans hsrc') (by rw [hsize, hsize'])
  have hfs : fs = fs' := by
    rw [← hfills.fillers_eq (Nat.lt_succ_self _), hfills'.fillers_eq (Nat.lt_succ_self _)]
  subst hfs
  exact ⟨List.append_cancel_left hfills.eq_append, hstart⟩

/-- The token of a scan. -/
theorem Cursor.IsScan.scanKind_here (h : c.IsScan src) : c.here.length < c.bound ∧
    scanKind c.bound c.here = ⟨c.token.kind, c.token.stop - c.token.start, c.behind⟩ := by
  have hbound := h.on.bound_eq
  obtain ⟨front, hsrc, -⟩ := h.on.here
  have hlength := congrArg List.length hsrc
  rw [List.length_append] at hlength
  refine ⟨by omega, ?_⟩
  obtain ⟨before, cs, -, rfl⟩ := h
  simp [scanAt]

/-- The kind of a token tells whether it is a word. -/
theorem Token.isWord_congr {t t' : Token} (h : t.kind = t'.kind) {w : String} :
    t.isWord w = t'.isWord w := by
  simp only [Token.isWord, h]

/-- A word is scanned where it stands, and what is read behind it comes next. -/
theorem Cursor.On.exists_isScan (h : c.On src) {w : String} (hword : c.token.isWord w = true) :
    ∃ d : Cursor, d.IsScan src ∧ d.lastStop = c.token.start ∧ d.token.isWord w = true ∧
      d.token.start = c.token.start ∧ d.next = c.next := by
  obtain ⟨before, hsrc, hsize⟩ := h.here
  have hd : (Cursor.scanAt (src.length + 1) c.token.start c.here).IsScan src :=
    ⟨before, c.here, hsrc, by rw [hsize]⟩
  obtain ⟨hhere, hstart⟩ := hd.on.of_fills hsrc hsize (.nil h.startsNoFiller)
  rw [Cursor.scanAt_lastStop, fillerText_nil, byteSize_nil, Nat.add_zero] at hstart
  have hscan := hd.scanKind_here.2
  have hscan' := h.scanned _ _ (Token.kind_of_isWord hword)
  rw [h.bound_eq] at hscan'
  rw [hhere, hd.on.bound_eq, hscan', hstart] at hscan
  obtain ⟨hkind, hsize, hbehind⟩ := Scanned.mk.inj hscan
  have hle := h.start_le
  have hle' := hd.on.start_le
  rw [hstart] at hle'
  refine ⟨_, hd, rfl, Token.isWord_congr hkind ▸ hword, hstart, ?_⟩
  rw [Cursor.next, Cursor.next, ← hbehind, h.bound_eq, hd.on.bound_eq]
  congr 1
  omega

/-! ### Common tokens

Names, strings, braces and commas are all that stands between the first word of an import and the
module. They are the tokens that are read one by one on both sides (`TokenKind.IsCommon`). -/

/-- What starts with neither a blank nor a slash starts with no filler. -/
theorem StartsSolid.startsNoFiller {cs : List Char} (h : StartsSolid cs) : StartsNoFiller cs := by
  refine ⟨fun c hc => (h c hc).1, ?_, ?_⟩
  · rintro ⟨rest, rfl⟩
    exact (h _ rfl).2 rfl
  · rintro rest rfl
    exact absurd rfl (h _ rfl).2

/-- Whether a name goes on is told by the next character. -/
theorem TokenKind.Stops.of_head? {kind : TokenKind} {cs ds : List Char} (h : kind.Stops cs)
    (heq : cs.head? = ds.head?) : kind.Stops ds := by
  cases kind with
  | word name escaped =>
    intro ch hch
    exact h ch (heq ▸ hch)
  | _ => trivial

namespace Cursor.IsScan

/-- Behind a scanned name no name goes on. -/
theorem stops (h : c.IsScan src) (hkind : c.token.kind.IsCommon) :
    c.token.kind.Stops c.behind := by
  obtain ⟨hlength, hscan⟩ := h.scanKind_here
  have hstops := (scanKind_local hlength (by rwa [hscan])).1
  rwa [hscan] at hstops

/-- The end of the text is no common token. -/
theorem here_ne_nil (h : c.IsScan src) (hkind : c.token.kind.IsCommon) : c.here ≠ [] := by
  intro hnil
  have hscan := h.scanKind_here.2
  rw [hnil] at hscan
  have hend : c.token.kind = .endOfText := (Scanned.mk.inj hscan).1.symm
  rw [hend] at hkind
  exact hkind

/-- No name starts where another one ends. -/
theorem stop_lt_start (h : c.IsScan src) {name name' : String} {escaped escaped' : Bool}
    (hkind : c.token.kind = .word name escaped) (hkind' : c.next.token.kind =
      .word name' escaped') :
    c.token.stop < c.next.token.start := by
  refine Nat.lt_of_le_of_ne h.on.next.last_le fun heq => ?_
  have hends := h.stops (by rw [hkind]; trivial)
  rw [hkind] at hends
  obtain ⟨hlength, hscan⟩ := h.on.isScan_next.scanKind_here
  have hword := replaceable_scanKind hlength (by rw [hscan, hkind']; trivial)
  refine hword.goesOn name' escaped' (by rw [hscan, hkind']) ?_
  obtain ⟨before, hsrc, hsize⟩ := h.on.behind
  obtain ⟨before', hsrc', hsize'⟩ := h.on.next.here
  obtain ⟨-, hhere⟩ := append_inj_of_byteSize_eq (hsrc.symm.trans hsrc')
    (by rw [hsize, hsize', heq])
  exact hhere ▸ hends

end Cursor.IsScan

/-- A comma takes one character. -/
theorem Cursor.IsScan.here_eq_of_comma (h : c.IsScan src) (hcomma : c.token.isPunct .comma = true) :
    c.here = ',' :: c.behind ∧ c.token.stop = c.token.start + 1 := by
  obtain ⟨rest, hhere⟩ := h.here_of_comma hcomma
  have hscan := h.scanKind_here.2
  have hcomma : ∀ n, scanKind n (',' :: rest) = ⟨.punct .comma, 1, rest⟩ := fun _ => rfl
  rw [hhere, hcomma] at hscan
  obtain ⟨-, hsize, rfl⟩ := Scanned.mk.inj hscan
  exact ⟨hhere, by omega⟩

/-- From one cursor up to another stand tokens of the given kinds. -/
def Cursor.Reads : Cursor → List TokenKind → Cursor → Prop
  | c, [], c' => c' = c
  | c, kind :: kinds, c' => c.token.kind = kind ∧ c.next.Reads kinds c'

namespace Cursor.IsScan

variable {c' : Cursor} {kinds : List TokenKind}

/-- Tokens are read from one scan to another. -/
theorem reads (h : c.IsScan src) (hread : c.Reads kinds c') : c'.IsScan src := by
  induction kinds generalizing c with
  | nil =>
    obtain rfl := hread
    exact h
  | cons kind kinds ih => exact ih h.on.isScan_next hread.2

/-- Reading goes forward. -/
theorem start_le_of_reads (h : c.IsScan src) (hread : c.Reads kinds c') :
    c.token.start ≤ c'.token.start := by
  induction kinds generalizing c with
  | nil =>
    obtain rfl := hread
    exact Nat.le_refl _
  | cons kind kinds ih =>
    have hrest := ih h.on.isScan_next hread.2
    have hle := h.on.start_le
    have hnext := h.on.next.last_le
    rw [Cursor.next_lastStop] at hnext
    omega

/-- The first of several tokens ends before the last one does, or with it. -/
theorem stop_le_of_reads (h : c.IsScan src) {kind : TokenKind}
    (hread : c.Reads (kind :: kinds) c') :
    c.token.stop ≤ c'.lastStop := by
  induction kinds generalizing c kind with
  | nil =>
    obtain rfl : c' = c.next := hread.2
    exact Nat.le_refl _
  | cons kind' kinds ih =>
    have hrest := ih h.on.isScan_next hread.2
    have hle := h.on.next.start_le
    have hnext := h.on.next.last_le
    rw [Cursor.next_lastStop] at hnext
    omega

end Cursor.IsScan

/-- The farther a cursor is, the less of the text is left. -/
theorem Cursor.On.here_length_lt (hc : c.On src) (hd : d.On src)
    (hlt : c.token.start < d.token.start) : d.here.length < c.here.length := by
  obtain ⟨before, hsrc, hsize⟩ := hc.here
  obtain ⟨before', hsrc', hsize'⟩ := hd.here
  obtain ⟨mid, rfl, hmid⟩ := append_eq_append_of_byteSize_le (hsrc.symm.trans hsrc') (by omega)
  have hne : mid ≠ [] := by
    rintro rfl
    simp at hsize'
    omega
  rw [hmid, List.length_append]
  have hpos := List.length_pos_iff.mpr hne
  omega

/-! ### A cut

The pairs of cursors are of three kinds. Before the cut the texts up to the two cursors agree.
Behind it the texts from the two cursors on do, and where the token before ends behind the cut as
well, even the line ends passed over agree. -/

/-- A text, and the stretch of it that is cut out. -/
structure Cut where
  front : List Char
  piece : List Char
  behind : List Char

namespace Cut

/-- The text with the stretch. -/
def whole (k : Cut) : List Char :=
  k.front ++ (k.piece ++ k.behind)

/-- The text without the stretch. -/
def rest (k : Cut) : List Char :=
  k.front ++ k.behind

/-- Two cursors behind the same text before the cut. -/
structure Before (k : Cut) (c d : Cursor) : Prop where
  whole : c.IsScan k.whole
  rest : d.IsScan k.rest
  last_eq : c.lastStop = d.lastStop
  last_le : c.lastStop ≤ byteSize k.front

/-- Two cursors on the same text behind the cut. -/
structure Alike (k : Cut) (c d : Cursor) : Prop where
  whole : c.IsScan k.whole
  rest : d.IsScan k.rest
  le_start : byteSize k.front + byteSize k.piece ≤ c.token.start
  start_eq : c.token.start = d.token.start + byteSize k.piece

/-- Two cursors on the same text behind the cut, of which also the token before ends there. -/
structure Behind (k : Cut) (c d : Cursor) : Prop extends Alike k c d where
  le_last : byteSize k.front + byteSize k.piece ≤ c.lastStop
  last_eq : c.lastStop = d.lastStop + byteSize k.piece
  afterLineEnd_eq : c.token.afterLineEnd = d.token.afterLineEnd

variable {k : Cut}

/-! ### Behind the cut

The rest of the two texts is the same there, so that the cursors are apart by the size of the cut
and otherwise see the same. -/

/-- What stands behind an offset of the whole text stands in the other text as well. -/
theorem behind_eq {before cs before' ds : List Char} (hwhole : k.whole = before ++ cs)
    (hrest : k.rest = before' ++ ds) (hle : byteSize k.front + byteSize k.piece ≤ byteSize before)
    (hsize : byteSize before = byteSize before' + byteSize k.piece) : cs = ds := by
  rw [whole, ← List.append_assoc] at hwhole
  obtain ⟨mid, rfl, hbehind⟩ := append_eq_append_of_byteSize_le hwhole
    (by rw [byteSize_append]; exact hle)
  rw [rest, hbehind, ← List.append_assoc] at hrest
  simp only [byteSize_append] at hsize
  exact (append_inj_of_byteSize_eq hrest (by rw [byteSize_append]; omega)).2

/-- Two cursors behind the same text. -/
theorem behind_of_last (hc : c.IsScan k.whole) (hd : d.IsScan k.rest)
    (hle : byteSize k.front + byteSize k.piece ≤ c.lastStop)
    (hlast : c.lastStop = d.lastStop + byteSize k.piece) : k.Behind c d := by
  have hstart := hc.on.last_le
  obtain ⟨before, cs, hwhole, rfl⟩ := id hc
  obtain ⟨before', ds, hrest, rfl⟩ := id hd
  rw [Cursor.scanAt_lastStop] at hle hlast
  rw [Cursor.scanAt_lastStop] at hlast
  obtain rfl := behind_eq hwhole hrest hle hlast
  have hlength := congrArg List.length hwhole
  have hlength' := congrArg List.length hrest
  rw [List.length_append] at hlength hlength'
  have hblanks : skipBlanks (k.whole.length + 1) 0 false cs =
      skipBlanks (k.rest.length + 1) 0 false cs := skipBlanks_congr (by omega) (by omega) 0 false
  refine ⟨⟨hc, hd, ?_, ?_⟩, hle, hlast, ?_⟩
  · exact Nat.le_trans hle hstart
  · simp only [Cursor.scanAt, hblanks]
    omega
  · simp only [Cursor.scanAt, hblanks]

namespace Alike

/-- The text from the token on is the same. -/
theorem here_eq (h : k.Alike c d) : c.here = d.here := by
  obtain ⟨before, hwhole, hsize⟩ := h.whole.on.here
  obtain ⟨before', hrest, hsize'⟩ := h.rest.on.here
  have hle := h.le_start
  have hstart := h.start_eq
  exact behind_eq hwhole hrest (by omega) (by omega)

/-- The bounds of the two scans differ, but both are above the length of the text. -/
theorem scan_eq (h : k.Alike c d) : c.token.kind = d.token.kind ∧
    c.token.stop = d.token.stop + byteSize k.piece ∧ c.behind = d.behind := by
  obtain ⟨hlength, hscan⟩ := h.whole.scanKind_here
  obtain ⟨hlength', hscan'⟩ := h.rest.scanKind_here
  rw [h.here_eq] at hlength hscan
  rw [scanKind_congr hlength hlength', hscan'] at hscan
  obtain ⟨hkind, hsize, hbehind⟩ := Scanned.mk.inj hscan
  have hstart := h.start_eq
  have hle := h.whole.on.start_le
  have hle' := h.rest.on.start_le
  exact ⟨hkind.symm, by omega, hbehind.symm⟩

/-- The token is the same. -/
theorem kind_eq (h : k.Alike c d) : c.token.kind = d.token.kind := h.scan_eq.1

/-- So is the punctuation that it is. -/
theorem isPunct_eq (h : k.Alike c d) {p : Punct} : c.token.isPunct p = d.token.isPunct p := by
  rw [Token.isPunct, Token.isPunct, h.kind_eq]

/-- Behind the same token, the cursors go on with the same text. -/
theorem next (h : k.Alike c d) : k.Behind c.next d.next := by
  obtain ⟨-, hstop, -⟩ := h.scan_eq
  have hle := h.le_start
  have hstart := h.whole.on.start_le
  exact behind_of_last h.whole.on.isScan_next h.rest.on.isScan_next (Nat.le_trans hle hstart) hstop

/-- Behind the cut, the same tokens are read. -/
theorem reads {kinds : List TokenKind} {c' : Cursor} (h : k.Alike c d) (hread : c.Reads kinds c') :
    ∃ d', d.Reads kinds d' ∧ k.Alike c' d' := by
  induction kinds generalizing c d with
  | nil =>
    obtain rfl := hread
    exact ⟨d, rfl, h⟩
  | cons kind kinds ih =>
    obtain ⟨d', hread', halike⟩ := ih h.next.toAlike hread.2
    exact ⟨d', ⟨h.kind_eq ▸ hread.1, hread'⟩, halike⟩

end Alike

/-! ### Before the cut

A token that ends before the cut could go on with what stands behind it. Of the common tokens only a
name can, and it does not if no name starts where the cut ends. -/

namespace Before

/-- A common token that ends before the cut is the same in the other text, and so is what comes
next. No name goes on where the cut is. -/
theorem step (h : k.Before c d) (hkind : c.token.kind.IsCommon)
    (hle : c.token.stop ≤ byteSize k.front)
    (hstops : c.token.stop < byteSize k.front ∨ c.token.kind.Stops k.behind) :
    c.token.kind = d.token.kind ∧ c.token.start = d.token.start ∧ k.Before c.next d.next := by
  obtain ⟨hlength, hscan⟩ := h.whole.scanKind_here
  obtain ⟨before, fs, hwhole, hbefore, hfills, hstart⟩ := h.whole.on.exists_fills
  obtain ⟨htoken, ch, w, hhere, hgap, hlocal⟩ := scanKind_local hlength (by rwa [hscan])
  rw [hscan] at htoken hhere hlocal
  dsimp only at htoken hhere hlocal
  -- the token in the whole text, and what is left of the front behind it
  obtain ⟨front, hfront, hstop⟩ := h.whole.on.behind
  have htaken : front = before ++ (fillerText fs ++ ch :: w) := by
    refine List.append_cancel_right (?_ : front ++ c.behind = _ ++ c.behind)
    rw [← hfront, hwhole, hhere]
    simp
  have hsplit : front ++ c.behind = k.front ++ (k.piece ++ k.behind) := hfront.symm
  obtain ⟨ms, hms, hbehind⟩ := append_eq_append_of_byteSize_le hsplit (by omega)
  have hrest : k.rest = before ++ (fillerText fs ++ ch :: (w ++ (ms ++ k.behind))) := by
    rw [Cut.rest, hms, htaken]
    simp
  have hstops : c.token.kind.Stops (ms ++ k.behind) := by
    cases ms with
    | nil =>
      refine hstops.resolve_left fun hlt => ?_
      rw [hms, byteSize_append, hstop] at hlt
      simp at hlt
    | cons m ms => exact htoken.of_head? (by rw [hbehind]; rfl)
  -- the same fillers and the same token in the other text
  have hfills' := hfills.replace (by rw [hhere]; exact List.cons_ne_nil _ _)
    (.nil (startsSolid_cons hgap (w ++ (ms ++ k.behind))).startsNoFiller)
  obtain ⟨hhere', hstart'⟩ := h.rest.on.of_fills hrest (by rw [hbefore, h.last_eq]) hfills'
  obtain ⟨hlength', hscan'⟩ := h.rest.scanKind_here
  rw [hhere'] at hlength' hscan'
  rw [hlocal _ hstops _ hlength'] at hscan'
  obtain ⟨hkind', hsize', -⟩ := Scanned.mk.inj hscan'
  rw [List.append_nil, ← h.last_eq, ← hstart] at hstart'
  have hle' := h.whole.on.start_le
  have hle'' := h.rest.on.start_le
  refine ⟨hkind', hstart'.symm, h.whole.on.isScan_next, h.rest.on.isScan_next, ?_, hle⟩
  rw [Cursor.next_lastStop, Cursor.next_lastStop]
  omega

/-- A brace or a comma needs no such condition. -/
theorem step_punct (h : k.Before c d) {p : Punct} (hp : c.token.isPunct p = true)
    (hcommon : p = .lcurly ∨ p = .rcurly ∨ p = .comma) (hle : c.token.stop ≤ byteSize k.front) :
    d.token.isPunct p = true ∧ k.Before c.next d.next := by
  have hkind : c.token.kind = .punct p := beq_iff_eq.mp hp
  obtain ⟨hsame, -, hnext⟩ := h.step (by rw [hkind]; exact hcommon) hle
    (.inr (by rw [hkind]; trivial))
  exact ⟨by rw [Token.isPunct, ← hsame, hkind]; exact beq_self_eq_true _, hnext⟩

/-- Before the cut, the same common tokens are read. -/
theorem reads {kinds : List TokenKind} {c' : Cursor} (h : k.Before c d) (hread : c.Reads kinds c')
    (hkinds : ∀ kind ∈ kinds, kind.IsCommon) (hle : c'.lastStop ≤ byteSize k.front)
    (hstops : c'.lastStop < byteSize k.front ∨ ∀ kind : TokenKind, kind.Stops k.behind) :
    ∃ d', d.Reads kinds d' ∧ k.Before c' d' := by
  induction kinds generalizing c d with
  | nil =>
    obtain rfl := hread
    exact ⟨d, rfl, h⟩
  | cons kind kinds ih =>
    have hstop := h.whole.stop_le_of_reads hread
    obtain ⟨rfl, hread⟩ := hread
    obtain ⟨hkind, hkinds⟩ := List.forall_mem_cons.mp hkinds
    obtain ⟨hsame, -, hnext⟩ := h.step hkind (Nat.le_trans hstop hle)
      (hstops.imp (Nat.lt_of_le_of_lt hstop) fun h => h _)
    obtain ⟨d', hread', hbefore⟩ := ih hnext hread hkinds
    exact ⟨d', ⟨hsame.symm, hread'⟩, hbefore⟩

end Before

/-! ### From the one side to the other

When the one cursor reaches the cut, the other reaches the text behind it. Their tokens are the same
if what is left of the fillers before and behind the cut are fillers again. -/

/-- Behind the cut stand fillers and then the token of the cursor. -/
structure EndsBefore (k : Cut) (c : Cursor) : Prop where
  whole : c.IsScan k.whole
  fills : ∃ fs, Fills k.behind fs c.here ∧
    c.token.start = byteSize k.front + byteSize k.piece + byteSize (fillerText fs)

/-- The stretch goes up to a token. -/
theorem endsBefore_of_start (hc : c.IsScan k.whole)
    (hstart : c.token.start = byteSize k.front + byteSize k.piece) : k.EndsBefore c := by
  obtain ⟨before, hwhole, hsize⟩ := hc.on.here
  rw [whole, ← List.append_assoc] at hwhole
  obtain ⟨-, hbehind⟩ := append_inj_of_byteSize_eq hwhole (by rw [byteSize_append]; omega)
  refine ⟨hc, [], ?_, hstart⟩
  rw [hbehind]
  exact .nil hc.on.startsNoFiller

/-- The stretch may also take blanks from behind the last token. -/
theorem endsBefore_of_last (hc : c.IsScan k.whole) {piece blanks : List Char}
    (hpiece : k.piece = piece ++ blanks) (hblanks : ∀ ch ∈ blanks, isGapChar ch = true)
    (hlast : c.lastStop = byteSize k.front + byteSize piece) : k.EndsBefore c := by
  obtain ⟨fs, hfs, -⟩ := exists_fills_skipBlanks 0 false (Nat.lt_succ_self k.behind.length)
  have hwhole : k.whole = (k.front ++ piece) ++ (blanks ++ k.behind) := by
    rw [whole, hpiece]
    simp
  obtain ⟨hhere, hstart⟩ := hc.on.of_fills hwhole (by rw [byteSize_append, hlast])
    (hfs.blanks hblanks)
  refine ⟨hc, fs, hhere ▸ hfs, ?_⟩
  rw [hstart, fillerText_append, fillerText_blanks, hpiece, byteSize_append, byteSize_append]
  omega

namespace Before

/-- The cut starts at a token or right behind one. -/
theorem alike (h : k.Before c d) {e : Cursor} (he : k.EndsBefore e)
    (hc : c.lastStop = byteSize k.front ∨ (c.token.start = byteSize k.front ∧ c.here ≠ [])) :
    k.Alike e d := by
  obtain ⟨hwhole, gs, hgs, hstart⟩ := he
  suffices hrest : d.token.start = byteSize k.front + byteSize (fillerText gs) from
    ⟨hwhole, h.rest, by omega, by omega⟩
  rcases hc with hlast | ⟨hfront, hsolid⟩
  · rw [(h.rest.on.of_fills rfl (by rw [← hlast, h.last_eq]) hgs).2, ← h.last_eq, hlast]
  · obtain ⟨before, fs, hsplit, hbefore, hfills, hstart'⟩ := h.whole.on.exists_fills
    rw [← List.append_assoc] at hsplit
    obtain ⟨hfs, -⟩ := append_inj_of_byteSize_eq hsplit (by rw [byteSize_append]; omega)
    have hrest : k.rest = before ++ (fillerText fs ++ k.behind) := by
      rw [Cut.rest, hfs, List.append_assoc]
    have hfills := hfills.replace hsolid hgs
    rw [(h.rest.on.of_fills hrest (by rw [hbefore, h.last_eq]) hfills).2, fillerText_append,
      byteSize_append, ← h.last_eq]
    omega

end Before

end Cut

end VueSetup.Script
