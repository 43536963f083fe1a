import VueSetup.Proofs.Script.Parse

/-!
# VueSetup.Proofs.Script.Fresh

Cursors at which a name can be cut off from what stands before it.

A cursor is **fresh** when a name at it starts outside of any closing tag, whatever stands before.
That is so behind every token but `<`, `<<` and `/` (`Cursor.On.fresh_next`), at the end of a line
and before a closing brace. `p.Settles src` says that `p` leaves a fresh cursor wherever it starts.
-/

namespace VueSetup.Script

open Text

variable {src : List Char} {c : Cursor}

/-! ### Offsets

A text is clear at an offset if what stands before does not end inside of a closing tag
(`Text.IsClear`). That is more than needed where no name follows, because only a name can go on with
`</`. -/

/-- A name that starts at the offset does not go on with a closing tag: the text before does not end
inside of one, or there is no name. -/
def IsSettled (src : List Char) (n : Nat) : Prop :=
  ∃ before behind, src = before ++ behind ∧ byteSize before = n ∧
    (¬ EndsInTag before ∨ StartsNoName behind)

/-- Where no tag is open no name can go on with one. -/
theorem isSettled_of_isClear {n : Nat} (h : IsClear src n) : IsSettled src n := by
  obtain ⟨before, behind, heq, hsize, hends⟩ := h
  exact ⟨before, behind, heq, hsize, .inl hends⟩

/-- No quote stands in a closing tag before its end. -/
theorem isTagPart_of_isQuote {c : Char} (h : isQuote c = true) : isTagPart c = false := by
  simp only [isQuote, Bool.or_eq_true, beq_iff_eq] at h
  rcases h with (rfl | rfl) | rfl <;> decide

/-- Behind a quote no tag is open. -/
theorem isClear_of_closesAt {n : Nat} (h : ClosesAt src n) : IsClear src n := by
  obtain ⟨before, quote, behind, rfl, rfl, hquote⟩ := h
  refine ⟨before ++ [quote], behind, by simp, by simp [utf8Size_of_isQuote hquote], ?_⟩
  exact not_endsInTag_append_singleton before (isTagPart_of_isQuote hquote)

/-! ### Tokens

The token decides, not what it stands for. The text may still end inside of `</` behind `<`, `<<`
and `/`; a template with embedded expressions has not ended yet, and of what is no token nothing is
known. -/

/-- No name behind the token goes on with a closing tag. -/
def TokenKind.isFirm : TokenKind → Bool
  | .punct p => !p.isOpen
  | .template whole _ => whole
  | .invalid | .endOfText => false
  | _ => true

/-- A name at the cursor starts outside of any closing tag. -/
def Cursor.Fresh (src : List Char) (c : Cursor) : Prop :=
  StartsNoName c.here ∨ IsClear src c.token.start

namespace Cursor.On

/-- A token that ends with a character of no tag ends at a clear offset. -/
theorem isClear_stop_of_endsNoTag (h : c.On src) (hends : EndsNoTag c.here c.behind) :
    IsClear src c.token.stop := by
  obtain ⟨before, htext, -⟩ := h.here
  obtain ⟨before', htext', hsize⟩ := h.behind
  obtain ⟨front, d, hhere, hd⟩ := hends
  refine ⟨before', c.behind, htext', hsize, ?_⟩
  have hbefore : before' = before ++ front ++ [d] := by
    apply List.append_cancel_right
    rw [← htext', htext, hhere]
    simp
  rw [hbefore]
  exact not_endsInTag_append_singleton _ hd

/-- Each firm token ends with a character of no tag, or with one that no name can follow. -/
theorem isSettled_stop (h : c.On src) (hfirm : c.token.kind.isFirm = true) :
    IsSettled src c.token.stop := by
  have hends := h.ends
  have hcloses := h.closes
  -- behind names and numbers no name starts
  have hname : StartsNoName c.behind → IsSettled src c.token.stop := by
    intro hrest
    obtain ⟨before, htext, hsize⟩ := h.behind
    exact ⟨before, c.behind, htext, hsize, .inr hrest⟩
  have hquoted : (∃ front d, c.here = front ++ d :: c.behind ∧ isQuote d = true) →
      IsSettled src c.token.stop := by
    rintro ⟨front, d, hhere, hd⟩
    exact isSettled_of_isClear (h.isClear_stop_of_endsNoTag
      ⟨front, d, hhere, isTagPart_of_isQuote hd⟩)
  cases hkind : c.token.kind with
  | word name escaped =>
    rw [hkind] at hends
    exact hname hends.stops
  | privateName name | number | bigint =>
    rw [hkind] at hends
    exact hname hends
  | string value =>
    rw [hkind] at hcloses
    exact hquoted hcloses
  | template whole proper =>
    rw [hkind] at hfirm hcloses
    obtain rfl : whole = true := hfirm
    exact hquoted hcloses
  | punct p =>
    rw [hkind] at hfirm hends
    have hopen : p.isOpen = false := by simpa [TokenKind.isFirm] using hfirm
    exact isSettled_of_isClear (h.isClear_stop_of_endsNoTag (hends.ends hopen))
  | invalid | endOfText =>
    rw [hkind] at hfirm
    cases hfirm

/-! ### Fresh cursors

From the end of one token to the start of the next there are only blanks and comments, which part a
name from what stands before them. Where there are none the next token is no name, or the token
before is firm. -/

/-- The text before the token, in the two parts that the token before leaves. -/
theorem isClear_start (h : c.On src) {before passed : List Char}
    (htext : src = before ++ (passed ++ c.here)) (hends : ¬ EndsInTag (before ++ passed)) :
    IsClear src c.token.start := by
  obtain ⟨before', htext', hsize⟩ := h.here
  have hbefore : before' = before ++ passed := by
    apply List.append_cancel_right
    rw [← htext', htext, List.append_assoc]
  exact ⟨before', c.here, htext', hsize, hbefore ▸ hends⟩

/-- Blanks and comments do no harm: behind them the text is clear, and without them nothing changes.
-/
theorem fresh_of_isSettled (h : c.On src) (hlast : IsSettled src c.lastStop) : c.Fresh src := by
  obtain ⟨before, passed, htext, hsize, hparted⟩ := h.parted
  obtain ⟨before', behind, htext', hsize', hsettled⟩ := hlast
  obtain ⟨rfl, rfl⟩ := append_inj_of_byteSize_eq (htext'.symm.trans htext) (hsize'.trans hsize.symm)
  rcases hparted with ⟨rfl, -⟩ | hparted | hparted
  · rcases hsettled with hsettled | hsettled
    · exact .inr (h.isClear_start htext (by simpa using hsettled))
    · exact .inl hsettled
  · exact .inr (h.isClear_start htext (hparted before'))
  · exact .inl (hparted ▸ startsNoName_nil)

/-- Behind a token that is read up to its end. -/
theorem fresh_next (h : c.On src) (hfirm : c.token.kind.isFirm = true) : c.next.Fresh src :=
  h.next.fresh_of_isSettled (h.isSettled_stop hfirm)

/-- Behind closing punctuation, which is how most rules end. -/
theorem fresh_next_of_isPunct (h : c.On src) {p : Punct} (hp : c.token.isPunct p = true)
    (hopen : p.isOpen = false) : c.next.Fresh src :=
  h.fresh_next (by rw [beq_iff_eq.mp hp, TokenKind.isFirm, hopen]; rfl)

/-- A cursor where a statement may end without a semicolon. -/
theorem fresh_of_mayEnd (h : c.On src) (hend : (c.token.isPunct .rcurly ||
    c.token.kind == .endOfText || c.token.afterLineEnd) = true) : c.Fresh src := by
  have hends := h.ends
  simp only [Bool.or_eq_true, beq_iff_eq] at hend
  rcases hend with (hbrace | hkind) | hline
  · rw [beq_iff_eq.mp hbrace] at hends
    exact .inl hends.starts
  · rw [hkind] at hends
    exact .inl hends
  · obtain ⟨before, passed, htext, -, hparted⟩ := h.parted
    rcases hparted with ⟨-, hsame⟩ | hparted | hparted
    · rw [hline] at hsame
      cases hsame
    · exact .inr (h.isClear_start htext (hparted before))
    · exact .inl (hparted ▸ startsNoName_nil)

/-- A keyword at a fresh cursor starts at a clear offset. -/
theorem isClear_of_isWord (h : c.On src) (hfresh : c.Fresh src) {w : String}
    (hw : c.token.isWord w = true) : IsClear src c.token.start := by
  rcases hfresh with hnone | hclear
  · have hends := h.ends
    rw [Token.kind_of_isWord hw] at hends
    obtain ⟨d, hd, hstart⟩ := hends.starts rfl
    rw [hnone d hd] at hstart
    cases hstart
  · exact hclear

end Cursor.On

/-! ### Clear cursors

Between the names of an import more is needed than a fresh cursor, since the text is cut at the end
of a name as well. -/

/-- The text up to the end of the last token does not end inside of a closing tag. -/
structure Cursor.Clear (src : List Char) (c : Cursor) : Prop where
  on : c.On src
  last : IsClear src c.lastStop

namespace Cursor

/-- A token that is not empty starts at a clear offset then. -/
theorem Clear.isClear_start (h : c.Clear src)
    (hsized : ∀ size, c.token.kind.Sized size → 0 < size) : IsClear src c.token.start := by
  obtain ⟨before, passed, htext, hsize, hparted⟩ := h.on.parted
  have hlast := h.last
  rw [htext, ← hsize] at hlast
  rcases hparted with ⟨rfl, -⟩ | hparted | hhere
  · exact h.on.isClear_start htext (by simpa using hlast.not_endsInTag)
  · exact h.on.isClear_start htext (hparted before)
  · obtain ⟨before', htext', hsize'⟩ := h.on.here
    have hpos := hsized _ h.on.sized
    have hstop := h.on.next.last_isBoundary.le_byteSize
    rw [htext', hhere, byteSize_append, hsize', next_lastStop, byteSize_nil] at hstop
    omega

/-- A word has no `<`, so that the text behind it is as clear as the text before it. -/
theorem On.clear_next_of_word (h : c.On src) {name : String} {escaped : Bool}
    (hkind : c.token.kind = .word name escaped) (hclear : IsClear src c.token.start) :
    c.next.Clear src := by
  obtain ⟨before, htext, hsize⟩ := h.here
  obtain ⟨before', htext', hsize'⟩ := h.behind
  have hends := h.ends
  rw [hkind] at hends
  obtain ⟨taken, hhere, hlt⟩ := hends.plain
  have hbefore : before' = before ++ taken := by
    apply List.append_cancel_right
    rw [← htext', htext, hhere, List.append_assoc]
  rw [htext, ← hsize] at hclear
  refine ⟨h.next, before', c.behind, htext', hsize', ?_⟩
  rw [hbefore]
  exact not_endsInTag_append hclear.not_endsInTag (sealed_of_lt_notMem hlt).ends

/-- A word on a clear cursor starts clear and leaves a clear cursor. -/
theorem Clear.of_word (h : c.Clear src) {name : String} {escaped : Bool}
    (hkind : c.token.kind = .word name escaped) :
    IsClear src c.token.start ∧ c.next.Clear src := by
  have hclear := h.isClear_start (by rw [hkind]; exact fun _ h => h)
  exact ⟨hclear, h.on.clear_next_of_word hkind hclear⟩

/-- A keyword that starts clear. -/
theorem On.clear_next_of_isWord (h : c.On src) {w : String} (hw : c.token.isWord w = true)
    (hclear : IsClear src c.token.start) : c.next.Clear src :=
  h.clear_next_of_word (Token.kind_of_isWord hw) hclear

/-- The same of a keyword on a clear cursor. -/
theorem Clear.of_isWord (h : c.Clear src) {w : String} (hw : c.token.isWord w = true) :
    IsClear src c.token.start ∧ c.next.Clear src :=
  h.of_word (Token.kind_of_isWord hw)

/-- Punctuation leaves a clear cursor whatever stands before it. -/
theorem On.clear_next_of_isPunct (h : c.On src) {p : Punct} (hp : c.token.isPunct p = true)
    (hopen : p.isOpen = false) : c.next.Clear src := by
  have hends := h.ends
  rw [beq_iff_eq.mp hp] at hends
  exact ⟨h.next, h.isClear_stop_of_endsNoTag (hends.ends hopen)⟩

/-- So does a string, which ends with a quote. -/
theorem On.clear_next_of_string (h : c.On src) {value : String}
    (hkind : c.token.kind = .string value) : c.next.Clear src :=
  ⟨h.next, isClear_of_closesAt (h.quoted_string hkind).closes⟩

end Cursor

/-! ### Parsers

Most rules end with a token that is known, so that all that is needed of the steps before it is that
they stay on the text (`Cursor.On.then`). -/

/-- Read on, where only the next cursor is of interest. -/
theorem Cursor.On.then {α : Type} {ctx : Context} {p : Parse α} {f : α → List Node}
    {Q : α → Cursor → Prop} (hc : c.On src) (hp : p.Lays src f)
    (hq : ∀ a c', c'.On src → Q a c') : p.Ensures ctx c Q :=
  (hp ctx c hc).imp fun a c' h => hq a c' h.on

/-- Read on up to closing punctuation. -/
theorem Cursor.On.fresh_behind {α : Type} {ctx : Context} {p : Parse α} {f : α → List Node}
    {close : Punct} (hc : c.On src) (hp : p.Lays src f) (hopen : close.isOpen = false) :
    p.Ensures ctx c fun _ c' => c'.token.isPunct close = true → c'.next.Fresh src :=
  hc.then hp fun _ _ hc' hclose => hc'.fresh_next_of_isPunct hclose hopen

namespace Parse

variable {α : Type}

/-- The parser leaves a fresh cursor. -/
def Settles (src : List Char) (p : Parse α) : Prop :=
  ∀ ctx c, c.On src → p.Ensures ctx c fun _ c' => c'.Fresh src

theorem settles_reject : (reject : Parse α).Settles src :=
  fun _ _ _ => ensures_reject

/-- A statement ends behind a semicolon, or where nothing on the same line can follow. -/
theorem settles_endStatement : endStatement.Settles src := by
  intro ctx c hc
  simp only [endStatement, ensures_bind, ensures_mayEnd, ensures_require, ensures_discard,
    ensures_eat?]
  refine fun hend => ⟨fun hsemicolon => hc.fresh_next_of_isPunct hsemicolon rfl, fun hnone => ?_⟩
  rw [hnone, Bool.false_or] at hend
  exact hc.fresh_of_mayEnd hend

/-- A name ends where no further name starts. -/
theorem settles_reference : reference.Settles src := by
  intro ctx c hc
  simp only [reference, ensures_bind, ensures_pure]
  exact ensures_identifier fun _ _ hkind => hc.fresh_next (by rw [hkind]; rfl)

theorem settles_anyName : anyName.Settles src :=
  fun _ _ hc => ensures_anyName fun _ _ hkind => hc.fresh_next (by rw [hkind]; rfl)

theorem settles_plainName : plainName.Settles src := by
  intro ctx c hc
  simp only [plainName, ensures_bind, ensures_pure]
  exact settles_anyName ctx c hc

/-- A private name ends like a name. -/
theorem settles_privateName : privateName.Settles src := by
  intro ctx c hc
  simp only [privateName, ensures_bind, ensures_token]
  split
  · next hkind =>
    simp only [ensures_bind, ensures_advance, ensures_pure]
    exact hc.fresh_next (by rw [hkind]; rfl)
  · exact ensures_reject

/-- A list ends with its closing punctuation. -/
theorem LaysElement.settles_listTo {item : Parse α} {f : α → List Node}
    (hitem : item.LaysElement src f) {close : Punct} (hclose : close.isOpen = false) :
    (Parse.listTo close item).Settles src := by
  intro ctx c hc
  simp only [Parse.listTo, ensures_bind, ensures_bound, ensures_expect, ensures_pure]
  have hitems : (Parse.listFuel close item c.bound).Lays src (List.flatMap f) :=
    hitem.listFuel close rfl (fun _ _ => rfl) c.bound
  exact hc.fresh_behind hitems hclose

end Parse

end VueSetup.Script
