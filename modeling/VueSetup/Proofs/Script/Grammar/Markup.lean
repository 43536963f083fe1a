import VueSetup.Proofs.Script.Grammar.Expression
import VueSetup.Script.Grammar.Markup

/-!
# VueSetup.Proofs.Script.Grammar.Markup

Elements of markup are laid in the text, up to their last `>`.

Between tags the text is not made of tokens: it is read up to the next `<` or `{`, and the scanner
is set there. A cursor on text that is no token is still a cursor on the text, so that `Reach` goes
through; only the last `>` is left to the rule around, since what stands behind it may be text
again.
-/

namespace VueSetup.Script.Grammar

open Parse Text

variable {src : List Char} {g : Grammar}

/-! ### Names

A name of markup has hyphens in it, so that it is longer than the word at its start. -/

/-- A left angle starts a tag and stands in no name. -/
theorem ne_lt_of_isMarkupPart {c : Char} (h : isMarkupPart c = true) : c ≠ '<' := by
  rintro rfl
  revert h
  decide

/-- A name of markup is not empty where a word starts. -/
theorem byteSize_markupWord_pos {c : Cursor} (hc : c.On src) {name : String}
    (hkind : c.token.kind = .word name false) : 0 < byteSize (c.here.takeWhile isMarkupPart) := by
  have hends := hc.ends
  rw [hkind] at hends
  obtain ⟨d, hd, hstart⟩ := hends.starts rfl
  obtain ⟨rest, hhere⟩ := List.head?_eq_some_iff.mp hd
  have hpart : isMarkupPart d = true := by simp [isMarkupPart, isIdentifierPart_of_start hstart]
  rw [hhere, List.takeWhile_cons_of_pos hpart, byteSize_cons]
  exact Nat.add_pos_left d.utf8Size_pos _

/-- A name of markup is the text up to where the next token is looked for. -/
theorem ensures_markupWord {ctx : Context} {c : Cursor} (hc : c.On src) :
    markupWord.Ensures ctx c fun w c' =>
      w.1 = ⟨c.token.start, c'.lastStop⟩ ∧ '<' ∉ w.2.toList ∧ Pass src c c' [] := by
  simp only [markupWord, ensures_bind, ensures_get]
  split
  · next hkind =>
    simp only [ensures_bind, ensures_moveTo, ensures_pure]
    have hname : '<' ∉ c.here.takeWhile isMarkupPart := fun hmem =>
      ne_lt_of_isMarkupPart (List.all_eq_true.mp List.all_takeWhile _ hmem) rfl
    refine ⟨rfl, by simpa using hname, hc.scanAt hc.bound_eq .nil (Nat.le_add_right _ _)
      (fun _ => Nat.lt_add_of_pos_right (byteSize_markupWord_pos hc hkind)) ?_⟩
    have htakes : (Scanned.mk () (byteSize (c.here.takeWhile isMarkupPart))
        (c.here.dropWhile isMarkupPart)).Takes c.here :=
      ⟨_, List.takeWhile_append_dropWhile.symm, rfl⟩
    exact hc.exists_before htakes
  · exact ensures_reject

/-- A name passes the word at the cursor. -/
theorem laysPast_markupWord : markupWord.LaysPast src fun _ => [] :=
  fun _ _ hc => (ensures_markupWord hc).imp fun _ _ h => h.2.2

/-- The name of an element may have dots or a colon in it. -/
theorem lays_elementName : elementName.Lays src fun e => [e.1] := by
  intro ctx c hc
  have hpath : (until? (not <$> at? .dot) do
      advance
      Prod.snd <$> markupWord).Lays src fun _ => [] := by
    refine Lays.skipUntil (fun ctx c hc => ?_) (fun ctx c => by simp)
    simp
    exact hc.pass.then laysPast_markupWord.lays fun _ c₁ h => h.toReach
  simp [elementName]
  refine (ensures_markupWord hc).imp ?_
  rintro ⟨_, name⟩ c₁ ⟨rfl, hlt, h⟩
  have hname : Pass src c c₁ [.reference ⟨c.token.start, c₁.lastStop⟩ name] :=
    h.node rfl (Node.isPlain_reference hlt _) rfl
  refine ⟨fun _ => ?_, fun _ => ⟨fun _ => ?_, fun _ => ⟨fun _ _ => ?_, fun _ => ?_⟩⟩⟩
  · exact h.toReach.next.then laysPast_markupWord.lays fun second c₂ h =>
      (h.form .other (by simp)).toReach
  · dsimp only
    split
    · exact h.then hpath fun path c₂ h => (h.form .other (by simp)).toReach
    · exact hname.then hpath fun path c₂ h => (h.form .other (by simp)).toReach
  · exact hname.toReach
  · exact (h.node rfl rfl rfl).toReach

/-! ### Attributes

Values in quotes are read from the text, all others by the rules for expressions and elements. -/

/-- A string of markup has no escapes, and is read again from its quote. -/
theorem lays_markupString : markupString.Lays src ([·]) := by
  intro ctx c hc
  simp [markupString]
  split
  · next quote text hhere =>
    simp
    intro hquote
    split
    · next d rest hrest =>
      simp
      -- both quotes are the same one
      have hd : d = quote := by
        simpa [hrest] using List.head?_dropWhile_not (· != quote) text
      have hmark : isQuote quote = true := by
        rcases hquote with rfl | rfl <;> rfl
      have htext : c.here = quote :: text.takeWhile (· != quote) ++ quote :: rest := by
        have htext := List.takeWhile_append_dropWhile (p := (· != quote)) (l := text)
        rw [hrest, hd] at htext
        simp [hhere, htext]
      have htakes : (Scanned.mk () (byteSize (text.takeWhile (· != quote)) + 2) rest).Takes
          c.here := by
        refine ⟨quote :: (text.takeWhile (· != quote) ++ [quote]), by simp [htext], ?_⟩
        simp [byteSize_append, utf8Size_of_isQuote hmark]
        omega
      have hcs := hc.exists_before htakes
      rw [← Nat.add_assoc] at hcs
      have hquoted : Node.Quoted src
          ⟨c.token.start, c.token.start + byteSize (text.takeWhile (· != quote)) + 2⟩ := by
        obtain ⟨before, hsrc, -⟩ := hc.here
        refine ⟨hc.opens ⟨quote, text, hhere, hmark⟩, Cursor.On.closesAt ⟨before ++
          quote :: text.takeWhile (· != quote), quote, ?_, hmark⟩ hcs⟩
        rw [hsrc, htext, List.append_assoc]
      exact ((hc.scanAt hc.bound_eq .nil (by omega) (fun _ => by omega) hcs).string hquoted
        _).toReach
    · simp
  · simp

/-- A string, an expression in braces, or an element. -/
theorem lays_attributeValue (hg : g.Sound src) : g.attributeValue.Lays src ([·]) := by
  intro ctx c hc
  simp [attributeValue]
  refine ⟨fun _ => ?_, fun _ => ⟨fun _ => ?_, fun _ => lays_markupString ctx c hc⟩⟩
  · refine hc.pass.then (fun ctx c hc => hg.assignment _ c hc) fun value c₁ h _ => ?_
    exact h.toReach.next.toReach
  · exact (hg.element ctx c hc).imp fun element c₁ h => h.2.toReach

/-- The name of an attribute makes no tree. -/
theorem laysPast_attributeName : attributeName.LaysPast src fun _ => [] := by
  intro ctx c hc
  simp [attributeName]
  refine hc.reach.thenPast laysPast_markupWord fun _ c₁ h => ⟨fun _ => ?_, fun _ => h⟩
  exact h.toReach.next.then laysPast_markupWord.lays fun _ c₂ h => h

/-- An attribute with a value or without, or attributes that are spread out. -/
theorem lays_markupAttribute (hg : g.Sound src) : g.markupAttribute.Lays src ([·]) := by
  intro ctx c hc
  simp [markupAttribute]
  refine ⟨fun _ => ?_, fun _ => ?_⟩
  · exact hc.pass.then (lays_spread hg) fun operand c₁ h _ => h.toReach.next.toReach
  refine hc.reach.thenPast laysPast_attributeName fun _ c₁ h => ⟨fun _ => ?_, fun _ => ?_⟩
  · refine h.toReach.next.then ((lays_attributeValue hg).optional _) fun value c₂ h => ?_
    exact (h.form .other (by simp)).toReach
  · exact h.then ((lays_attributeValue hg).optional _) fun value c₂ h =>
      (h.form .other (by simp)).toReach

/-! ### Elements

Children are texts, embedded values and elements. They are read from an offset on and not from a
cursor, because the token that the scanner would give there means nothing. -/

/-- An expression in braces, which may be missing. -/
theorem lays_embeddedValue (hg : g.Sound src) : g.embeddedValue.Lays src id := by
  intro ctx c hc
  simp [embeddedValue]
  refine ⟨fun _ => hc.reach, fun _ => ⟨fun _ => ?_, fun _ => ?_⟩⟩
  · exact (lays_spread hg).one ctx c hc
  · exact hg.assignment.bracketed.one ctx c hc

/-- What stands between tags is read on from the end of the last token, wherever the cursor is. -/
theorem ensures_children (hg : g.Sound src) {ctx : Context} {c : Cursor} (n : Nat) {c₁ d : Cursor}
    {ns : List Node} {cs : List Char} (h : Pass src c d ns) (hc₁ : c₁.On src)
    (hcs : ∃ before, src = before ++ cs ∧ byteSize before = d.lastStop) :
    (g.children n d.lastStop cs).Ensures ctx c₁ fun nodes c' => Pass src c c' (ns ++ nodes) := by
  induction n generalizing c₁ d ns cs with
  | zero => exact ensures_reject
  | succ n ih =>
    obtain ⟨before, htext, hsize⟩ := hcs
    have hscan : Pass src c (Cursor.scanAt c₁.bound
        (d.lastStop + byteSize (cs.takeWhile isPlainText)) (cs.dropWhile isPlainText)) ns := by
      refine h.base.scanAt hc₁.bound_eq (h.fit.weaken (Nat.le_refl _) (Nat.le_add_right _ _))
        (Nat.le_trans h.passed (Nat.le_add_right _ _))
        (fun hsolid => Nat.lt_of_lt_of_le (h.left hsolid) (Nat.le_add_right _ _))
        ⟨before ++ cs.takeWhile isPlainText, ?_, ?_⟩
      · rw [htext, List.append_assoc, List.takeWhile_append_dropWhile]
      · rw [byteSize_append, hsize]
    simp [children]
    split
    · simp
      refine hscan.toReach.next.then (lays_embeddedValue hg) fun embedded c₂ h _ => ?_
      refine (ih h.toReach.next h.on h.on.behind).imp fun others c₃ h => by simpa using h
    · simp
      refine ⟨fun _ => by simpa using hscan, fun _ => ?_⟩
      refine (hg.element ctx _ hscan.on).imp fun element c₂ ⟨hc₂, helement⟩ => ?_
      refine (ih (hscan.append helement.toReach) hc₂ hc₂.behind).imp fun others c₃ h => by
        simpa using h
    · simp

/-- Type arguments behind the name of an element. -/
theorem lays_elementTypes (hg : g.Sound src) : g.elementTypes.Lays src id := by
  intro ctx c hc
  simp [elementTypes]
  exact ⟨fun _ _ => lays_typeArguments hg ctx c hc, fun _ => hc.reach⟩

/-- An element lies between its first token and its last one, on which the cursor stays. -/
theorem ensures_elementRule (hg : g.Sound src) {ctx : Context} {c : Cursor} (hc : c.On src) :
    g.elementRule.Ensures ctx c fun n c' => c'.On src ∧ Pass src c c'.next [n] := by
  simp [elementRule, tagEnd]
  refine fun _ => ⟨fun _ => ?_, fun _ => ?_⟩
  · have hopen := hc.pass.toReach.next
    refine (ensures_children hg _ hopen hc.next hc.next.behind).imp fun inside c₁ h _ _ _ => ?_
    have hclosed := h.toReach.next.toReach.next
    exact ⟨hclosed.on, hclosed.toReach.next.form .other (by simp)⟩
  refine hc.pass.then lays_elementName fun head c₁ h => ?_
  refine h.then (lays_elementTypes hg) fun types c₂ h => ?_
  refine h.then ((lays_markupAttribute hg).nodesUntil fun ctx c => by simp) fun attributes c₃ h =>
    ?_
  refine ⟨fun _ _ => ?_, fun _ => ?_⟩
  · exact ⟨h.on.next, h.toReach.next.toReach.next.form .other (by simp)⟩
  refine (ensures_children hg _ h.toReach.next h.on h.on.behind).imp fun inside c₄ h _ _ => ?_
  refine h.toReach.next.toReach.next.then lays_elementName fun tail c₅ h _ _ => ?_
  exact ⟨h.on, h.toReach.next.form .other (by simp)⟩

end VueSetup.Script.Grammar
