import VueSetup.Proofs.Pass.Outdent
import VueSetup.Proofs.Transform.Independence

/-!
# VueSetup.Proofs.Transform.Literals

Strings and templates over several lines, in statements of `setup` that move out.

Which lines of a statement are kept as they are is told by their numbers in the script, and the
lines are those of the statement with earlier edits made. The two numberings agree up to a literal
as long as no rewritten callee before it holds a line feed; then the literal moves as it is
(`setup_keeps_literal`). Where one does, the lines behind it are counted wrongly
(`setup_brokenCallee`).
-/

namespace VueSetup

open Script (Dialect Laid Node Program)
open Text (IsBoundary byteSize feeds)

/-! ### Quotes

A literal starts and ends with a quote, which is no blank, so that the text can be cut at both of
its ends while indentation is taken off. -/

namespace Script

/-- A literal starts and ends with a quote. -/
structure IsLiteral (src : List Char) (l : Span) : Prop where
  start_isBoundary : IsBoundary src l.start
  stop_isBoundary : IsBoundary src l.stop
  start_lt_stop : l.start < l.stop
  quoted : Node.Quoted src l

/-- The literals of a script are texts in quotes. -/
theorem isLiteral_of_mem {dialect : Dialect} {source : String} {program : Program}
    (hprogram : Program.parse? dialect source = some program) {l : Span}
    (hl : l ∈ multilineLiterals program source.toList) : IsLiteral source.toList l := by
  obtain ⟨hmem, hfeed⟩ := List.mem_filter.mp hl
  obtain ⟨n, hn, hspan⟩ := List.mem_filterMap.mp hmem
  have hnodes : n ∈ Node.nodesOf (program.directives ++ program.statements) := by
    rw [Node.nodesOf_append]
    exact hn
  have hsits := ((Program.laid_of_parse? hprogram).of_mem_nodesOf hnodes).sits
  have hn : n.span = l ∧ Node.Quoted source.toList l := by
    have hproper := hsits.proper
    cases n
    case string span value =>
      cases hspan
      exact ⟨rfl, hproper⟩
    case template span embedded =>
      cases hspan
      exact ⟨rfl, hproper⟩
    all_goals cases hspan
  obtain ⟨rfl, hquoted⟩ := hn
  refine ⟨hsits.start_isBoundary, hsits.stop_isBoundary, ?_, hquoted⟩
  -- an empty stretch holds no line feed
  refine Nat.lt_of_le_of_ne hsits.start_le_stop fun heq => ?_
  rw [holdsLineFeed, heq, Text.between_self] at hfeed
  cases hfeed

namespace IsLiteral

variable {src : List Char} {l : Span}

/-- It starts with no blank. -/
theorem head (h : IsLiteral src l) :
    ∀ c ∈ (Text.between src l.start l.stop).head?, Text.isSpaceOrTab c = false := by
  obtain ⟨before, quote, behind, hsrc, hsize, hquote⟩ := h.quoted.opens
  have hnext : IsBoundary src (l.start + 1) := by
    refine ⟨before ++ [quote], behind, by simp [hsrc], ?_⟩
    rw [Text.byteSize_append, hsize, Text.byteSize_cons, utf8Size_of_isQuote hquote]
    rfl
  have hfirst : Text.between src l.start (l.start + 1) = [quote] := by
    have hmiddle := Text.between_middle before [quote] behind
    rw [Text.byteSize_cons, utf8Size_of_isQuote hquote, hsize] at hmiddle
    simpa [hsrc] using hmiddle
  rw [Text.between_append h.start_isBoundary hnext h.stop_isBoundary
    (Nat.le_succ _) h.start_lt_stop, hfirst]
  intro c hc
  cases hc
  simp only [isQuote, Bool.or_eq_true, beq_iff_eq] at hquote
  rcases hquote with (rfl | rfl) | rfl <;> rfl

/-- It ends with neither a blank nor a line feed. -/
theorem exists_last (h : IsLiteral src l) : ∃ body mark,
    Text.between src l.start l.stop = body ++ [mark] ∧ Text.isSpaceOrTab mark = false ∧
      mark ≠ '\n' := by
  obtain ⟨before, quote, behind, hsrc, hsize, hquote⟩ := h.quoted.closes
  have hlast : IsBoundary src (l.stop - 1) :=
    ⟨before, quote :: behind, hsrc, by omega⟩
  have hmark : Text.between src (l.stop - 1) l.stop = [quote] := by
    have hmiddle := Text.between_middle before [quote] behind
    rw [Text.byteSize_cons, utf8Size_of_isQuote hquote,
      show byteSize before = l.stop - 1 by omega] at hmiddle
    have hstop : l.stop - 1 + (1 + byteSize []) = l.stop := by
      rw [Text.byteSize_nil]
      have := h.start_lt_stop
      omega
    rw [hstop] at hmiddle
    simpa [hsrc] using hmiddle
  have hlt := h.start_lt_stop
  refine ⟨Text.between src l.start (l.stop - 1), quote, ?_, ?_⟩
  · rw [← hmark]
    exact Text.between_append h.start_isBoundary hlast h.stop_isBoundary (by omega) (Nat.sub_le _ _)
  · simp only [isQuote, Bool.or_eq_true, beq_iff_eq] at hquote
    rcases hquote with (rfl | rfl) | rfl <;> exact ⟨rfl, by decide⟩

end IsLiteral

/-- No line ends in a stretch without a line feed. -/
theorem feeds_of_holdsLineFeed {src : List Char} {span : Span}
    (h : holdsLineFeed src span = false) : feeds (Text.between src span.start span.stop) = 0 := by
  rw [feeds, List.count_eq_zero]
  simpa [holdsLineFeed] using h

end Script

namespace Transformation

variable {source : String} {program : Program} {c : Component} {options : Options}

/-! ### One segment

In the slice of a segment the literal stands behind what becomes of the text before it. If as many
lines end there as in the script, its lines are those whose numbers are kept. -/

/-- A literal in a stretch whose lines before it are counted rightly: what stands before and behind
it moves out as if it stood alone, and the literal as it is. -/
theorem outdent_literal {literals : List Span} {l : Span} (hmem : l ∈ literals)
    (hl : Script.IsLiteral source.toList l) {start stop : Nat}
    (hlo : IsBoundary source.toList start)
    (hhi : IsBoundary source.toList stop) (hstart : start ≤ l.start) (hstop : l.stop ≤ stop)
    {before : String} (hfeeds : feeds before.toList =
      feeds (Text.between source.toList start l.start))
    (behind : String) (indent : Nat) :
    Declaration.outdent (before ++ cut source l.start l.stop ++ behind) indent
        (Pass.literalLines source.toList literals ⟨start, stop⟩) =
      Declaration.outdent before indent
          (Pass.literalLines source.toList literals ⟨start, l.start⟩) ++
        cut source l.start l.stop ++
        Declaration.outdent behind indent
          (Pass.literalLines source.toList literals ⟨l.stop, stop⟩) := by
  have hle := Nat.le_of_lt hl.start_lt_stop
  have htext := toList_cut source l.start l.stop
  obtain ⟨body, mark, hlast, hmark, hfeed⟩ := hl.exists_last
  refine Declaration.outdent_append (htext ▸ hl.head) (htext.trans hlast) hmark hfeed ?_ ?_ ?_
  · intro i hi
    rw [hfeeds] at hi
    exact Pass.contains_literalLines_front hlo hl.start_isBoundary hhi hstart
      (Nat.le_trans hle hstop) hi
  · intro i hi
    rw [htext] at hi
    rw [hfeeds, Pass.contains_literalLines_back hlo hl.start_isBoundary hhi hstart
      (Nat.le_trans hle hstop) i, Pass.contains_literalLines_front hl.start_isBoundary
      hl.stop_isBoundary hhi hle hstop hi]
    exact Pass.contains_literalLines_literal hmem hl.start_isBoundary hl.stop_isBoundary hle hlast
      hfeed hi
  · intro i hi
    have hsum : feeds before.toList + feeds (cut source l.start l.stop).toList =
        feeds (Text.between source.toList start l.stop) := by
      rw [hfeeds, htext, ← Text.feeds_append, ← Text.between_append hlo hl.start_isBoundary
        hl.stop_isBoundary hstart hle]
    rw [hsum]
    exact Pass.contains_literalLines_back hlo hl.stop_isBoundary hhi (Nat.le_trans hstart hle)
      hstop i

namespace Edited

variable {declared : Bool} {d : Draft}

/-- The callees that are rewritten in a slice lie in it. -/
theorem exists_of_mem_keptIn (he : Edited source c declared d) (h : c.InScript source program)
    {span : Span} {r : Draft.Replacement} (hr : r ∈ d.keptIn span) :
    declared = true ∧ ∃ callee ∈ Pass.callees c, r = ⟨callee, Declaration.emitBinding⟩ ∧
      span.start ≤ callee.start ∧ callee.stop ≤ span.stop := by
  obtain ⟨hmem, hin⟩ := (Draft.mem_keptIn (he.apart h)).mp hr
  obtain ⟨hdeclared, callee, hcallee, rfl⟩ := (he.replacement r).mp hmem
  exact ⟨hdeclared, callee, hcallee, rfl, hin⟩

/-- A stretch in which no callee lies is that of the script. -/
theorem slice?_eq_cut (he : Edited source c declared d) (h : c.InScript source program)
    {span : Span}
    (hd : d.Settled span) (hcalls : ∀ callee ∈ Pass.callees c, span.start ≤ callee.start →
      callee.stop ≤ span.stop → False) : d.slice? span =
        some (cut source span.start span.stop) := by
  have hkept : d.keptIn span = [] := by
    rw [List.eq_nil_iff_forall_not_mem]
    intro r hr
    obtain ⟨-, callee, hcallee, -, hstart, hstop⟩ := he.exists_of_mem_keptIn h hr
    exact hcalls callee hcallee hstart hstop
  rw [hd.slice?_eq, hkept, he.source_eq]
  rfl

/-- As many lines end in a slice as in the script, if none ends in a callee that is rewritten. -/
theorem feeds_slice? (he : Edited source c declared d) (h : c.InScript source program) {span : Span}
    (hd : d.Settled span) (hlines : declared = true → ∀ callee ∈ Pass.callees c,
      span.start ≤ callee.start → callee.stop ≤ span.stop →
        Script.holdsLineFeed source.toList callee = false)
    {text : String} (htext : d.slice? span = some text) :
    feeds text.toList = feeds (Text.between source.toList span.start span.stop) := by
  have hemit : feeds Declaration.emitBinding.toList = 0 := by decide
  rw [hd.slice?_eq, he.source_eq, Option.some.injEq] at htext
  rw [← htext, String.toList_ofList]
  refine Draft.feeds_replaced (he.source_eq ▸ hd.inTurn) fun r hr => ?_
  obtain ⟨hdeclared, callee, hcallee, rfl, hstart, hstop⟩ := he.exists_of_mem_keptIn h hr
  rw [Script.feeds_of_holdsLineFeed (hlines hdeclared callee hcallee hstart hstop)]
  exact hemit

/-- A segment with a literal in it. -/
theorem text?_of_literal (he : Edited source c declared d) (h : c.InScript source program)
    {g : Pass.Segment} (hg : g.LiesIn source.toList c.wrapper.start c.wrapper.stop)
    {literals : List Span} {l : Span} (hmem : l ∈ literals) (hl : Script.IsLiteral source.toList l)
    (hstart : g.span.start ≤ l.start) (hstop : l.stop ≤ g.span.stop)
    (hcalls : ∀ callee ∈ Pass.callees c, callee.stop ≤ l.start ∨ l.stop ≤ callee.start)
    (hlines : declared = true → ∀ callee ∈ Pass.callees c, g.span.start ≤ callee.start →
      callee.stop ≤ l.start → Script.holdsLineFeed source.toList callee = false) :
    ∃ before behind, d.slice? ⟨g.span.start, l.start⟩ = some before ∧
      d.slice? ⟨l.stop, g.span.stop⟩ = some behind ∧
      Pass.Segment.text? d literals g = some ((if g.blankBefore then "\n" else "") ++
        (Declaration.outdent before g.indent
            (Pass.literalLines source.toList literals ⟨g.span.start, l.start⟩) ++
          cut source l.start l.stop ++
          Declaration.outdent behind g.indent
            (Pass.literalLines source.toList literals ⟨l.stop, g.span.stop⟩)) ++ "\n") := by
  have hlo := hg.lo_le
  have hhi := hg.le_hi
  have hlt := hl.start_lt_stop
  have hcut : ∀ n, n = l.start ∨ n = l.stop →
      ∀ r ∈ d.replacements, r.span.stop ≤ n ∨ n ≤ r.span.start := by
    intro n hn r hr
    obtain ⟨-, callee, hcallee, rfl⟩ := (he.replacement r).mp hr
    have hside := hcalls callee hcallee
    dsimp only
    omega
  -- the slices before, in and behind the literal, and those that they make up
  have hsettled : ∀ {a b : Nat}, g.span.start ≤ a → b ≤ g.span.stop → a ≤ b →
      IsBoundary source.toList a → IsBoundary source.toList b → d.Settled ⟨a, b⟩ := by
    intro a b ha hb hab hstart hstop
    exact he.settled h (Nat.le_trans hlo ha) (Nat.le_trans hb hhi) hab hstart hstop
  have hfront := hsettled (Nat.le_refl _) (by omega) hstart hg.start_isBoundary hl.start_isBoundary
  have hinner := hsettled hstart hstop (Nat.le_of_lt hlt) hl.start_isBoundary hl.stop_isBoundary
  have hback := hsettled (by omega) (Nat.le_refl _) hstop hl.stop_isBoundary hg.stop_isBoundary
  have hpair := hsettled (Nat.le_refl _) hstop (by omega) hg.start_isBoundary hl.stop_isBoundary
  have hwhole := hsettled (Nat.le_refl _) (Nat.le_refl _) hg.start_le_stop hg.start_isBoundary
    hg.stop_isBoundary
  obtain ⟨before, literal, hbefore, hliteral, hfirst⟩ :=
    Draft.exists_slice?_append hfront hinner hpair (hcut l.start (.inl rfl))
  obtain ⟨both, behind, hboth, hbehind, htext⟩ :=
    Draft.exists_slice?_append hpair hback hwhole (hcut l.stop (.inr rfl))
  obtain rfl : both = before ++ literal := Option.some.inj (hboth.symm.trans hfirst)
  have hsame : literal = cut source l.start l.stop := by
    rw [he.slice?_eq_cut h hinner fun callee hcallee ha hb => ?_] at hliteral
    · exact (Option.some.inj hliteral).symm
    · have hside := hcalls callee hcallee
      have := (Pass.calleeLiesIn h.liesIn hcallee).start_lt_stop
      dsimp only at ha hb
      omega
  subst hsame
  have hslice : d.slice? g.span = some (before ++ cut source l.start l.stop ++ behind) := htext
  have houtdent := outdent_literal hmem hl hg.start_isBoundary hg.stop_isBoundary hstart hstop
    (he.feeds_slice? h hfront hlines hbefore) behind g.indent
  refine ⟨before, behind, hbefore, hbehind, ?_⟩
  rw [Pass.Segment.text?, hslice, he.source_eq]
  exact congrArg (fun text => some ((if g.blankBefore then "\n" else "") ++ text ++ "\n")) houtdent

end Edited

/-! ### All segments

The statement of the literal lies in one of the segments. The texts of the others stand before and
behind. -/

/-- What the pass for `setup` inserts is what becomes of the segments. -/
theorem insertion?_setup (h : c.InScript source program) {s : Setup} (hs : c.setup? = some s)
    {segments : List Pass.Segment} (hsegments : Pass.setupSegments? source.toList s = some segments)
    {d : Draft} (hd : d.source = source) {texts : List String}
    (htexts : segments.mapM (Pass.Segment.text? d
      (Script.multilineLiterals program source.toList)) = some texts) :
    Pass.insertion? Pass.setup program options d = some (String.join texts) := by
  cases segments with
  | nil =>
    cases htexts
    have hsetup : Pass.setup program options d = some ⟨d.recordAll [], false⟩ := by
      simp [Pass.setup, h.located, hs, hd, hsegments, PassResult.idle]
    rw [insertion?_of_recordAll hsetup]
    rfl
  | cons g segments =>
    have hsetup : Pass.setup program options d = some
        ⟨d.recordAll [.insert c.wrapper.start (String.join texts)], true⟩ := by
      simp only [Pass.setup, h.located, hs, hd, hsegments, htexts, Option.bind_eq_bind,
        Option.bind_some]
      rfl
    rw [insertion?_of_recordAll hsetup]
    simp [Edit.insertion?]

/-- What becomes of the middle one of several. -/
theorem mapM_append_cons {α β : Type} {f : α → Option β} {as bs : List α} {a : α} {xs ys : List β}
    {x : β} (has : as.mapM f = some xs) (ha : f a = some x) (hbs : bs.mapM f = some ys) :
    (as ++ a :: bs).mapM f = some (xs ++ x :: ys) := by
  rw [List.mapM_append, List.mapM_cons, has, ha, hbs]
  rfl

/-- **Literals over several lines move as they are.** Let a literal over several lines lie in a
statement of `setup` that does not return, and let no call of `emit` on the context be in it. If
events were declared, let no callee before it in the text that moves hold a line feed. Then, after
passes in any order, what the pass for `setup` inserts holds the literal as it stands in the script,
between what becomes of the text that moves before it and behind it. -/
theorem setup_keeps_literal {dialect : Dialect} {source : String} {program : Program}
    {c : Component} (hprogram : Program.parse? dialect source = some program)
    (hc : Component.locate? program = some c) {s : Setup} (hs : c.setup? = some s)
    (options : Options)
    {segments : List Pass.Segment} (hsegments : Pass.setupSegments? source.toList s = some segments)
    {ks : List PassName} {d : Draft} (hd : draftAfter? program options source ks = some d)
    {n : Node} (hn : n ∈ s.statements) (hreturn : ∀ span value, n ≠ .returnStatement span value)
    {l : Span} (hmem : l ∈ Script.multilineLiterals program source.toList)
    (hstart : n.span.start ≤ l.start) (hstop : l.stop ≤ n.span.stop)
    (hcalls : ∀ callee ∈ Pass.callees c, callee.stop ≤ l.start ∨ l.stop ≤ callee.start)
    (hlines : EventsDeclared program options source ks → ∀ g ∈ segments, ∀ callee ∈ Pass.callees c,
      g.span.start ≤ callee.start → callee.stop ≤ l.start → l.stop ≤ g.span.stop →
        Script.holdsLineFeed source.toList callee = false) :
    ∃ (gs hs : List Pass.Segment) (g : Pass.Segment) (earlier later : List String)
      (before behind : String), segments = gs ++ g :: hs ∧
      g.span.start ≤ n.span.start ∧ n.span.stop ≤ g.span.stop ∧
      gs.mapM (Pass.Segment.text? d (Script.multilineLiterals program source.toList)) =
        some earlier ∧
      hs.mapM (Pass.Segment.text? d (Script.multilineLiterals program source.toList)) =
        some later ∧
      d.slice? ⟨g.span.start, l.start⟩ = some before ∧
      d.slice? ⟨l.stop, g.span.stop⟩ = some behind ∧
      Pass.insertion? Pass.setup program options d = some (String.join earlier ++
        ((if g.blankBefore then "\n" else "") ++
          (Declaration.outdent before g.indent (Pass.literalLines source.toList
              (Script.multilineLiterals program source.toList) ⟨g.span.start, l.start⟩) ++
            cut source l.start l.stop ++
            Declaration.outdent behind g.indent (Pass.literalLines source.toList
              (Script.multilineLiterals program source.toList) ⟨l.stop, g.span.stop⟩)) ++ "\n") ++
        String.join later) := by
  have h := Component.inScript_of_parse? hprogram hc
  have hcut : CanCut source c := by
    intro s' hs'
    rw [hs, Option.some.injEq] at hs'
    rw [← hs', hsegments]
    rfl
  obtain ⟨texts, hi⟩ := exists_inserts h options hcut
  obtain ⟨d', hd', he, -⟩ := hi.draftAfter? h ks
  obtain rfl : d' = d := Option.some.inj (hd'.symm.trans hd)
  -- The segment of the literal's statement, among those before and behind it.
  obtain ⟨g, hg, hgstart, hgstop⟩ := Pass.exists_segment hsegments hn hreturn
  obtain ⟨gs, hs', rfl⟩ := List.append_of_mem hg
  have hlies := h.liesIn.setup_within hs
  have hwithin := Pass.setupSegments?_within hlies hsegments g hg
  have hgwithin : g.LiesIn source.toList c.wrapper.start c.wrapper.stop :=
    { hwithin with
      lo_le := by have := hwithin.lo_le; have := hlies.lo_le; omega
      le_hi := by have := hwithin.le_hi; have := hlies.le_hi; omega }
  obtain ⟨before, behind, hbefore, hbehind, htext⟩ := he.text?_of_literal h hgwithin hmem
    (Script.isLiteral_of_mem hprogram hmem) (Nat.le_trans hgstart hstart)
    (Nat.le_trans hstop hgstop) hcalls fun hdeclared callee hcallee ha hb => by
      rw [decide_eq_true_eq, ← hi.eventsDeclared_iff h] at hdeclared
      exact hlines hdeclared g hg callee hcallee ha hb (Nat.le_trans hstop hgstop)
  -- Nothing is known of the other segments but that they have texts.
  obtain ⟨earlier, hearlier⟩ := he.exists_texts h hs hsegments
    (Script.multilineLiterals program source.toList) fun g' hg' => List.mem_append_left _ hg'
  obtain ⟨later, hlater⟩ := he.exists_texts h hs hsegments
    (Script.multilineLiterals program source.toList)
    fun g' hg' => List.mem_append_right gs (List.mem_cons_of_mem g hg')
  refine ⟨gs, hs', g, earlier, later, before, behind, rfl, hgstart, hgstop, hearlier, hlater,
    hbefore, hbehind, ?_⟩
  rw [insertion?_setup h hs hsegments he.source_eq (mapM_append_cons hearlier htext hlater),
    String.join_append, String.join_cons]
  simp only [String.append_assoc]

/-- A template over two lines behind a callee that is rewritten. -/
def quotedLines : String :=
  "export default defineComponent(\x7b emits: ['a'],\n  setup(p, ctx) \x7b\n" ++
  "    ctx.emit(\x60x\n    y\x60)\n  \x7d \x7d)\n"

/-- A statement of `setup` and a literal over several lines in it, with no call of `emit` inside. -/
def literalIn? (source : String) (program : Program) (c : Component) (s : Setup) :
    Option (Node × Span) :=
  match s.statements, Script.multilineLiterals program source.toList with
  | [.form kind span parts], [l] =>
    if span.start ≤ l.start ∧ l.stop ≤ span.stop ∧
        ∀ callee ∈ Pass.callees c, callee.stop ≤ l.start ∨ l.stop ≤ callee.start then
      some (.form kind span parts, l)
    else none
  | _, _ => none

/-- What is found by evaluation is a literal in a statement, as it is asked for. -/
theorem exists_of_literalIn? {source : String} {program : Program} {c : Component} {s : Setup}
    {n : Node} {l : Span} (h : literalIn? source program c s = some (n, l)) :
    n ∈ s.statements ∧ (∀ span value, n ≠ .returnStatement span value) ∧
      l ∈ Script.multilineLiterals program source.toList ∧ n.span.start ≤ l.start ∧
      l.stop ≤ n.span.stop ∧
      ∀ callee ∈ Pass.callees c, callee.stop ≤ l.start ∨ l.stop ≤ callee.start := by
  unfold literalIn? at h
  split at h
  · next hstatements hliterals =>
    split at h
    · next hin =>
      cases h
      rw [hstatements, hliterals]
      exact ⟨List.mem_cons_self, by simp, List.mem_cons_self, hin⟩
    · cases h
  · cases h

theorem setup_keeps_literal_quotedLines : ∃ program c s segments d n l text,
    Program.parse? ⟨false, false⟩ quotedLines = some program ∧
    Component.locate? program = some c ∧ c.setup? = some s ∧
    Pass.setupSegments? quotedLines.toList s = some segments ∧
    draftAfter? program {} quotedLines [.emits] = some d ∧ n ∈ s.statements ∧
    l ∈ Script.multilineLiterals program quotedLines.toList ∧
    Pass.insertion? Pass.setup program {} d = some text ∧
    (cut quotedLines l.start l.stop).toList <:+: text.toList := by
  have hcheck : (do
      let program ← Program.parse? ⟨false, false⟩ quotedLines
      let c ← Component.locate? program
      let s ← c.setup?
      let segments ← Pass.setupSegments? quotedLines.toList s
      let d ← draftAfter? program {} quotedLines [.emits]
      let (_, l) ← literalIn? quotedLines program c s
      if ∀ callee ∈ Pass.callees c, Script.holdsLineFeed quotedLines.toList callee = false then
        some l else none).isSome = true := by
    decide +kernel
  obtain ⟨l', hcheck⟩ := Option.isSome_iff_exists.mp hcheck
  obtain ⟨program, hprogram, hcheck⟩ := Option.bind_eq_some_iff.mp hcheck
  obtain ⟨c, hc, hcheck⟩ := Option.bind_eq_some_iff.mp hcheck
  obtain ⟨s, hs, hcheck⟩ := Option.bind_eq_some_iff.mp hcheck
  obtain ⟨segments, hsegments, hcheck⟩ := Option.bind_eq_some_iff.mp hcheck
  obtain ⟨d, hd, hcheck⟩ := Option.bind_eq_some_iff.mp hcheck
  obtain ⟨⟨n, l⟩, hin, hcheck⟩ := Option.bind_eq_some_iff.mp hcheck
  obtain ⟨hn, hreturn, hmem, hstart, hstop, hcalls⟩ := exists_of_literalIn? hin
  dsimp only at hcheck
  split at hcheck
  · next hlines =>
    obtain ⟨gs, hs', g, earlier, later, before, behind, -, -, -, -, -, -, -, htext⟩ :=
      setup_keeps_literal hprogram hc hs {} hsegments hd hn hreturn hmem hstart hstop hcalls
        fun _ _ _ callee hcallee _ _ _ => hlines callee hcallee
    refine ⟨program, c, s, segments, d, n, l, _, hprogram, hc, hs, hsegments, hd, hn, hmem, htext,
      ?_⟩
    refine ⟨(String.join earlier ++ (if g.blankBefore then "\n" else "") ++
      Declaration.outdent before g.indent (Pass.literalLines quotedLines.toList
        (Script.multilineLiterals program quotedLines.toList) ⟨g.span.start, l.start⟩)).toList,
      (Declaration.outdent behind g.indent (Pass.literalLines quotedLines.toList
        (Script.multilineLiterals program quotedLines.toList) ⟨l.stop, g.span.stop⟩) ++ "\n" ++
        String.join later).toList, ?_⟩
    simp only [String.toList_append, List.append_assoc]
  · cases hcheck

/-- The same with the callee over two lines. -/
def brokenCallee : String :=
  "export default defineComponent(\x7b\n  emits: ['a'],\n  setup(p, ctx) \x7b\n" ++
  "    ctx\n      .emit(\x60x\n    y\x60)\n  \x7d,\n\x7d)\n"

/-- The line of the template is taken for another one, and loses its blanks. -/
theorem setup_brokenCallee : ∃ program c s d n l,
    Program.parse? ⟨false, false⟩ brokenCallee = some program ∧
    Component.locate? program = some c ∧ c.setup? = some s ∧
    draftAfter? program {} brokenCallee [.emits] = some d ∧ n ∈ s.statements ∧
    (∀ span value, n ≠ .returnStatement span value) ∧
    l ∈ Script.multilineLiterals program brokenCallee.toList ∧ n.span.start ≤ l.start ∧
    l.stop ≤ n.span.stop ∧
    (∀ callee ∈ Pass.callees c, callee.stop ≤ l.start ∨ l.stop ≤ callee.start) ∧
    cut brokenCallee l.start l.stop = "\x60x\n    y\x60" ∧
    Pass.insertion? Pass.setup program {} d = some "emit(\x60x\ny\x60)\n" := by
  have hcheck : (do
      let program ← Program.parse? ⟨false, false⟩ brokenCallee
      let c ← Component.locate? program
      let s ← c.setup?
      let d ← draftAfter? program {} brokenCallee [.emits]
      let (_, l) ← literalIn? brokenCallee program c s
      if cut brokenCallee l.start l.stop = "\x60x\n    y\x60" ∧
          Pass.insertion? Pass.setup program {} d = some "emit(\x60x\ny\x60)\n" then
        some l else none).isSome = true := by
    decide +kernel
  obtain ⟨l', hcheck⟩ := Option.isSome_iff_exists.mp hcheck
  obtain ⟨program, hprogram, hcheck⟩ := Option.bind_eq_some_iff.mp hcheck
  obtain ⟨c, hc, hcheck⟩ := Option.bind_eq_some_iff.mp hcheck
  obtain ⟨s, hs, hcheck⟩ := Option.bind_eq_some_iff.mp hcheck
  obtain ⟨d, hd, hcheck⟩ := Option.bind_eq_some_iff.mp hcheck
  obtain ⟨⟨n, l⟩, hin, hcheck⟩ := Option.bind_eq_some_iff.mp hcheck
  obtain ⟨hn, hreturn, hmem, hstart, hstop, hcalls⟩ := exists_of_literalIn? hin
  dsimp only at hcheck
  split at hcheck
  · next hbroken =>
    exact ⟨program, c, s, d, n, l, hprogram, hc, hs, hd, hn, hreturn, hmem, hstart, hstop, hcalls,
      hbroken⟩
  · cases hcheck

end Transformation

end VueSetup
