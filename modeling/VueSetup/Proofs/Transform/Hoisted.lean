import VueSetup.Proofs.Pass.Segments
import VueSetup.Proofs.Transform.Independence

/-!
# VueSetup.Proofs.Transform.Hoisted

The statements of `setup` in the text that moves before the component.

What stands between two statements is read in two ways: as blanks and comments when the script is
parsed, and by its line feeds when the statements are cut into segments. The two agree where a line
feed ends each line that matters. `setup_sliced` says when all slices exist: a comment up to the end
of its line has to be followed by a line feed before the next statement (`Setup.FeedsFollow`).
`setup_hoisted` says what is hoisted, and that no comment is cut, if the lines end between comments
(`Setup.LinesApart`).
-/

namespace VueSetup

open Script (Chained Dialect Node Program commentsOnLine tokenBehind)
open Text (IsBoundary between)

namespace Setup

/-- Where the statements start: behind the last directive. -/
def start (s : Setup) : Nat :=
  Pass.endBehind (s.body.start + 1) s.directives

/-- Where the statements end: at the closing brace. -/
def stop (s : Setup) : Nat :=
  s.body.stop - 1

/-- A comment up to the end of its line that a statement takes along is followed by a line feed
before the next statement. -/
def FeedsFollow (source : List Char) (s : Setup) : Prop :=
  s.statements.IsChain fun n m => Pass.returns n = false →
    ∀ k ∈ commentsOnLine source n.span.stop, k.isLine = true →
      '\n' ∈ between source k.span.stop m.span.start

instance (source : List Char) (s : Setup) : Decidable (s.FeedsFollow source) :=
  inferInstanceAs (Decidable (List.IsChain _ _))

/-- The lines on which comments are taken along end between fillers. -/
def LinesApart (source : List Char) (s : Setup) : Prop :=
  Pass.LinesApart source s.stop s.statements

instance (source : List Char) (s : Setup) : Decidable (s.LinesApart source) :=
  inferInstanceAs (Decidable (Pass.LinesApart _ _ _))

variable {source : List Char} {lo hi : Nat} {s : Setup}

/-- The statements follow the directives with nothing but fillers between them. -/
theorem LiesIn.consecutive (h : s.LiesIn source lo hi) :
    Pass.Consecutive source s.start s.stop s.statements where
  start_isBoundary := by
    unfold start
    cases hlast : s.directives using List.reverseRecOn with
    | nil => exact h.start_isBoundary
    | append_singleton ds d =>
      rw [Pass.endBehind_concat]
      exact (h.laid.of_mem (by simp [hlast])).sits.stop_isBoundary
  stop_isBoundary := h.stop_isBoundary
  chained := Pass.chained_append h.chained
  sits := by
    intro n hn
    have hs := (h.laid.of_mem (List.mem_append_right _ hn)).sits
    obtain ⟨before, after, heq⟩ := List.append_of_mem hn
    have hchained := Pass.chained_append h.chained
    rw [heq] at hchained
    have hbefore := Pass.le_endBehind hchained
    have htoken := Script.le_tokenBehind source (Pass.endBehind s.start before)
    have hfirst := (Pass.chained_append hchained).1
    exact { hs with lo_le := Nat.le_trans hbefore (Nat.le_trans htoken hfirst) }

/-- With these line feeds no statement starts before the cursor. -/
theorem FeedsFollow.stepping (hfeeds : s.FeedsFollow source) (h : s.LiesIn source lo hi) :
    Pass.Stepping source s.stop s.statements := by
  intro before n m after hns
  unfold FeedsFollow at hfeeds
  rw [hns, List.isChain_append_cons_cons] at hfeeds
  exact h.consecutive.takenStop_le_of_feed hns hfeeds.2.1

end Setup

namespace Pass

variable {source : List Char} {lo hi : Nat} {s : Setup}

/-- The statements are cut from behind the last directive on. -/
theorem setupSegments?_eq_segments? (source : List Char) (s : Setup) :
    setupSegments? source s = segments? source s.start s.stop s.start false s.statements := by
  rw [setupSegments?, Setup.start, endBehind]
  cases s.directives.getLast? <;> rfl

/-- They are cut into the segments written down for them. -/
theorem setupSegments?_eq (h : s.LiesIn source lo hi)
    (hstep : Stepping source s.stop s.statements) :
    setupSegments? source s = some (segmentsFrom source s.start s.stop [] s.statements) := by
  have hns : s.statements = [] ++ s.statements ++ [] := by simp
  rw [setupSegments?_eq_segments?]
  exact h.consecutive.segments?_eq hstep hns

/-- The run over the statements of `setup` goes on behind the first ones with the cursor where what
is taken along with these ends. -/
theorem setupSegments?_append (h : s.LiesIn source lo hi)
    (hstep : Stepping source s.stop s.statements) {before after : List Node}
    (hns : s.statements = before ++ after) :
    ∃ front, segments? source s.start s.stop s.start false before = some front ∧
      setupSegments? source s =
        (segments? source s.start s.stop (cursorBehind source s.start s.stop before)
          (before.any (!returns ·)) after).map (front ++ ·) := by
  have hfront : s.statements = [] ++ before ++ after := by simp [hns]
  have hback : s.statements = before ++ after ++ [] := by simp [hns]
  have hsplit := segmentsFrom_append source s.start s.stop [] before after
  rw [← hns, List.nil_append] at hsplit
  refine ⟨_, h.consecutive.segments?_eq hstep hfront, ?_⟩
  rw [setupSegments?_eq h hstep, h.consecutive.segments?_eq hstep hback, Option.map_some, hsplit]

/-- What becomes of a slice: it is moved out to column zero, a line feed ends it, and another one
stands before it if a blank line does so in the script. -/
def Segment.hoist (source : List Char) (literals : List Span) (g : Segment) (slice : String) :
    String :=
  (if g.blankBefore then "\n" else "") ++
    Declaration.outdent slice g.indent (literalLines source literals g.span) ++ "\n"

/-- The texts of segments are what becomes of their slices. -/
theorem mapM_text?_eq (d : Draft) (literals : List Span) (segments : List Segment) :
    segments.mapM (Segment.text? d literals) =
      (segments.mapM fun g => d.slice? g.span).map
        (List.zipWith (Segment.hoist d.source.toList literals) segments) := by
  induction segments with
  | nil => rfl
  | cons g segments ih =>
    rw [List.mapM_cons, List.mapM_cons, ih, Segment.text?]
    cases d.slice? g.span with
    | none => rfl
    | some slice =>
      cases segments.mapM fun g => d.slice? g.span with
      | none => rfl
      | some slices => rfl

end Pass

namespace Transformation

variable {source : String} {program : Program} {c : Component} {options : Options}

/-- The statements can be cut if they are. -/
theorem canCut_of_segments {s : Setup} (hs : c.setup? = some s) {segments : List Pass.Segment}
    (hsegments : Pass.setupSegments? source.toList s = some segments) : CanCut source c := by
  intro s' hs'
  obtain rfl : s = s' := Option.some.inj (hs.symm.trans hs')
  rw [hsegments]
  rfl

/-- What the pass for `setup` inserts into a draft that passes leave behind. -/
theorem Edited.exists_slices {declared : Bool} {d : Draft} (he : Edited source c declared d)
    (h : c.InScript source program) {s : Setup} (hs : c.setup? = some s)
    {segments : List Pass.Segment} (hsegments : Pass.setupSegments? source.toList s = some segments)
    (options : Options) :
    ∃ slices, (segments.mapM fun g => d.slice? g.span) = some slices ∧
      Pass.insertion? Pass.setup program options d = some (String.join (List.zipWith
        (Pass.Segment.hoist source.toList (Script.multilineLiterals program source.toList))
        segments slices)) := by
  have hsource := he.source_eq
  subst hsource
  obtain ⟨texts, htexts⟩ := he.exists_texts h hs hsegments
    (Script.multilineLiterals program d.source.toList) (fun _ hg => hg)
  have hmap := htexts
  rw [Pass.mapM_text?_eq] at hmap
  obtain ⟨slices, hslices, rfl⟩ := Option.map_eq_some_iff.mp hmap
  refine ⟨slices, hslices, ?_⟩
  cases segments with
  | nil =>
    have hidle : Pass.setup program options d = some ⟨d.recordAll [], false⟩ := by
      simp [Pass.setup, h.located, hs, hsegments, PassResult.idle]
    rw [insertion?_of_recordAll hidle]
    rfl
  | cons g segments =>
    have hmade : Pass.setup program options d = some ⟨d.recordAll [.insert c.wrapper.start
        (String.join (List.zipWith (Pass.Segment.hoist d.source.toList
          (Script.multilineLiterals program d.source.toList)) (g :: segments) slices))], true⟩ := by
      simp only [Pass.setup, h.located, hs, hsegments, htexts, Option.bind_eq_bind,
        Option.bind_some]
      rfl
    rw [insertion?_of_recordAll hmade]
    simp [Edit.insertion?]

/-! ### All slices exist

The cursor of the run over the statements has to stay before the next statement. It does if the line
feed that the scan for comments runs to is there. -/

/-- **No slice is invalid while statements are hoisted.** Let a script be read and define a
component with `setup`, and let each comment up to the end of its line behind a statement be
followed by a line feed before the next statement. Then:

* the run over the statements comes to each of them with the cursor where what is taken along with
  the one before ends, which is at its start or before, and both offsets stand between characters;
* the statements are cut into segments that cover whole characters between the braces;
* after passes in any order, and each any number of times, the pass for `setup` gives a result. -/
theorem setup_sliced {dialect : Dialect} {source : String} {program : Program} {c : Component}
    {s : Setup} (hprogram : Program.parse? dialect source = some program)
    (hc : Component.locate? program = some c) (hs : c.setup? = some s)
    (hfeeds : s.FeedsFollow source.toList) :
    (∀ before n after, s.statements = before ++ n :: after →
      (∃ front, Pass.segments? source.toList s.start s.stop s.start false before = some front ∧
        Pass.setupSegments? source.toList s =
          (Pass.segments? source.toList s.start s.stop
            (Pass.cursorBehind source.toList s.start s.stop before) (before.any (!Pass.returns ·))
            (n :: after)).map (front ++ ·)) ∧
      Pass.cursorBehind source.toList s.start s.stop before ≤ n.span.start ∧
      IsBoundary source.toList (Pass.cursorBehind source.toList s.start s.stop before) ∧
      IsBoundary source.toList n.span.start) ∧
    (∃ segments, Pass.setupSegments? source.toList s = some segments ∧
      ∀ g ∈ segments, g.LiesIn source.toList (s.body.start + 1) s.stop) ∧
    ∀ options ks, ∃ d r, draftAfter? program options source ks = some d ∧
      Pass.setup program options d = some r := by
  have h := Component.inScript_of_parse? hprogram hc
  have hlies := h.liesIn.setup_within hs
  have hrow := hlies.consecutive
  have hstep := hfeeds.stepping hlies
  have hsegments := Pass.setupSegments?_eq hlies hstep
  refine ⟨fun before n after hns => ⟨Pass.setupSegments?_append hlies hstep hns, ?_, ?_, ?_⟩,
    ⟨_, hsegments, Pass.setupSegments?_within hlies hsegments⟩, fun options ks => ?_⟩
  · exact hrow.cursorBehind_le hstep hns
  · exact (hrow.cursorBehind_within hns).2
  · exact (hrow.sits n (by simp [hns])).start_isBoundary
  · have hcut := canCut_of_segments hs hsegments
    obtain ⟨texts, hi⟩ := exists_inserts h options hcut
    obtain ⟨d, hd, he, -⟩ := hi.draftAfter? h ks
    obtain ⟨r, hr⟩ := exists_setup h hcut he
    exact ⟨d, r, hd, hr⟩

/-- Statements with comments before them and behind them, and with a `return` between two of
them. -/
def commentedStatements : String :=
  "export default defineComponent(\x7b\n  setup() \x7b\n    // é\n    a() // x\r\n\n    /* y\n" ++
  "       z */ b()\n    return c // d\n\n    e() /* f */ // g\n  \x7d,\n\x7d)\n"

theorem setup_sliced_commentedStatements : ∃ program c s segments d r,
    Program.parse? ⟨false, false⟩ commentedStatements = some program ∧
    Component.locate? program = some c ∧ c.setup? = some s ∧
    s.FeedsFollow commentedStatements.toList ∧
    Pass.setupSegments? commentedStatements.toList s = some segments ∧
    segments.map Pass.Segment.span = [Span.mk 49 67, Span.mk 74 94, Span.mk 118 134] ∧
    (∀ g ∈ segments, g.LiesIn commentedStatements.toList (s.body.start + 1) s.stop) ∧
    draftAfter? program {} commentedStatements [.setup, .emits] = some d ∧
    Pass.setup program {} d = some r := by
  have hcheck : (do
      let program ← Program.parse? ⟨false, false⟩ commentedStatements
      let c ← Component.locate? program
      let s ← c.setup?
      let segments ← Pass.setupSegments? commentedStatements.toList s
      if s.FeedsFollow commentedStatements.toList ∧
          segments.map Pass.Segment.span = [Span.mk 49 67, Span.mk 74 94, Span.mk 118 134] then
        some c else none).isSome = true := by
    decide +kernel
  obtain ⟨c', hcheck⟩ := Option.isSome_iff_exists.mp hcheck
  obtain ⟨program, hprogram, hcheck⟩ := Option.bind_eq_some_iff.mp hcheck
  obtain ⟨c, hc, hcheck⟩ := Option.bind_eq_some_iff.mp hcheck
  obtain ⟨s, hs, hcheck⟩ := Option.bind_eq_some_iff.mp hcheck
  obtain ⟨segments, hsegments, hcheck⟩ := Option.bind_eq_some_iff.mp hcheck
  split at hcheck
  · next hin =>
    obtain ⟨hfeeds, hspans⟩ := hin
    obtain ⟨-, ⟨segments', hsegments', hlies⟩, hresult⟩ := setup_sliced hprogram hc hs hfeeds
    obtain rfl : segments' = segments := Option.some.inj (hsegments'.symm.trans hsegments)
    obtain ⟨d, r, hd, hr⟩ := hresult {} [.setup, .emits]
    exact ⟨program, c, s, segments', d, r, hprogram, hc, hs, hfeeds, hsegments, hspans, hlies, hd,
      hr⟩
  · cases hcheck

/-- Behind the comment that a carriage return ends, the cursor is carried past the next statement:
no gap is left before that one, and there is no result. -/
theorem setup_returnedComment : ∃ program c s before n after,
    Program.parse? ⟨false, false⟩ returnedComment = some program ∧
    Component.locate? program = some c ∧ c.setup? = some s ∧
    s.statements = before ++ n :: after ∧
    n.span.start < Pass.cursorBehind returnedComment.toList s.start s.stop before ∧
    Pass.setup program {} { source := returnedComment } = none := by
  have hcheck : (do
      let program ← Program.parse? ⟨false, false⟩ returnedComment
      let c ← Component.locate? program
      let s ← c.setup?
      let n : Node ← s.statements[1]?
      if n.span.start <
            Pass.cursorBehind returnedComment.toList s.start s.stop (s.statements.take 1) ∧
          (Pass.setup program {} { source := returnedComment }).isNone = true then
        some n else none).isSome = true := by
    decide +kernel
  obtain ⟨n', hcheck⟩ := Option.isSome_iff_exists.mp hcheck
  obtain ⟨program, hprogram, hcheck⟩ := Option.bind_eq_some_iff.mp hcheck
  obtain ⟨c, hc, hcheck⟩ := Option.bind_eq_some_iff.mp hcheck
  obtain ⟨s, hs, hcheck⟩ := Option.bind_eq_some_iff.mp hcheck
  obtain ⟨n, hn, hcheck⟩ := Option.bind_eq_some_iff.mp hcheck
  split at hcheck
  · next hin =>
    obtain ⟨hlt, rfl⟩ := List.getElem?_eq_some_iff.mp hn
    have hsplit : s.statements = s.statements.take 1 ++ s.statements[1] :: s.statements.drop 2 := by
      rw [← List.drop_eq_getElem_cons hlt, List.take_append_drop]
    exact ⟨program, c, s, _, _, _, hprogram, hc, hs, hsplit, hin.1,
      Option.isNone_iff_eq_none.mp hin.2⟩
  · cases hcheck

/-! ### What is hoisted

Here it matters too where the cuts fall: not inside of a comment. -/

/-- A segment holds its statement and no part of another one, and says where the statement
stands. -/
structure Hoists (source : List Char) (s : Setup) (before : List Node) (n : Node)
    (after : List Node)
    (g : Pass.Segment) : Prop where
  start_le : g.span.start ≤ tokenBehind source (Pass.endBehind s.start before)
  token_le : tokenBehind source (Pass.endBehind s.start before) ≤ n.span.start
  le_stop : n.span.stop ≤ g.span.stop
  before_le : ∀ m ∈ s.directives ++ before, m.span.stop ≤ g.span.start
  le_after : ∀ mid m rest, after = mid ++ m :: rest →
    g.span.stop ≤ tokenBehind source (Pass.endBehind n.span.stop mid) ∧
      tokenBehind source (Pass.endBehind n.span.stop mid) ≤ m.span.start
  indent_eq : g.indent = Pass.column source n.span.start
  blankBefore_iff : g.blankBefore = true ↔ (∃ m ∈ before, Pass.returns m = false) ∧
    '\n' ∈ ((between source (Pass.cursorBehind source s.start s.stop before)
      g.span.start).dropWhile (· != '\n')).drop 1

section

variable {source : List Char} {lo hi : Nat} {s : Setup} {before after : List Node} {n : Node}

/-- The segment of a statement, by all that stands before the statement between the braces. -/
theorem around_segmentAt (h : s.LiesIn source lo hi) (hlines : s.LinesApart source)
    (hns : s.statements = before ++ n :: after) (hn : Pass.returns n = false) :
    (Pass.segmentAt source s.start s.stop before n).Around source
      (Pass.endBehind (s.body.start + 1) (s.directives ++ before)) n := by
  rw [Pass.endBehind_append]
  exact h.consecutive.around_segmentAt hlines hns hn

/-- The segment of a statement holds it and no other one. -/
theorem hoists_segmentAt (h : s.LiesIn source lo hi) (hlines : s.LinesApart source)
    (hns : s.statements = before ++ n :: after) (hn : Pass.returns n = false) :
    Hoists source s before n after (Pass.segmentAt source s.start s.stop before n) := by
  have haround := around_segmentAt h hlines hns hn
  have hchained := h.chained
  rw [hns, ← List.append_assoc] at hchained
  have hrest := h.consecutive.chained_behind hns
  refine ⟨(h.consecutive.around_segmentAt hlines hns hn).start_le, hrest.1, haround.le_stop,
    fun m hm => haround.stop_le_start hchained hm, fun mid m rest hafter => ⟨?_, ?_⟩, rfl, ?_⟩
  · exact haround.stop_le_tokenBehind hchained hafter
  · have hafterChained := hrest.2.2
    rw [hafter] at hafterChained
    exact (Pass.chained_append hafterChained).1
  · exact h.consecutive.blankBefore_segmentAt (h.consecutive.stepping hlines) hns

/-- A comment between the braces lies inside of a segment or outside of all. -/
theorem comment_segmentsFrom (h : s.LiesIn source lo hi) (hlines : s.LinesApart source)
    {span : Span}
    (hspan : Pass.HasComment source (s.body.start + 1) (s.directives ++ s.statements) span) :
    (∃ g ∈ Pass.segmentsFrom source s.start s.stop [] s.statements,
      g.span.start ≤ span.start ∧ span.stop ≤ g.span.stop) ∨
      ∀ g ∈ Pass.segmentsFrom source s.start s.stop [] s.statements,
        span.stop ≤ g.span.start ∨ g.span.stop ≤ span.start := by
  by_cases hinside : ∃ g ∈ Pass.segmentsFrom source s.start s.stop [] s.statements,
      g.span.start ≤ span.start ∧ span.stop ≤ g.span.stop
  · exact .inl hinside
  · refine .inr fun g hg => ?_
    obtain ⟨before, n, after, hns, hn, rfl⟩ := Pass.exists_of_mem_segmentsFrom hg
    have haround := around_segmentAt h hlines hns hn
    have hchained := h.chained
    rw [hns, ← List.append_assoc] at hchained hspan
    rcases haround.comment_cases hchained hspan with hin | hout
    · exact absurd ⟨_, hg, hin⟩ hinside
    · exact hout

end

/-- **What is hoisted.** Let a script be read and define a component with `setup`, and let the lines
on which comments are taken along end between comments. Then the statements of `setup` are cut into
segments, one for each statement that does not return:

* the segments come one after the other, and they cover whole characters between the braces;
* the segment of a statement holds all tokens of it and none of another statement. A blank line
  counts if the segment is not the first one, and if white space with a line feed stands before it,
  behind the line on which the statement before ends with its comments;
* a comment between the braces lies inside of one segment, or outside of all;
* after passes in any order, and each any number of times, the pass for `setup` inserts the slices
  of the segments in order, each moved out to column zero and followed by a line feed, and behind a
  line feed where a blank line counts. -/
theorem setup_hoisted {dialect : Dialect} {source : String} {program : Program} {c : Component}
    {s : Setup} (hprogram : Program.parse? dialect source = some program)
    (hc : Component.locate? program = some c) (hs : c.setup? = some s)
    (hlines : s.LinesApart source.toList) :
    ∃ segments, Pass.setupSegments? source.toList s = some segments ∧
      segments.length = (s.statements.filter (!Pass.returns ·)).length ∧
      segments.Pairwise (fun g g' => g.span.stop ≤ g'.span.start) ∧
      (∀ g ∈ segments, g.LiesIn source.toList (s.body.start + 1) s.stop) ∧
      (∀ before n after, s.statements = before ++ n :: after → Pass.returns n = false →
        ∃ g, segments[(before.filter (!Pass.returns ·)).length]? = some g ∧
          Hoists source.toList s before n after g) ∧
      (∀ span, Pass.HasComment source.toList (s.body.start + 1) (s.directives ++ s.statements)
        span →
        (∃ g ∈ segments, g.span.start ≤ span.start ∧ span.stop ≤ g.span.stop) ∨
          ∀ g ∈ segments, span.stop ≤ g.span.start ∨ g.span.stop ≤ span.start) ∧
      ∀ options ks, ∃ d slices, draftAfter? program options source ks = some d ∧
        (segments.mapM fun g => d.slice? g.span) = some slices ∧
        Pass.insertion? Pass.setup program options d = some (String.join (List.zipWith
          (Pass.Segment.hoist source.toList (Script.multilineLiterals program source.toList))
          segments slices)) := by
  have h := Component.inScript_of_parse? hprogram hc
  have hlies := h.liesIn.setup_within hs
  have hstep := hlies.consecutive.stepping hlines
  have hsegments := Pass.setupSegments?_eq hlies hstep
  refine ⟨_, hsegments, Pass.length_segmentsFrom .., ?_, Pass.setupSegments?_within hlies hsegments,
    fun before n after hns hn => ?_, fun span hspan => comment_segmentsFrom hlies hlines hspan,
    fun options ks => ?_⟩
  · exact hlies.consecutive.pairwise_segmentsFrom hstep (List.nil_append _).symm
  · refine ⟨_, ?_, hoists_segmentAt hlies hlines hns hn⟩
    rw [hns]
    exact Pass.getElem?_segmentsFrom source.toList s.start s.stop before after hn
  · obtain ⟨texts, hi⟩ := exists_inserts h options (canCut_of_segments hs hsegments)
    obtain ⟨d, hd, he, -⟩ := hi.draftAfter? h ks
    obtain ⟨slices, hslices, hinsertion⟩ := he.exists_slices h hs hsegments options
    exact ⟨d, slices, hd, hslices, hinsertion⟩

theorem setup_hoisted_commentedStatements : ∃ program c s segments slices,
    Program.parse? ⟨false, false⟩ commentedStatements = some program ∧
    Component.locate? program = some c ∧ c.setup? = some s ∧
    s.LinesApart commentedStatements.toList ∧
    Pass.setupSegments? commentedStatements.toList s = some segments ∧
    segments.map Pass.Segment.span = [Span.mk 49 67, Span.mk 74 94, Span.mk 118 134] ∧
    segments.Pairwise (fun g g' => g.span.stop ≤ g'.span.start) ∧
    (segments.mapM fun g => Draft.slice? { source := commentedStatements } g.span) = some slices ∧
    String.join (List.zipWith (Pass.Segment.hoist commentedStatements.toList
      (Script.multilineLiterals program commentedStatements.toList)) segments slices) =
        "// é\na() // x\n\n/* y\nz */ b()\n\ne() /* f */ // g\n" := by
  have hcheck : (do
      let program ← Program.parse? ⟨false, false⟩ commentedStatements
      let c ← Component.locate? program
      let s ← c.setup?
      let segments ← Pass.setupSegments? commentedStatements.toList s
      if s.LinesApart commentedStatements.toList ∧
          segments.map Pass.Segment.span = [Span.mk 49 67, Span.mk 74 94, Span.mk 118 134] ∧
          Pass.insertion? Pass.setup program {} { source := commentedStatements } =
            some "// é\na() // x\n\n/* y\nz */ b()\n\ne() /* f */ // g\n" then
        some c else none).isSome = true := by
    decide +kernel
  obtain ⟨c', hcheck⟩ := Option.isSome_iff_exists.mp hcheck
  obtain ⟨program, hprogram, hcheck⟩ := Option.bind_eq_some_iff.mp hcheck
  obtain ⟨c, hc, hcheck⟩ := Option.bind_eq_some_iff.mp hcheck
  obtain ⟨s, hs, hcheck⟩ := Option.bind_eq_some_iff.mp hcheck
  obtain ⟨segments, hsegments, hcheck⟩ := Option.bind_eq_some_iff.mp hcheck
  split at hcheck
  · next hin =>
    obtain ⟨hlines, hspans, htext⟩ := hin
    obtain ⟨segments', hsegments', -, hordered, -, -, -, hinserted⟩ :=
      setup_hoisted hprogram hc hs hlines
    obtain rfl : segments' = segments := Option.some.inj (hsegments'.symm.trans hsegments)
    obtain ⟨d, slices, hd, hslices, hinsertion⟩ := hinserted {} []
    obtain rfl : { source := commentedStatements } = d := Option.some.inj hd
    exact ⟨program, c, s, segments', slices, hprogram, hc, hs, hlines, hsegments, hspans, hordered,
      hslices, Option.some.inj (hinsertion.symm.trans htext)⟩
  · cases hcheck

/-- A comment behind a `return`, with a line feed inside of it. -/
def commentedReturn : String :=
  "export default defineComponent(\x7b\n  setup() \x7b\n    return a /* x\n    y */\n    b()\n" ++
  "  \x7d,\n\x7d)\n"

/-- The segment behind the `return` starts inside of the comment: the line feed there is taken for
the one that ends the line of the `return`. -/
theorem setup_commentedReturn : ∃ program c s segments,
    Program.parse? ⟨false, false⟩ commentedReturn = some program ∧
    Component.locate? program = some c ∧ c.setup? = some s ∧
    Pass.setupSegments? commentedReturn.toList s = some segments ∧
    Pass.HasComment commentedReturn.toList (s.body.start + 1) (s.directives ++ s.statements)
      ⟨58, 71⟩ ∧
    ¬ ((∃ g ∈ segments, g.span.start ≤ 58 ∧ 71 ≤ g.span.stop) ∨
      ∀ g ∈ segments, 71 ≤ g.span.start ∨ g.span.stop ≤ 58) := by
  have hcheck : (do
      let program ← Program.parse? ⟨false, false⟩ commentedReturn
      let c ← Component.locate? program
      let s ← c.setup?
      let segments ← Pass.setupSegments? commentedReturn.toList s
      if Script.Comment.mk ⟨58, 71⟩ false ∈ Script.commentsBehind commentedReturn.toList
            (Pass.endBehind (s.body.start + 1) ((s.directives ++ s.statements).take 1)) ∧
          segments.map Pass.Segment.span = [Span.mk 67 79] then
        some c else none).isSome = true := by
    decide +kernel
  obtain ⟨c', hcheck⟩ := Option.isSome_iff_exists.mp hcheck
  obtain ⟨program, hprogram, hcheck⟩ := Option.bind_eq_some_iff.mp hcheck
  obtain ⟨c, hc, hcheck⟩ := Option.bind_eq_some_iff.mp hcheck
  obtain ⟨s, hs, hcheck⟩ := Option.bind_eq_some_iff.mp hcheck
  obtain ⟨segments, hsegments, hcheck⟩ := Option.bind_eq_some_iff.mp hcheck
  split at hcheck
  · next hin =>
    obtain ⟨hcomment, hspans⟩ := hin
    have hsplit := (List.take_append_drop 1 (s.directives ++ s.statements)).symm
    refine ⟨program, c, s, segments, hprogram, hc, hs, hsegments, .between hsplit hcomment, ?_⟩
    obtain ⟨g, rfl, hg⟩ := List.map_eq_singleton_iff.mp hspans
    simp [hg]
  · cases hcheck

end Transformation

end VueSetup
