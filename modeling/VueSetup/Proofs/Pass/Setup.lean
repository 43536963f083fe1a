import VueSetup.Pass.Setup
import VueSetup.Proofs.Pass.Declare

/-!
# VueSetup.Proofs.Pass.Setup

What the pass records that moves the statements of `setup`: one text, at the start of the
component's export. It is made of slices inside of the function's braces, so that of all earlier
edits only those that lie there have a part in it.
-/

namespace VueSetup.Pass

open Script (Laid Node Program)
open Text (IsBoundary byteSize byteSize_append)

/-! ### Segments lie between the braces

Whatever the scan for comments takes along, it reads no further than the end of the body, and the
gap before a statement starts where the scan ended. -/

/-- The text of a comment, up to its closing mark. -/
theorem byteSize_commentEnd? {cs : List Char} {size : Nat} (h : commentEnd? cs = some size) :
    ∃ before behind, cs = before ++ '*' :: '/' :: behind ∧ byteSize before = size := by
  fun_induction commentEnd? cs generalizing size with
  | case1 => cases h
  | case2 behind =>
    cases h
    exact ⟨[], behind, rfl, rfl⟩
  | case3 c cs _ ih =>
    obtain ⟨n, hn, rfl⟩ := Option.map_eq_some_iff.mp h
    obtain ⟨before, behind, rfl, rfl⟩ := ih hn
    exact ⟨c :: before, behind, rfl, by simp [Nat.add_comm]⟩

/-- Spaces and tabs take one byte each. -/
theorem length_takeWhile_isSpaceOrTab (cs : List Char) :
    (cs.takeWhile Text.isSpaceOrTab).length = byteSize (cs.takeWhile Text.isSpaceOrTab) := by
  refine (Text.byteSize_eq_length fun c hc => ?_).symm
  have hblank := List.all_eq_true.mp List.all_takeWhile c hc
  simp only [Text.isSpaceOrTab, Bool.or_eq_true, beq_iff_eq] at hblank
  rcases hblank with rfl | rfl <;> rfl

/-- The comments that follow are a front part of the text that they are looked for in. -/
theorem isBoundary_trailingComments (n : Nat) (cs : List Char) :
    IsBoundary cs (trailingComments n cs) := by
  induction n generalizing cs with
  | zero => exact Text.isBoundary_zero cs
  | succ n ih =>
    have hcs : cs = cs.takeWhile Text.isSpaceOrTab ++ cs.dropWhile Text.isSpaceOrTab :=
      List.takeWhile_append_dropWhile.symm
    -- Blanks are counted by characters, which is right as each takes one byte.
    have hbehind : ∀ {size : Nat}, IsBoundary (cs.dropWhile Text.isSpaceOrTab) size →
        IsBoundary cs ((cs.takeWhile Text.isSpaceOrTab).length + size) := by
      intro size hsize
      rw [length_takeWhile_isSpaceOrTab]
      nth_rewrite 1 [hcs]
      exact hsize.append_left _
    rw [trailingComments]
    split
    · next rest hrest =>
      refine hbehind (hrest ▸ Text.isBoundary_of_isPrefix ((Text.isPrefix_trimEnd _).trans ?_))
      simpa using List.takeWhile_prefix (· != '\n')
    · next rest hrest =>
      split
      · next size hsize =>
        obtain ⟨before, behind, rfl, rfl⟩ := byteSize_commentEnd? hsize
        have hsplit := Text.suffixFrom_append (before ++ ['*', '/']) behind
        rw [List.append_assoc, byteSize_append] at hsplit
        have hcomment : byteSize ('/' :: '*' :: before ++ ['*', '/']) = byteSize before + 4 := by
          simp only [List.cons_append, Text.byteSize_cons, byteSize_append]
          have hone : '/'.utf8Size = 1 ∧ '*'.utf8Size = 1 := by decide
          simp only [hone, Text.byteSize_nil]
          omega
        have hrest' : cs.dropWhile Text.isSpaceOrTab =
            '/' :: '*' :: before ++ ['*', '/'] ++ behind := by
          rw [hrest]
          simp
        rw [Nat.add_assoc, Nat.add_assoc, ← Nat.add_assoc (byteSize before), ← hcomment]
        refine hbehind ?_
        rw [hrest']
        have hshow : Text.suffixFrom (before ++ '*' :: '/' :: behind) (byteSize before + 2) =
            behind := hsplit
        rw [hshow]
        exact (ih behind).append_left _
      · exact Text.isBoundary_zero cs
    · exact Text.isBoundary_zero cs

/-- What is left of a gap is at its end. -/
theorem leadingPart_suffix (isFirst : Bool) (gap : List Char) :
    (leadingPart isFirst gap).dropWhile Text.isBlank <:+ gap := by
  refine (List.dropWhile_suffix _).trans ?_
  unfold leadingPart
  split
  · exact List.suffix_rfl
  split
  · exact (List.drop_suffix 1 _).trans (List.dropWhile_suffix _)
  · exact List.suffix_rfl

/-- A segment covers whole characters between `lo` and `hi`. -/
structure Segment.LiesIn (source : List Char) (lo hi : Nat) (g : Segment) : Prop where
  lo_le : lo ≤ g.span.start
  start_le_stop : g.span.start ≤ g.span.stop
  le_hi : g.span.stop ≤ hi
  start_isBoundary : IsBoundary source g.span.start
  stop_isBoundary : IsBoundary source g.span.stop

/-- Every segment lies where the statements do. -/
theorem segments?_within {source : List Char} {start stop lo hi : Nat} (hstop : stop ≤ hi)
    {statements : List Node} (hlaid : ∀ n ∈ statements, Laid source lo hi [n]) {cursor : Nat}
    {made : Bool} (hcursor : lo ≤ cursor) {segments : List Segment}
    (h : segments? source start stop cursor made statements = some segments) :
    ∀ g ∈ segments, g.LiesIn source lo hi := by
  fun_induction segments? source start stop cursor made statements generalizing segments with
  | case1 =>
    cases h
    simp
  | case2 cursor made span value rest ih =>
    have hs := (hlaid _ List.mem_cons_self).sits
    refine ih (fun n hn => hlaid n (List.mem_cons_of_mem _ hn)) ?_ h
    exact Nat.le_trans hs.lo_le hs.start_le_stop
  | case3 cursor made statement rest _ span ih =>
    have hs := (hlaid _ List.mem_cons_self).sits
    -- The slices give the bounds: the first part of the segment is the end of the gap, and what is
    -- taken along is the front of the text behind the statement.
    obtain ⟨gap, hgap, h⟩ := Option.bind_eq_some_iff.mp h
    obtain ⟨behind, hbehind, h⟩ := Option.bind_eq_some_iff.mp h
    obtain ⟨others, hothers, h⟩ := Option.bind_eq_some_iff.mp h
    cases h
    have hgapSize := Text.byteSize_slice? hgap
    have hbehindSize := Text.byteSize_slice? hbehind
    have hleading := leadingPart_suffix (cursor == start) gap
    have htrailing := isBoundary_trailingComments (behind.length + 1) behind
    have hleadingSize := Text.byteSize_le_of_sublist hleading.sublist
    have htrailingSize := htrailing.le_byteSize
    have hlo : lo ≤ span.start := hs.lo_le
    have hle : span.start ≤ span.stop := hs.start_le_stop
    have hhi : span.stop ≤ hi := hs.le_hi
    intro g hg
    rcases List.mem_cons.mp hg with rfl | hg
    · refine ⟨?_, ?_, ?_, ?_, ?_⟩
      · dsimp only
        omega
      · dsimp only
        omega
      · dsimp only
        omega
      · obtain ⟨before, after, hsource, hbefore, -⟩ := Text.slice?_eq_some_iff.mp hgap
        have hfirst := ((Text.isBoundary_of_suffix hleading).append_left before).append_right after
        rw [← hsource, hbefore] at hfirst
        have heq : span.start - byteSize ((leadingPart (cursor == start) gap).dropWhile
            Text.isBlank) =
            cursor + (byteSize gap -
              byteSize ((leadingPart (cursor == start) gap).dropWhile Text.isBlank)) := by
          omega
        rw [heq]
        exact hfirst
      · obtain ⟨before, after, hsource, hbefore, -⟩ := Text.slice?_eq_some_iff.mp hbehind
        have hlast := (htrailing.append_left before).append_right after
        rwa [← hsource, hbefore] at hlast
    · refine ih _ (fun n hn => hlaid n (List.mem_cons_of_mem _ hn)) ?_ hothers g hg
      omega

/-- The segments of the setup function lie between its braces. -/
theorem setupSegments?_within {source : List Char} {lo hi : Nat} {s : Setup}
    (hs : s.LiesIn source lo hi) {segments : List Segment}
    (h : setupSegments? source s = some segments) :
    ∀ g ∈ segments, g.LiesIn source (s.body.start + 1) (s.body.stop - 1) := by
  refine segments?_within (Nat.le_refl _)
    (fun n hn => hs.laid.of_mem (List.mem_append_right _ hn)) ?_ h
  split
  · next directive hlast =>
    have hd := (hs.laid.of_mem (List.mem_append_left _ (List.mem_of_getLast? hlast))).sits
    exact Nat.le_trans hd.lo_le hd.start_le_stop
  · exact Nat.le_refl _

/-- Every statement that does not return lies in a segment. -/
theorem exists_segment {source : List Char} {start stop cursor : Nat} {made : Bool}
    {statements : List Node} {segments : List Segment}
    (h : segments? source start stop cursor made statements = some segments) {n : Node}
    (hn : n ∈ statements) (hreturn : ∀ span value, n ≠ .returnStatement span value) :
    ∃ g ∈ segments, g.span.start ≤ n.span.start ∧ n.span.stop ≤ g.span.stop := by
  fun_induction segments? source start stop cursor made statements generalizing segments with
  | case1 => cases hn
  | case2 cursor made span value rest ih =>
    rcases List.mem_cons.mp hn with heq | hn
    · exact absurd heq (hreturn span value)
    · exact ih h hn
  | case3 cursor made statement rest _ span =>
    rename_i ih
    obtain ⟨gap, hgap, h⟩ := Option.bind_eq_some_iff.mp h
    obtain ⟨behind, hbehind, h⟩ := Option.bind_eq_some_iff.mp h
    obtain ⟨others, hothers, h⟩ := Option.bind_eq_some_iff.mp h
    cases h
    rcases List.mem_cons.mp hn with rfl | hn
    · exact ⟨_, List.mem_cons_self, Nat.sub_le _ _, Nat.le_add_right _ _⟩
    · obtain ⟨g, hg, hwithin⟩ := ih _ hothers hn
      exact ⟨g, List.mem_cons_of_mem _ hg, hwithin⟩

/-! ### What is recorded

The texts of the segments are made of slices of the draft. So two drafts that agree on all slices
inside of the export record the same text, and this is how the order of the passes comes not to
matter. -/

/-- The texts of segments depend on the slices of them. -/
theorem mapM_text?_congr {d d' : Draft} (hsource : d.source = d'.source) (literals : List Span)
    (segments : List Segment) (h : ∀ g ∈ segments, d.slice? g.span = d'.slice? g.span) :
    segments.mapM (Segment.text? d literals) = segments.mapM (Segment.text? d' literals) := by
  induction segments with
  | nil => rw [List.mapM_nil, List.mapM_nil]
  | cons g segments ih =>
    have hg : Segment.text? d literals g = Segment.text? d' literals g := by
      rw [Segment.text?, Segment.text?, h g List.mem_cons_self, hsource]
    rw [List.mapM_cons, List.mapM_cons, hg, ih fun g hg => h g (List.mem_cons_of_mem _ hg)]

/-- Segments whose slices exist have texts. -/
theorem exists_mapM_text? {d : Draft} (literals : List Span) {segments : List Segment}
    (h : ∀ g ∈ segments, ∃ text, d.slice? g.span = some text) :
    ∃ texts, segments.mapM (Segment.text? d literals) = some texts := by
  induction segments with
  | nil => exact ⟨[], List.mapM_nil⟩
  | cons g segments ih =>
    obtain ⟨slice, hslice⟩ := h g List.mem_cons_self
    obtain ⟨texts, htexts⟩ := ih fun g hg => h g (List.mem_cons_of_mem _ hg)
    obtain ⟨text, htext⟩ : ∃ text, Segment.text? d literals g = some text := by
      rw [Segment.text?, hslice]
      exact ⟨_, rfl⟩
    refine ⟨text :: texts, ?_⟩
    rw [List.mapM_cons, htext, htexts]
    rfl

/-- Each text is that of a segment. -/
theorem exists_of_mem_mapM_text? {d : Draft} {literals : List Span} {segments : List Segment}
    {texts : List String} (h : segments.mapM (Segment.text? d literals) = some texts)
    {text : String}
    (htext : text ∈ texts) : ∃ g ∈ segments, Segment.text? d literals g = some text := by
  induction segments generalizing texts with
  | nil =>
    rw [List.mapM_nil] at h
    cases h
    cases htext
  | cons g segments ih =>
    rw [List.mapM_cons] at h
    obtain ⟨first, hfirst, h⟩ := Option.bind_eq_some_iff.mp h
    obtain ⟨others, hothers, h⟩ := Option.bind_eq_some_iff.mp h
    cases h
    rcases List.mem_cons.mp htext with rfl | htext
    · exact ⟨g, List.mem_cons_self, hfirst⟩
    · obtain ⟨g', hg', heq⟩ := ih hothers htext
      exact ⟨g', List.mem_cons_of_mem _ hg', heq⟩

/-- The statements of `setup` are added to the draft as one text. Two drafts with the same slices of
the export are given the same text; there may be none because a slice does not exist. -/
theorem setup_records {source : String} {program : Program} {c : Component}
    (h : c.InScript source program) (options : Options) {d : Draft} (hd : d.source = source) :
    ∃ texts? : Option (List String), ∀ d' : Draft, d'.source = source →
      (∀ span : Span, c.wrapper.start ≤ span.start → span.stop ≤ c.wrapper.stop →
        d.slice? span = d'.slice? span) →
      setup program options d' = texts?.map fun texts =>
        ⟨d'.recordAll (texts.map (.insert c.wrapper.start)), !texts.isEmpty⟩ := by
  cases hs : c.setup? with
  | none =>
    refine ⟨some [], fun d' _ _ => ?_⟩
    simp [setup, h.located, hs, PassResult.idle]
  | some s =>
    have hlies := h.liesIn.setup_within hs
    cases hsegments : setupSegments? source.toList s with
    | none =>
      refine ⟨none, fun d' hd' _ => ?_⟩
      simp [setup, h.located, hs, hd', hsegments]
    | some segments =>
      cases segments with
      | nil =>
        refine ⟨some [], fun d' hd' _ => ?_⟩
        simp [setup, h.located, hs, hd', hsegments, PassResult.idle]
      | cons g segments =>
        refine ⟨((g :: segments).mapM (Segment.text? d
          (Script.multilineLiterals program source.toList))).map fun texts => [String.join texts],
          fun d' hd' hslices => ?_⟩
        -- The texts are those of any draft with the same slices, and are taken from the given one.
        have htexts := mapM_text?_congr (hd.trans hd'.symm)
          (Script.multilineLiterals program source.toList) (g :: segments) ?_
        · simp only [setup, h.located, hs, hd', hsegments, htexts, Option.bind_eq_bind,
            Option.bind_some]
          cases (g :: segments).mapM (Segment.text? d'
            (Script.multilineLiterals program source.toList)) <;> rfl
        · intro g hg
          have hwithin := setupSegments?_within hlies hsegments g hg
          have := hwithin.lo_le
          have := hwithin.le_hi
          have := hlies.lo_le
          have := hlies.le_hi
          exact hslices g.span (by omega) (by omega)

end VueSetup.Pass
