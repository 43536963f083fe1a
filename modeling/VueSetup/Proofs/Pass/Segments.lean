import Mathlib.Data.List.Chain
import Mathlib.Data.List.Induction
import VueSetup.Proofs.Pass.Comments

/-!
# VueSetup.Proofs.Pass.Segments

The segments that the statements of a body are cut into, each by its statement and those before it.

Statements are known by where they stand in the list of all: a statement `n` behind the statements
`before`. What is taken along with the last of these ends at `cursorBehind`, and `n` itself gives
the segment `segmentAt`, unless it returns. As long as no statement starts before the cursor, all
slices exist and these are the segments (`segments?_eq`), in order (`pairwise_segmentsFrom`). Each
one goes from the fillers before its statement to those behind it and cuts no comment there
(`around_segmentAt`).
-/

namespace VueSetup.Pass

open Script (Behind Chained Comment Filler Node Uncut commentsBehind commentsOnLine fillerText
  fillersBehind le_tokenBehind tokenBehind)
open Text (IsBoundary between byteSize byteSize_append isBlank)

/-! ### Statements behind others

Whether a statement returns, and where the statements end that stand before it, is all that its
segment needs to know of the others. -/

/-- The statement returns, and is left out. -/
def returns : Node → Bool
  | .returnStatement _ _ => true
  | _ => false

/-- Where the statements end that stand behind an offset. -/
def endBehind (start : Nat) (before : List Node) : Nat :=
  (before.getLast?.map fun n => n.span.stop).getD start

@[simp] theorem endBehind_nil (start : Nat) : endBehind start [] = start := rfl

@[simp] theorem endBehind_concat (start : Nat) (before : List Node) (n : Node) :
    endBehind start (before ++ [n]) = n.span.stop := by
  simp [endBehind]

/-- The end of more statements, from where the first of them end. -/
theorem endBehind_append (start : Nat) (before ns : List Node) :
    endBehind start (before ++ ns) = endBehind (endBehind start before) ns := by
  cases ns using List.reverseRecOn with
  | nil => simp
  | append_singleton ns n => rw [← List.append_assoc, endBehind_concat, endBehind_concat]

theorem endBehind_cons (start : Nat) (n : Node) (ns : List Node) :
    endBehind start (n :: ns) = endBehind n.span.stop ns := by
  rw [← List.singleton_append, endBehind_append]
  rfl

section

variable {source : List Char} {hi pos : Nat}

/-- The statements behind others start where these end. -/
theorem chained_append {before ns : List Node} (h : Chained source hi pos (before ++ ns)) :
    Chained source hi (endBehind pos before) ns := by
  induction before generalizing pos with
  | nil => exact h
  | cons n before ih =>
    have := ih h.2.2
    rwa [endBehind_cons]

/-- Statements end behind the first token of the first one. -/
theorem tokenBehind_lt_endBehind {n : Node} {before ns : List Node}
    (h : Chained source hi pos (n :: before ++ ns)) :
    tokenBehind source pos < endBehind pos (n :: before) := by
  induction before generalizing pos n with
  | nil => exact h.2.1
  | cons m before ih =>
    have hlt := ih h.2.2
    have hle := le_tokenBehind source n.span.stop
    have hfirst := h.2.1
    rw [endBehind_cons]
    omega

/-- Statements end no earlier than they start. -/
theorem le_endBehind {before ns : List Node} (h : Chained source hi pos (before ++ ns)) :
    pos ≤ endBehind pos before := by
  cases before with
  | nil => exact Nat.le_refl _
  | cons n before =>
    have hlt := tokenBehind_lt_endBehind h
    have hle := le_tokenBehind source pos
    omega

/-- The first token behind an offset is that of a statement, or the end of the body. -/
theorem tokenBehind_le_of_chained {ns : List Node} (h : Chained source hi pos ns) :
    tokenBehind source pos ≤ hi := by
  induction ns generalizing pos with
  | nil => exact Nat.le_of_eq h
  | cons n ns ih =>
    have hrest := ih h.2.2
    have hfirst := h.2.1
    have hle := le_tokenBehind source n.span.stop
    omega

end

/-! ### What is taken along

The cursor of the run over the statements is given by the statement that was passed last. So the
segments can be written down without a run, each at its place in the list. -/

/-- Where what is taken along with a statement ends. -/
def takenStop (source : List Char) (stop : Nat) (n : Node) : Nat :=
  if returns n then n.span.stop
  else n.span.stop + trailingComments ((between source n.span.stop stop).length + 1)
    (between source n.span.stop stop)

/-- Where what is taken along with the last statement ends. -/
def cursorBehind (source : List Char) (start stop : Nat) (before : List Node) : Nat :=
  (before.getLast?.map (takenStop source stop)).getD start

/-- The segment of a statement behind others. -/
def segmentAt (source : List Char) (start stop : Nat) (before : List Node) (n : Node) : Segment :=
  let cursor := cursorBehind source start stop before
  let leading := leadingPart (cursor == start) (between source cursor n.span.start)
  ⟨⟨n.span.start - byteSize (leading.dropWhile isBlank), takenStop source stop n⟩,
    column source n.span.start,
    before.any (!returns ·) && (leading.takeWhile isBlank).contains '\n'⟩

/-- The segments of statements behind others. -/
def segmentsFrom (source : List Char) (start stop : Nat) (before : List Node) : List Node →
    List Segment
  | [] => []
  | n :: ns =>
    if returns n then segmentsFrom source start stop (before ++ [n]) ns
    else segmentAt source start stop before n :: segmentsFrom source start stop (before ++ [n]) ns

@[simp] theorem cursorBehind_nil (source : List Char) (start stop : Nat) :
    cursorBehind source start stop [] = start := rfl

@[simp] theorem cursorBehind_concat (source : List Char) (start stop : Nat) (before : List Node)
    (n : Node) : cursorBehind source start stop (before ++ [n]) = takenStop source stop n := by
  simp [cursorBehind]

/-- The segments of two parts of the statements, the second behind the first. -/
theorem segmentsFrom_append (source : List Char) (start stop : Nat) (before ms ns : List Node) :
    segmentsFrom source start stop before (ms ++ ns) =
      segmentsFrom source start stop before ms ++
        segmentsFrom source start stop (before ++ ms) ns := by
  induction ms generalizing before with
  | nil => simp [segmentsFrom]
  | cons m ms ih =>
    rw [List.cons_append, segmentsFrom, segmentsFrom, ih, List.append_assoc, List.singleton_append]
    split
    · rfl
    · rfl

/-- There is one segment for each statement that does not return. -/
theorem length_segmentsFrom (source : List Char) (start stop : Nat) (before ns : List Node) :
    (segmentsFrom source start stop before ns).length = (ns.filter (!returns ·)).length := by
  induction ns generalizing before with
  | nil => rfl
  | cons n ns ih =>
    rw [segmentsFrom, List.filter_cons]
    cases returns n with
    | true => simpa using ih _
    | false => simpa using ih _

/-- The segment of a statement has the number of those before it that do not return. -/
theorem getElem?_segmentsFrom (source : List Char) (start stop : Nat) (before after : List Node)
    {n : Node} (hn : returns n = false) :
    (segmentsFrom source start stop [] (before ++
      n :: after))[(before.filter (!returns ·)).length]? =
      some (segmentAt source start stop before n) := by
  rw [segmentsFrom_append, ← length_segmentsFrom source start stop [] before,
    List.getElem?_append_right (Nat.le_refl _), Nat.sub_self, List.nil_append, segmentsFrom, hn]
  rfl

/-- Every segment is that of a statement which does not return. -/
theorem exists_of_mem_segmentsFrom {source : List Char} {start stop : Nat} {before ns : List Node}
    {g : Segment} (hg : g ∈ segmentsFrom source start stop before ns) :
    ∃ mid n after, ns = mid ++ n :: after ∧ returns n = false ∧
      g = segmentAt source start stop (before ++ mid) n := by
  induction ns generalizing before with
  | nil => cases hg
  | cons n ns ih =>
    have hbehind : g ∈ segmentsFrom source start stop (before ++ [n]) ns →
        ∃ mid m after, n :: ns = mid ++ m :: after ∧ returns m = false ∧
          g = segmentAt source start stop (before ++ mid) m := by
      intro hg
      obtain ⟨mid, m, after, rfl, hm, rfl⟩ := ih hg
      exact ⟨n :: mid, m, after, rfl, hm, by simp⟩
    rw [segmentsFrom] at hg
    split at hg
    · exact hbehind hg
    · next hn =>
      rcases List.mem_cons.mp hg with rfl | hg
      · exact ⟨[], n, ns, rfl, by simpa using hn, by simp⟩
      · exact hbehind hg

/-! ### The run over the statements

The run gives a result as long as each gap between the cursor and the next statement is a slice, and
then its segments are those written down above. That the cursor does not pass a statement is asked
for here; below it is shown to follow from what the lines of the comments look like. -/

/-- Statements of a body: they cover whole characters between `start` and `stop`, and there is
nothing but fillers between them. -/
structure Consecutive (source : List Char) (start stop : Nat) (ns : List Node) : Prop where
  start_isBoundary : IsBoundary source start
  stop_isBoundary : IsBoundary source stop
  sits : ∀ n ∈ ns, n.Sits source start stop
  chained : Chained source stop start ns

/-- No statement starts before what is taken along with the one before it ends. -/
def Stepping (source : List Char) (stop : Nat) (ns : List Node) : Prop :=
  ∀ before n m after, ns = before ++ n :: m :: after → takenStop source stop n ≤ m.span.start

/-- The lines end between fillers on which statements take comments along: those of comments behind
a statement, and that of the first line feed behind what is taken along with the statement
before. -/
@[mk_iff]
structure LinesApart (source : List Char) (stop : Nat) (ns : List Node) : Prop where
  behind : ∀ n ∈ ns, returns n = false → ∀ k ∈ commentsOnLine source n.span.stop, k.isLine = true →
    LineStopsApart source stop n.span.stop k.span.stop
  before : ns.IsChain fun m n => returns n = false →
    '\n' ∈ between source (takenStop source stop m) n.span.start →
      LineStopsApart source n.span.start m.span.stop (takenStop source stop m)

instance (source : List Char) (stop : Nat) (ns : List Node) :
    Decidable (LinesApart source stop ns) :=
  decidable_of_iff' _ (linesApart_iff source stop ns)

/-- A segment starts among the fillers behind an offset and ends among those behind its statement,
and cuts no comment of either. -/
structure Segment.Around (source : List Char) (pos : Nat) (n : Node) (g : Segment) : Prop where
  le_start : pos ≤ g.span.start
  start_le : g.span.start ≤ tokenBehind source pos
  le_stop : n.span.stop ≤ g.span.stop
  stop_le : g.span.stop ≤ tokenBehind source n.span.stop
  start_uncut : Uncut pos (fillersBehind source pos) g.span.start
  stop_uncut : Uncut n.span.stop (fillersBehind source n.span.stop) g.span.stop

/-- The run passes a statement that returns, with nothing taken along. -/
theorem segments?_cons_of_returns {source : List Char} {start stop cursor : Nat} {made : Bool}
    {n : Node} (ns : List Node) (hn : returns n = true) :
    segments? source start stop cursor made (n :: ns) =
      segments? source start stop n.span.stop made ns := by
  cases n
  case returnStatement => rfl
  all_goals cases hn

/-- One step of the run: two slices and the segment between them. -/
theorem segments?_cons {source : List Char} {start stop cursor : Nat} {made : Bool} {n : Node}
    (ns : List Node) (hn : returns n = false) :
    segments? source start stop cursor made (n :: ns) = (do
      let gap ← Text.slice? source cursor n.span.start
      let behind ← Text.slice? source n.span.stop (max stop n.span.stop)
      let last := n.span.stop + trailingComments (behind.length + 1) behind
      return ⟨
        ⟨n.span.start - byteSize ((leadingPart (cursor == start) gap).dropWhile isBlank), last⟩,
        column source n.span.start,
        made && ((leadingPart (cursor == start) gap).takeWhile isBlank).contains '\n'⟩ ::
          (← segments? source start stop last true ns)) := by
  cases n
  case returnStatement => cases hn
  all_goals rfl

namespace Consecutive

variable {source : List Char} {start stop : Nat} {ns before after : List Node} {n : Node}

/-- The statements before end between two characters. -/
theorem isBoundary_endBehind (h : Consecutive source start stop ns) (hns : ns = before ++ after) :
    IsBoundary source (endBehind start before) := by
  cases before using List.reverseRecOn with
  | nil => exact h.start_isBoundary
  | append_singleton before n =>
    rw [endBehind_concat]
    exact (h.sits n (by simp [hns])).stop_isBoundary

/-- The rest of the statements, behind those before. -/
theorem chained_behind (h : Consecutive source start stop ns) (hns : ns = before ++ after) :
    Chained source stop (endBehind start before) after :=
  chained_append (hns ▸ h.chained)

/-- What is taken along covers whole characters before the end of the body. -/
theorem takenStop_within (h : Consecutive source start stop ns) (hn : n ∈ ns) :
    n.span.stop ≤ takenStop source stop n ∧ takenStop source stop n ≤ stop ∧
      IsBoundary source (takenStop source stop n) := by
  have hs := h.sits n hn
  unfold takenStop
  split
  · exact ⟨Nat.le_refl _, hs.le_hi, hs.stop_isBoundary⟩
  · have hslice := Text.slice?_eq_between hs.stop_isBoundary h.stop_isBoundary hs.le_hi
    have hsize := Text.byteSize_slice? hslice
    obtain ⟨front, behind, hsource, hfront, -⟩ := Text.slice?_eq_some_iff.mp hslice
    have htrailing := isBoundary_trailingComments ((between source n.span.stop stop).length + 1)
      (between source n.span.stop stop)
    have hle := htrailing.le_byteSize
    have hlast := (htrailing.append_left front).append_right behind
    rw [← hsource, hfront] at hlast
    exact ⟨Nat.le_add_right _ _, by omega, hlast⟩

/-- The cursor stands between characters and behind the statements that it has passed. -/
theorem cursorBehind_within (h : Consecutive source start stop ns) (hns : ns = before ++ after) :
    endBehind start before ≤ cursorBehind source start stop before ∧
      IsBoundary source (cursorBehind source start stop before) := by
  cases before using List.reverseRecOn with
  | nil => exact ⟨Nat.le_refl _, h.start_isBoundary⟩
  | append_singleton before n =>
    rw [endBehind_concat, cursorBehind_concat]
    have htaken := h.takenStop_within (n := n) (by simp [hns])
    exact ⟨htaken.1, htaken.2.2⟩

/-- Only before the first statement does the cursor stand where it started. -/
theorem cursorBehind_beq_start (h : Consecutive source start stop ns) (hns : ns = before ++ after) :
    (cursorBehind source start stop before == start) = before.isEmpty := by
  cases before with
  | nil => simp
  | cons n before =>
    have hchained := h.chained
    rw [hns] at hchained
    have hlt := tokenBehind_lt_endBehind hchained
    have hle := le_tokenBehind source start
    have hcursor := (h.cursorBehind_within hns).1
    simp only [List.isEmpty_cons, beq_eq_false_iff_ne]
    omega

/-- The cursor has not passed the next statement. -/
theorem cursorBehind_le (h : Consecutive source start stop ns) (hstep : Stepping source stop ns)
    (hns : ns = before ++ n :: after) : cursorBehind source start stop before ≤ n.span.start := by
  cases before using List.reverseRecOn with
  | nil => exact (h.sits n (by simp [hns])).lo_le
  | append_singleton before m =>
    rw [cursorBehind_concat]
    exact hstep before m n after (by simp [hns])

/-- The gap before a statement is a slice. -/
theorem slice?_gap (h : Consecutive source start stop ns) (hstep : Stepping source stop ns)
    (hns : ns = before ++ n :: after) :
    Text.slice? source (cursorBehind source start stop before) n.span.start =
      some (between source (cursorBehind source start stop before) n.span.start) :=
  Text.slice?_eq_between (h.cursorBehind_within hns).2 (h.sits n (by simp [hns])).start_isBoundary
    (h.cursorBehind_le hstep hns)

/-- All slices exist, and the statements are cut into their segments. -/
theorem segments?_eq (h : Consecutive source start stop ns) (hstep : Stepping source stop ns)
    {mid : List Node} (hns : ns = before ++ mid ++ after) :
    segments? source start stop (cursorBehind source start stop before) (before.any (!returns ·))
      mid =
      some (segmentsFrom source start stop before mid) := by
  induction mid generalizing before with
  | nil => rfl
  | cons n mid ih =>
    have hmem : n ∈ ns := by simp [hns]
    have hns' : ns = before ++ [n] ++ mid ++ after := by simp [hns]
    have hbehind := ih hns'
    rw [List.append_assoc, List.cons_append] at hns
    rw [cursorBehind_concat, List.any_append, takenStop] at hbehind
    rw [segmentsFrom]
    cases hn : returns n with
    | true =>
      rw [segments?_cons_of_returns mid hn]
      simpa [hn] using hbehind
    | false =>
      have hs := h.sits n hmem
      rw [segments?_cons mid hn, h.slice?_gap hstep hns, Nat.max_eq_left hs.le_hi,
        Text.slice?_eq_between hs.stop_isBoundary h.stop_isBoundary hs.le_hi]
      simp only [hn, Bool.false_eq_true, if_false, List.any_cons, List.any_nil, Bool.not_false,
        Bool.or_false, Bool.or_true] at hbehind
      simp [hbehind, segmentAt, takenStop, hn]

/-- A segment starts between the cursor and its statement. -/
theorem segmentAt_start (h : Consecutive source start stop ns) (hstep : Stepping source stop ns)
    (hns : ns = before ++ n :: after) :
    cursorBehind source start stop before ≤ (segmentAt source start stop before n).span.start ∧
      (segmentAt source start stop before n).span.start ≤ n.span.start := by
  have hgap := Text.byteSize_slice? (h.slice?_gap hstep hns)
  have hlead := Text.byteSize_le_of_sublist (leadingPart_suffix
    (cursorBehind source start stop before == start)
    (between source (cursorBehind source start stop before) n.span.start)).sublist
  have hle := h.cursorBehind_le hstep hns
  simp only [segmentAt]
  omega

/-- All further segments start behind the cursor. -/
theorem cursorBehind_le_of_mem (h : Consecutive source start stop ns)
    (hstep : Stepping source stop ns) (hns : ns = before ++ after) :
    ∀ g ∈ segmentsFrom source start stop before after,
      cursorBehind source start stop before ≤ g.span.start := by
  induction after generalizing before with
  | nil => simp [segmentsFrom]
  | cons n after ih =>
    have hs := h.sits n (by simp [hns])
    have hcursor := h.cursorBehind_le hstep hns
    have hstart := (h.segmentAt_start hstep hns).1
    have htaken := (h.takenStop_within (n := n) (by simp [hns])).1
    have hbehind : ∀ g ∈ segmentsFrom source start stop (before ++ [n]) after,
        cursorBehind source start stop before ≤ g.span.start := by
      intro g hg
      have hg := ih (by simp [hns]) g hg
      rw [cursorBehind_concat] at hg
      have := hs.start_le_stop
      omega
    rw [segmentsFrom]
    split
    · exact hbehind
    · intro g hg
      rcases List.mem_cons.mp hg with rfl | hg
      · exact hstart
      · exact hbehind g hg

/-- The segments come one after the other. -/
theorem pairwise_segmentsFrom (h : Consecutive source start stop ns)
    (hstep : Stepping source stop ns) (hns : ns = before ++ after) :
    (segmentsFrom source start stop before after).Pairwise fun g g' =>
      g.span.stop ≤ g'.span.start := by
  induction after generalizing before with
  | nil => exact List.Pairwise.nil
  | cons n after ih =>
    have hns' : ns = before ++ [n] ++ after := by simp [hns]
    rw [segmentsFrom]
    split
    · exact ih hns'
    · refine List.Pairwise.cons (fun g hg => ?_) (ih hns')
      have hle := h.cursorBehind_le_of_mem hstep hns' g hg
      rwa [cursorBehind_concat] at hle

/-! ### Where a segment starts and ends

Both ends of a segment stand among the fillers around its statement, and it has to be shown of each
that it cuts none of the comments there. -/

/-- A statement ends behind a token, so that fillers follow. -/
theorem exists_behind_stop (h : Consecutive source start stop ns)
    (hns : ns = before ++ n :: after) :
    ∃ more, Behind source n.span.stop stop more :=
  Script.exists_behind (h.sits n (by simp [hns])).stop_isBoundary h.stop_isBoundary
    (tokenBehind_le_of_chained (h.chained_behind hns).2.2)

/-- What is taken along with a statement, among the fillers behind it. -/
theorem takenStop_eq (hn : returns n = false) {more : List Char}
    (hbehind : Behind source n.span.stop stop more) :
    takenStop source stop n =
      n.span.stop + trailingSize more (fillersBehind source n.span.stop) := by
  obtain ⟨cs, rest, hfills, hmore⟩ := hbehind.fills
  rw [takenStop, hn, if_neg Bool.false_ne_true, hbehind.between_eq,
    trailingComments_eq hfills hmore (Nat.lt_succ_self _)]

/-- What is taken along ends before the next statement if each comment up to the end of its line is
followed by a line feed before that. -/
theorem takenStop_le_of_feed (h : Consecutive source start stop ns) {m : Node}
    (hns : ns = before ++ n :: m :: after)
    (hfeed : returns n = false → ∀ k ∈ commentsOnLine source n.span.stop, k.isLine = true →
      '\n' ∈ between source k.span.stop m.span.start) :
    takenStop source stop n ≤ m.span.start := by
  have hs := h.sits n (by simp [hns])
  have hm := h.sits m (by simp [hns])
  have hle := (h.chained_behind hns).2.2.1
  have hstop := Nat.le_trans (le_tokenBehind source n.span.stop) hle
  cases hn : returns n with
  | true => rwa [takenStop, hn, if_pos rfl]
  | false =>
    obtain ⟨more, hmore⟩ := h.exists_behind_stop hns
    obtain ⟨deco, hdeco⟩ := Script.exists_behind hs.stop_isBoundary hm.start_isBoundary hle
    have heq : more = deco ++ between source m.span.start stop := by
      have hsplit := Text.between_append hs.stop_isBoundary hm.start_isBoundary h.stop_isBoundary
        hstop (Nat.le_trans hm.start_le_stop hm.le_hi)
      rw [hmore.between_eq, hdeco.between_eq, List.append_assoc] at hsplit
      exact List.append_cancel_left hsplit
    have htrailing := trailingSize_le_of_feed (between source m.span.start stop)
      (behindLine_feed hdeco (hfeed hn))
    have hsize := hdeco.size
    rw [takenStop_eq hn hmore, heq]
    omega

/-- What is taken along ends before the next token, and in no comment. -/
theorem takenStop_uncut (h : Consecutive source start stop ns) (hlines : LinesApart source stop ns)
    (hns : ns = before ++ n :: after) :
    takenStop source stop n ≤ tokenBehind source n.span.stop ∧
      Uncut n.span.stop (fillersBehind source n.span.stop) (takenStop source stop n) := by
  cases hn : returns n with
  | true =>
    rw [takenStop, hn, if_pos rfl]
    exact ⟨le_tokenBehind _ _, fun k hk => .inr (Script.within_of_mem_commentsOf hk).1⟩
  | false =>
    obtain ⟨more, hmore⟩ := h.exists_behind_stop hns
    have hends := behindLine_lineEnds hmore (hlines.behind n (by simp [hns]) hn)
    rw [takenStop_eq hn hmore]
    exact ⟨Nat.add_le_add_left (trailingSize_le hends) _, uncut_trailingSize _ hends⟩

/-- If the lines of comments end between fillers, no statement starts before the cursor. -/
theorem stepping (h : Consecutive source start stop ns) (hlines : LinesApart source stop ns) :
    Stepping source stop ns := by
  intro before n m after hns
  exact Nat.le_trans (h.takenStop_uncut hlines hns).1 (h.chained_behind hns).2.2.1

/-- Nothing is taken along with the statement before, or comments up to the end of its line. -/
theorem taken_cases (h : Consecutive source start stop ns) (hlines : LinesApart source stop ns)
    (hns : ns = before ++ after) :
    cursorBehind source start stop before = endBehind start before ∨
      ∃ more, BehindLine (LineEnds more) (fillersBehind source (endBehind start before)) ∧
        cursorBehind source start stop before = endBehind start before +
          trailingSize more (fillersBehind source (endBehind start before)) := by
  cases before using List.reverseRecOn with
  | nil => exact .inl rfl
  | append_singleton before m =>
    rw [List.append_assoc, List.singleton_append] at hns
    rw [cursorBehind_concat, endBehind_concat]
    cases hm : returns m with
    | true =>
      left
      rw [takenStop, hm, if_pos rfl]
    | false =>
      obtain ⟨more, hmore⟩ := h.exists_behind_stop hns
      exact .inr ⟨more, behindLine_lineEnds hmore (hlines.behind m (by simp [hns]) hm),
        takenStop_eq hm hmore⟩

/-- The line that the cursor stands on ends between fillers if a line feed follows before the next
statement. -/
theorem lineStopsApart_cursorBehind (start : Nat) (hlines : LinesApart source stop ns)
    (hne : before ≠ []) (hns : ns = before ++ n :: after) (hn : returns n = false)
    (hfeed : '\n' ∈ between source (cursorBehind source start stop before) n.span.start) :
    LineStopsApart source n.span.start (endBehind start before)
      (cursorBehind source start stop before) := by
  cases before using List.reverseRecOn with
  | nil => exact absurd rfl hne
  | append_singleton before m =>
    rw [cursorBehind_concat] at hfeed
    rw [cursorBehind_concat, endBehind_concat]
    have hchain := hlines.before
    rw [hns, List.append_assoc, List.singleton_append, List.isChain_append_cons_cons] at hchain
    exact hchain.2.1 hn hfeed

/-- The segment of a statement starts before the first token behind the statement before, and cuts
no comment there. -/
theorem segmentAt_start_uncut (h : Consecutive source start stop ns)
    (hlines : LinesApart source stop ns) (hns : ns = before ++ n :: after)
    (hn : returns n = false) :
    (segmentAt source start stop before n).span.start ≤
      tokenBehind source (endBehind start before) ∧
      Uncut (endBehind start before) (fillersBehind source (endBehind start before))
        (segmentAt source start stop before n).span.start := by
  have hs := h.sits n (by simp [hns])
  have hend := h.isBoundary_endBehind hns
  have hfirst := h.cursorBehind_beq_start hns
  have hfeed := fun hne => lineStopsApart_cursorBehind start hlines hne hns hn
  have htaken := h.taken_cases hlines hns
  obtain ⟨hcursor, hcursorBoundary⟩ := h.cursorBehind_within hns
  have hle := h.cursorBehind_le (h.stepping hlines) hns
  obtain ⟨deco, hdeco⟩ := Script.exists_behind hend hs.start_isBoundary (h.chained_behind hns).1
  obtain ⟨cs, rest, hfills, hdecoRest⟩ := hdeco.fills
  simp only [segmentAt]
  generalize cursorBehind source start stop before = cursor at *
  generalize endBehind start before = pos at *
  have hgapSize :=
    Text.byteSize_slice? (Text.slice?_eq_between hcursorBoundary hs.start_isBoundary hle)
  have htakenSize := Text.byteSize_slice? (Text.slice?_eq_between hend hcursorBoundary hcursor)
  have hsplit := Text.between_append hend hcursorBoundary hs.start_isBoundary hcursor hle
  rw [hdeco.between_eq] at hsplit
  -- the first line feed behind what is taken along
  have hline : (cursor == start) = false → ∀ passed behind,
      between source cursor n.span.start = passed ++ '\n' :: behind → '\n' ∉ passed →
        byteSize (between source pos cursor ++ passed) ≤
            byteSize (fillerText (fillersBehind source pos)) ∧
          Uncut pos (fillersBehind source pos)
            (pos + byteSize (between source pos cursor ++ passed)) := by
    intro hnot passed behind heq hpassed
    have hne : before ≠ [] := by
      rw [hnot] at hfirst
      simpa using hfirst.symm
    obtain ⟨hlineLe, hlineUncut⟩ := hfeed hne (by simp [heq])
    have hlineStop : lineStop source n.span.start cursor =
        pos + byteSize (between source pos cursor ++ passed) := by
      rw [lineStop, heq, takeWhile_of_feed hpassed, byteSize_append]
      omega
    rw [hlineStop] at hlineLe hlineUncut
    rw [tokenBehind] at hlineLe
    exact ⟨by omega, hlineUncut⟩
  have htakenCases : ∃ more, between source pos cursor = [] ∨
      byteSize (between source pos cursor) = trailingSize more (fillersBehind source pos) ∧
        BehindLine (LineEnds more) (fillersBehind source pos) := by
    rcases htaken with heq | ⟨more, hends, heq⟩
    · exact ⟨[], .inl (by rw [heq, Text.between_self])⟩
    · exact ⟨more, .inr ⟨by omega, hends⟩⟩
  obtain ⟨more, htakenCases⟩ := htakenCases
  obtain ⟨size, hsize, hsizeLe, huncut⟩ := uncut_lead hfills hdecoRest hsplit htakenCases hline
  have hstart : n.span.start -
      byteSize ((leadingPart (cursor == start) (between source cursor n.span.start)).dropWhile
        isBlank) =
        pos + size := by
    rw [byteSize_append] at hsize
    omega
  rw [hstart, tokenBehind]
  exact ⟨Nat.add_le_add_left hsizeLe _, huncut⟩

/-- A blank line stands before a segment if it is not the first one, and if there is a line feed
before it behind the line that the cursor stands on. -/
theorem blankBefore_segmentAt (h : Consecutive source start stop ns)
    (hstep : Stepping source stop ns)
    (hns : ns = before ++ n :: after) :
    (segmentAt source start stop before n).blankBefore = true ↔ (∃ m ∈ before, returns m = false) ∧
      '\n' ∈ ((between source (cursorBehind source start stop before)
        (segmentAt source start stop before n).span.start).dropWhile (· != '\n')).drop 1 := by
  have hfirst := h.cursorBehind_beq_start hns
  have hslice := h.slice?_gap hstep hns
  have hgapSize := Text.byteSize_slice? hslice
  have hany : before.any (!returns ·) = true ↔ ∃ m ∈ before, returns m = false := by simp
  simp only [segmentAt, Bool.and_eq_true, List.contains_iff_mem, hany]
  refine and_congr_right fun hmade => ?_
  rw [hfirst]
  obtain ⟨m, hm, -⟩ := hmade
  have hempty : before.isEmpty = false := by
    cases before with
    | nil => cases hm
    | cons => rfl
  rw [hempty]
  generalize cursorBehind source start stop before = cursor at *
  obtain ⟨front, hfront⟩ := leadingPart_suffix false (between source cursor n.span.start)
  obtain ⟨as, bs, hsource, has, -⟩ := Text.slice?_eq_some_iff.mp hslice
  have hbetween : between source cursor (n.span.start - byteSize
      ((leadingPart false (between source cursor n.span.start)).dropWhile isBlank)) = front := by
    have hsize := congrArg byteSize hfront
    rw [byteSize_append] at hsize
    have hstart : n.span.start - byteSize
        ((leadingPart false (between source cursor n.span.start)).dropWhile isBlank) =
          byteSize as + byteSize front := by
      omega
    rw [hstart, ← has]
    nth_rewrite 1 [hsource]
    rw [← hfront, ← List.append_assoc, List.append_assoc (as ++ front)]
    exact Text.between_middle as front _
  rw [hbetween]
  exact mem_takeWhile_leadingPart hfront.symm

/-- The segment of a statement goes around it, and around nothing else but fillers. -/
theorem around_segmentAt (h : Consecutive source start stop ns) (hlines : LinesApart source stop ns)
    (hns : ns = before ++ n :: after) (hn : returns n = false) :
    (segmentAt source start stop before n).Around source (endBehind start before) n := by
  have hcursor := (h.cursorBehind_within hns).1
  have hstart := (h.segmentAt_start (h.stepping hlines) hns).1
  have htaken := (h.takenStop_within (n := n) (by simp [hns])).1
  obtain ⟨hle, huncut⟩ := h.segmentAt_start_uncut hlines hns hn
  obtain ⟨hstop, hstopUncut⟩ := h.takenStop_uncut hlines hns
  exact ⟨Nat.le_trans hcursor hstart, hle, htaken, hstop, huncut, hstopUncut⟩

end Consecutive

/-! ### The comments of a body

A comment of the body is one of the fillers between two statements, or lies in a statement. In both
cases the segments that it could be cut by are those of the statements next to it. -/

/-- A stretch of a body that a comment can cover: a comment between two statements, before the first
one or behind the last one, or any stretch from the first token of a statement to its end. -/
inductive HasComment (source : List Char) (start : Nat) (ns : List Node) : Span → Prop where
  | between {before after : List Node} {k : Comment} : ns = before ++ after →
    k ∈ commentsBehind source (endBehind start before) → HasComment source start ns k.span
  | within {before after : List Node} {n : Node} {span : Span} : ns = before ++ n :: after →
    tokenBehind source (endBehind start before) ≤ span.start → span.start ≤ span.stop →
    span.stop ≤ n.span.stop → HasComment source start ns span

/-- Two ways to split a list, the first of them at a statement. -/
theorem split_cases {before after before' after' : List Node} {n : Node}
    (h : before ++ n :: after = before' ++ after') :
    (∃ m mid, before = before' ++ m :: mid ∧ after' = m :: mid ++ n :: after) ∨
      (before = before' ∧ after' = n :: after) ∨
        ∃ mid, before' = before ++ n :: mid ∧ after = mid ++ after' := by
  rcases List.append_eq_append_iff.mp h with ⟨mid, rfl, hafter⟩ | ⟨mid, rfl, hafter⟩
  · cases mid with
    | nil => exact .inr (.inl ⟨by simp, by simpa using hafter.symm⟩)
    | cons m mid =>
      obtain ⟨rfl, rfl⟩ := List.cons.inj hafter
      exact .inr (.inr ⟨mid, rfl, rfl⟩)
  · cases mid with
    | nil => exact .inr (.inl ⟨by simp, by simpa using hafter⟩)
    | cons m mid => exact .inl ⟨m, mid, rfl, hafter⟩

namespace Segment.Around

variable {source : List Char} {start stop : Nat} {before after : List Node} {n : Node} {g : Segment}

/-- The segment covers no part of a statement before its own one. -/
theorem stop_le_start (hg : g.Around source (endBehind start before) n)
    (hchained : Chained source stop start (before ++ n :: after)) {m : Node} (hm : m ∈ before) :
    m.span.stop ≤ g.span.start := by
  obtain ⟨front, mid, rfl⟩ := List.append_of_mem hm
  rw [List.append_assoc] at hchained
  have hle := le_endBehind (chained_append hchained).2.2
  have hstart := hg.le_start
  rw [endBehind_append, endBehind_cons] at hstart
  omega

/-- The segment covers no part of a statement behind its own one. -/
theorem stop_le_tokenBehind (hg : g.Around source (endBehind start before) n)
    (hchained : Chained source stop start (before ++ n :: after)) {mid rest : List Node}
    (hafter : after = mid ++ rest) :
    g.span.stop ≤ tokenBehind source (endBehind n.span.stop mid) := by
  have hstop := hg.stop_le
  have hbehind := (chained_append hchained).2.2
  cases mid with
  | nil => exact hstop
  | cons m mid =>
    rw [hafter] at hbehind
    have hlt := tokenBehind_lt_endBehind hbehind
    have hle := le_tokenBehind source (endBehind n.span.stop (m :: mid))
    omega

/-- A comment of the body lies inside of the segment or outside of it. -/
theorem comment_cases (hg : g.Around source (endBehind start before) n)
    (hchained : Chained source stop start (before ++ n :: after)) {span : Span}
    (hspan : HasComment source start (before ++ n :: after) span) :
    (g.span.start ≤ span.start ∧ span.stop ≤ g.span.stop) ∨ span.stop ≤ g.span.start ∨
      g.span.stop ≤ span.start := by
  have hlo := hg.le_start
  have hhi := hg.le_stop
  obtain ⟨hstart, hlt, hrest⟩ := chained_append hchained
  cases hspan with
  | @between before' after' k hns hk =>
    obtain ⟨hkLo, -, hkHi⟩ := Script.within_of_mem_commentsOf hk
    rw [← tokenBehind] at hkHi
    rcases split_cases hns with ⟨m, mid, rfl, rfl⟩ | ⟨rfl, rfl⟩ | ⟨mid, rfl, rfl⟩
    · -- before an earlier statement
      rw [List.append_assoc] at hchained
      have hearlier := tokenBehind_lt_endBehind (chained_append hchained)
      rw [← endBehind_append] at hearlier
      omega
    · -- before the statement itself
      have huncut := hg.start_uncut k hk
      omega
    · rw [endBehind_append, endBehind_cons] at hk hkLo
      cases mid with
      | nil =>
        -- right behind the statement
        have huncut := hg.stop_uncut k hk
        have hle := hg.start_le
        rw [endBehind_nil] at hkLo
        omega
      | cons m mid =>
        have hlater := tokenBehind_lt_endBehind hrest
        have hstop := hg.stop_le
        omega
  | @within before' after' m span hns hfirst hle hlast =>
    rcases split_cases hns with ⟨x, mid, rfl, heq⟩ | ⟨rfl, heq⟩ | ⟨mid, rfl, rfl⟩
    · obtain ⟨rfl, -⟩ := List.cons.inj heq
      have hearlier := hg.stop_le_start hchained (List.mem_append_right before' List.mem_cons_self)
      omega
    · obtain ⟨rfl, -⟩ := List.cons.inj heq
      have hle := hg.start_le
      omega
    · have hlater := hg.stop_le_tokenBehind hchained rfl
      rw [endBehind_append, endBehind_cons] at hfirst
      omega

end Segment.Around

end VueSetup.Pass
