import VueSetup.Proofs.Draft.Walk

/-!
# VueSetup.Proofs.Draft.Slice

What a slice of a draft sees of its edits, and the text that insertions and one large removal leave.

A slice depends on the edits that lie in it and on no others (`slice?_congr`), so that a stretch
that no edit lies in is the text itself. A removal that encloses all other replacements leaves what
stands before and behind it, with the insertions there (`render?_of_enclosing`).
-/

namespace VueSetup

/-- The edit takes part in a slice of the stretch. -/
def Edit.isIn (span : Span) : Edit → Bool
  | .insert offset _ => span.start < offset && offset < span.stop
  | .replace s _ => span.start ≤ s.start && s.stop ≤ span.stop

namespace Draft

/-! ### Edits that a slice does not see

An edit outside of a stretch is left out before anything is sorted, so that it cannot matter. -/

/-- Leaving out what is not looked at changes nothing. -/
theorem filterMap_filter_of_none {α β : Type} {f : α → Option β} {p : α → Bool}
    (h : ∀ a, p a = false → f a = none) (l : List α) : (l.filter p).filterMap f =
      l.filterMap f := by
  rw [List.filterMap_filter]
  apply List.filterMap_congr
  intro a _
  by_cases ha : p a = true
  · simp [ha]
  · simp [ha, h a (by simpa using ha)]

/-- A slice depends on the edits that lie in it, in the order of recording. -/
theorem slice?_congr {d d' : Draft} {span : Span} (hsource : d.source = d'.source)
    (h : d.edits.filter (Edit.isIn span) = d'.edits.filter (Edit.isIn span)) :
    d.slice? span = d'.slice? span := by
  have hins : d.insertionsIn span .interior = d'.insertionsIn span .interior := by
    rw [insertionsIn, insertionsIn, ← filterMap_filter_of_none (p := Edit.isIn span), h,
      filterMap_filter_of_none]
    all_goals
      intro e he
      cases e with
      | insert offset text => simpa [Edit.isIn, Extent.admits] using he
      | replace s text => rfl
  have hrep : d.replacementsIn span = d'.replacementsIn span := by
    rw [replacementsIn, replacementsIn, ← filterMap_filter_of_none (p := Edit.isIn span), h,
      filterMap_filter_of_none]
    all_goals
      intro e he
      cases e with
      | insert offset text => rfl
      | replace s text => simpa [Edit.isIn] using he
  rw [slice?, slice?, renderRange?, renderRange?, hins, hrep, hsource]

/-- No edit lies in the stretch. -/
def Untouched (d : Draft) (span : Span) : Prop :=
  ∀ e ∈ d.edits, e.isIn span = false

/-- In such a stretch no edit lies. -/
theorem Untouched.filter_eq_nil {d : Draft} {span : Span} (h : d.Untouched span) :
    d.edits.filter (Edit.isIn span) = [] := by
  rw [List.filter_eq_nil_iff]
  intro e he
  rw [h e he]
  decide

/-- Edits elsewhere leave the stretch untouched. -/
theorem Untouched.recordAll {d : Draft} {span : Span} (h : d.Untouched span) {es : List Edit}
    (hes : ∀ e ∈ es, e.isIn span = false) : (d.recordAll es).Untouched span := by
  intro e he
  rw [edits_recordAll, List.mem_append] at he
  exact he.elim (h e) (hes e)

/-- Without edits every stretch is untouched. -/
theorem untouched_fresh (source : String) (span : Span) :
    Untouched { source := source } span := by
  intro e he
  cases he

/-- A stretch that no edit lies in is the text itself. -/
theorem slice?_of_untouched {d : Draft} {span : Span} (h : d.Untouched span) :
    d.slice? span = (Text.slice? d.source.toList span.start span.stop).map String.ofList := by
  have hfresh : d.slice? span = Draft.slice? { source := d.source } span :=
    slice?_congr rfl (by rw [h.filter_eq_nil]; rfl)
  have hpieces : layout span.stop span.start
      (insertionsIn { source := d.source } span .interior)
      (replacementsIn { source := d.source } span) = [.kept span] := by
    simp [insertionsIn, replacementsIn, layout, layInsertions, endOfInsertions]
  rw [hfresh, slice?, renderRange?, hpieces, Text.slice?]
  split
  · next hle =>
    simp [assemble?, Text.slice?, hle]
  · rfl

/-! ### Texts in a stretch

Without replacements a stretch is its text with other texts inserted in it, and is written down as
such. -/

/-- A stretch with texts inserted in it. -/
def spelled (cs : List Char) (pos stop : Nat) : List Insertion → List Char
  | [] => Text.between cs pos stop
  | i :: is => Text.between cs pos i.offset ++ i.text.toList ++ spelled cs i.offset stop is

section

variable {cs : List Char} {pos stop : Nat} {is : List Insertion}

/-- A kept stretch between two boundaries is cut out. -/
theorem assemble?_kept (hpos : Text.IsBoundary cs pos) (hstop : Text.IsBoundary cs stop)
    (hle : pos ≤ stop) (ps : List Piece) : assemble? cs (.kept ⟨pos, stop⟩ :: ps) =
      (assemble? cs ps).map (Text.between cs pos stop ++ ·) := by
  simp only [assemble?, Text.slice?_eq_between hpos hstop hle]
  cases assemble? cs ps <;> rfl

/-- A written text is put before the others. -/
theorem assemble?_written (text : String) (ps : List Piece) :
    assemble? cs (.written text :: ps) = (assemble? cs ps).map (text.toList ++ ·) := by
  simp only [assemble?]
  cases assemble? cs ps <;> rfl

/-- Laid insertions and the text behind them are cut out together. -/
theorem assemble?_layInsertions (hpos : Text.IsBoundary cs pos) (hstop : Text.IsBoundary cs stop)
    (hle : pos ≤ stop) (hs : is.Pairwise fun a b => a.offset ≤ b.offset)
    (his : ∀ i ∈ is, pos ≤ i.offset ∧ i.offset ≤ stop ∧ Text.IsBoundary cs i.offset)
    (ps : List Piece) :
    assemble? cs (layInsertions pos is ++ .kept ⟨endOfInsertions pos is, stop⟩ :: ps) =
      (assemble? cs ps).map (spelled cs pos stop is ++ ·) := by
  induction is generalizing pos with
  | nil => exact assemble?_kept hpos hstop hle ps
  | cons i is ih =>
    obtain ⟨hlow, hhigh, hi⟩ := his i (by simp)
    obtain ⟨hfirst, hs'⟩ := List.pairwise_cons.mp hs
    have hrest := ih hi hhigh hs' fun j hj => ⟨hfirst j hj, (his j (by simp [hj])).2⟩
    rw [layInsertions, endOfInsertions, List.cons_append, List.cons_append,
      assemble?_kept hpos hi hlow, assemble?_written, hrest]
    cases assemble? cs ps <;> simp [spelled]

/-- Nothing is inserted before the first insertion. -/
theorem spelled_split {mid : Nat} (hpos : Text.IsBoundary cs pos) (hmid : Text.IsBoundary cs mid)
    (hstop : Text.IsBoundary cs stop) (hle : pos ≤ mid) (hmidle : mid ≤ stop)
    (his : ∀ i ∈ is, mid ≤ i.offset ∧ Text.IsBoundary cs i.offset) :
    spelled cs pos stop is = Text.between cs pos mid ++ spelled cs mid stop is := by
  cases is with
  | nil => exact Text.between_append hpos hmid hstop hle hmidle
  | cons i is =>
    obtain ⟨hlow, hi⟩ := his i (by simp)
    rw [spelled, spelled, Text.between_append hpos hmid hi hle hlow, List.append_assoc,
      List.append_assoc, List.append_assoc]

/-- Texts inserted at one offset stand together. -/
theorem spelled_group {mid : Nat} (hpos : Text.IsBoundary cs pos) (hmid : Text.IsBoundary cs mid)
    (hstop : Text.IsBoundary cs stop) (hle : pos ≤ mid) (hmidle : mid ≤ stop)
    (his : ∀ i ∈ is, mid ≤ i.offset ∧ Text.IsBoundary cs i.offset) (texts : List String) :
    spelled cs pos stop (texts.map (Insertion.mk mid) ++ is) =
      Text.between cs pos mid ++ texts.flatMap String.toList ++ spelled cs mid stop is := by
  have hat : spelled cs mid stop (texts.map (Insertion.mk mid) ++ is) =
      texts.flatMap String.toList ++ spelled cs mid stop is := by
    induction texts with
    | nil => rfl
    | cons text texts ih => simp [spelled, ih]
  rw [spelled_split hpos hmid hstop hle hmidle, hat, List.append_assoc]
  intro i hi
  rcases List.mem_append.mp hi with hi | hi
  · obtain ⟨text, -, rfl⟩ := List.mem_map.mp hi
    exact ⟨Nat.le_refl _, hmid⟩
  · exact his i hi

/-- Texts inserted at one offset only. -/
theorem spelled_of_group {mid : Nat} (hpos : Text.IsBoundary cs pos)
    (hmid : Text.IsBoundary cs mid) (hstop : Text.IsBoundary cs stop) (hle : pos ≤ mid)
    (hmidle : mid ≤ stop) (texts : List String) :
    spelled cs pos stop (texts.map (Insertion.mk mid)) =
      Text.between cs pos mid ++ texts.flatMap String.toList ++ Text.between cs mid stop := by
  have h : spelled cs pos stop (texts.map (Insertion.mk mid) ++ []) =
      Text.between cs pos mid ++ texts.flatMap String.toList ++ spelled cs mid stop [] :=
    spelled_group hpos hmid hstop hle hmidle (by simp) texts
  rwa [List.append_nil] at h

end

/-! ### Rendering around a removal

The edits of a rendered script are of one shape: a statement is removed, edits inside of it were
made for slices and have no effect on the whole, and texts are inserted around it. -/

/-- Replacements that start before the cursor are passed over. -/
theorem layout_of_passed {stop pos : Nat} {is : List Insertion} {rs : List Replacement}
    (h : ∀ r ∈ rs, r.span.start < pos) : layout stop pos is rs = layout stop pos is [] := by
  induction rs with
  | nil => rfl
  | cons r rs ih =>
    have hskip : layout stop pos is (r :: rs) = layout stop pos is rs := if_pos (h r (by simp))
    rw [hskip]
    exact ih fun q hq => h q (by simp [hq])

/-- Of replacements of which one starts before all others, that one comes first. -/
theorem mergeSort_of_first {r : Replacement} {inner : List Replacement}
    (h : ∀ q ∈ inner, r.span.start < q.span.start) :
    ∃ rs, (inner ++ [r]).mergeSort Replacement.le = r :: rs ∧ ∀ q ∈ rs, q ∈ inner := by
  have hperm := List.mergeSort_perm (inner ++ [r]) Replacement.le
  have hsorted := List.pairwise_mergeSort Replacement.le_trans Replacement.le_total (inner ++ [r])
  cases hm : (inner ++ [r]).mergeSort Replacement.le with
  | nil =>
    rw [hm] at hperm
    simpa using hperm.length_eq
  | cons x rs =>
    rw [hm] at hperm hsorted
    have hx : x = r := by
      have hmem : x ∈ inner ++ [r] := hperm.mem_iff.mp (by simp)
      rcases List.mem_append.mp hmem with hmem | hmem
      · -- otherwise `r` comes behind one that starts later
        have hr : r ∈ x :: rs := hperm.mem_iff.mpr (by simp)
        have hlt := h x hmem
        rcases List.mem_cons.mp hr with rfl | hr
        · rfl
        · have hle := (List.pairwise_cons.mp hsorted).1 r hr
          simp only [Replacement.le, Bool.or_eq_true, Bool.and_eq_true, decide_eq_true_eq,
            beq_iff_eq] at hle
          omega
      · exact List.mem_singleton.mp hmem
    subst hx
    refine ⟨rs, rfl, fun q hq => ?_⟩
    have hrest : rs.Perm inner :=
      (List.perm_cons x).mp (hperm.trans (List.perm_append_singleton x inner))
    exact hrest.mem_iff.mp hq

/-- All insertions at boundaries take part in rendering the whole. -/
theorem filter_admits_whole {d : Draft}
    (hins : ∀ i ∈ d.insertions, Text.IsBoundary d.source.toList i.offset) :
    (d.insertions.filter fun i => Extent.closed.admits ⟨0, d.source.utf8ByteSize⟩ i.offset) =
      d.insertions := by
  rw [List.filter_eq_self]
  intro i hi
  have hle := (hins i hi).le_byteSize
  simp [Extent.admits, Text.utf8ByteSize_eq, hle]

/-- Insertions that come in order, without replacements. -/
theorem render?_of_insertions {d : Draft} (hrep : d.replacements = [])
    (hins : ∀ i ∈ d.insertions, Text.IsBoundary d.source.toList i.offset)
    (hs : d.insertions.Pairwise fun a b => a.offset ≤ b.offset) :
    d.render? = some (String.ofList
      (spelled d.source.toList 0 d.source.utf8ByteSize d.insertions)) := by
  have hend : Text.IsBoundary d.source.toList d.source.utf8ByteSize := by
    rw [Text.utf8ByteSize_eq]
    exact Text.isBoundary_byteSize _
  have hreps : d.replacementsIn ⟨0, d.source.utf8ByteSize⟩ = [] := by
    rw [replacementsIn_eq, hrep, List.filter_nil, List.mergeSort_nil]
  have hsorted : d.insertionsIn ⟨0, d.source.utf8ByteSize⟩ .closed = d.insertions := by
    rw [insertionsIn_eq, filter_admits_whole hins]
    exact List.mergeSort_of_pairwise (hs.imp fun hab => by simpa [Insertion.le] using hab)
  have hinsIn : ∀ i ∈ d.insertions, 0 ≤ i.offset ∧ i.offset ≤ d.source.utf8ByteSize ∧
      Text.IsBoundary d.source.toList i.offset := by
    intro i hi
    refine ⟨Nat.zero_le _, ?_, hins i hi⟩
    rw [Text.utf8ByteSize_eq]
    exact (hins i hi).le_byteSize
  rw [render?, renderRange?, if_pos (Nat.zero_le _), hreps, hsorted, layout]
  dsimp only
  rw [assemble?_layInsertions (Text.isBoundary_zero _) hend (Nat.zero_le _) hs hinsIn]
  simp [assemble?]

/-- A replacement that encloses all others leaves what stands before and behind it, and the
insertions that come in order there. -/
theorem render?_of_enclosing {d : Draft} {r : Replacement} {inner : List Replacement}
    (hrep : d.replacements = inner ++ [r])
    (hinner : ∀ q ∈ inner, r.span.start < q.span.start ∧ q.span.start < r.span.stop ∧
      q.span.stop ≤ r.span.stop)
    (hstart : Text.IsBoundary d.source.toList r.span.start)
    (hstop : Text.IsBoundary d.source.toList r.span.stop)
    (hins : ∀ i ∈ d.insertions, Text.IsBoundary d.source.toList i.offset)
    (hbefore : (d.insertions.filter (·.offset ≤ r.span.start)).Pairwise
      fun a b => a.offset ≤ b.offset)
    (hbehind : (d.insertions.filter fun i =>
      r.span.start < i.offset && r.span.stop ≤ i.offset).Pairwise fun a b => a.offset ≤ b.offset) :
    d.render? = some (String.ofList (
      spelled d.source.toList 0 r.span.start (d.insertions.filter (·.offset ≤ r.span.start)) ++
      r.text.toList ++
      spelled d.source.toList r.span.stop d.source.utf8ByteSize
        (d.insertions.filter fun i => r.span.start < i.offset && r.span.stop ≤ i.offset))) := by
  have hsize := Text.utf8ByteSize_eq d.source
  have hend : Text.IsBoundary d.source.toList d.source.utf8ByteSize :=
    hsize ▸ Text.isBoundary_byteSize _
  have hlast : r.span.stop ≤ d.source.utf8ByteSize := hsize ▸ hstop.le_byteSize
  -- the enclosing one comes first, and the others are passed over behind it
  obtain ⟨rs, hsorted, hrs⟩ := mergeSort_of_first fun q hq => (hinner q hq).1
  have hreps : d.replacementsIn ⟨0, d.source.utf8ByteSize⟩ = r :: rs := by
    rw [replacementsIn_eq, List.filter_eq_self.mpr, hrep, hsorted]
    intro q hq
    have hq : q.span.stop ≤ d.source.utf8ByteSize := by
      rw [hrep] at hq
      rcases List.mem_append.mp hq with hq | hq
      · exact Nat.le_trans (hinner q hq).2.2 hlast
      · rw [List.mem_singleton.mp hq]
        exact hlast
    simp [Replacement.isIn, hq]
  have hs := pairwise_insertionsIn d ⟨0, d.source.utf8ByteSize⟩ .closed
  have hup : (d.insertionsIn ⟨0, d.source.utf8ByteSize⟩ .closed).takeWhile
      (·.offset ≤ r.span.start) = d.insertions.filter (·.offset ≤ r.span.start) := by
    rw [insertionsUpTo_eq hs, filter_insertionsIn_of_pairwise] <;> rw [filter_admits_whole hins]
    exact hbefore
  have hdown : insertionsBehind r.span (d.insertionsIn ⟨0, d.source.utf8ByteSize⟩ .closed) =
      d.insertions.filter fun i => r.span.start < i.offset && r.span.stop ≤ i.offset := by
    rw [insertionsBehind_eq hs, filter_insertionsIn_of_pairwise] <;> rw [filter_admits_whole hins]
    exact hbehind
  have hupIn : ∀ i ∈ d.insertions.filter (·.offset ≤ r.span.start),
      0 ≤ i.offset ∧ i.offset ≤ r.span.start ∧ Text.IsBoundary d.source.toList i.offset := by
    intro i hi
    rw [List.mem_filter, decide_eq_true_eq] at hi
    exact ⟨Nat.zero_le _, hi.2, hins i hi.1⟩
  have hdownIn : ∀ i ∈ d.insertions.filter fun i =>
        r.span.start < i.offset && r.span.stop ≤ i.offset,
      r.span.stop ≤ i.offset ∧ i.offset ≤ d.source.utf8ByteSize ∧
        Text.IsBoundary d.source.toList i.offset := by
    intro i hi
    simp only [List.mem_filter, Bool.and_eq_true, decide_eq_true_eq] at hi
    exact ⟨hi.2.2, hsize ▸ (hins i hi.1).le_byteSize, hins i hi.1⟩
  rw [render?, renderRange?, if_pos (Nat.zero_le _), hreps, layout, if_neg (Nat.not_lt_zero _)]
  dsimp only
  rw [← insertionsBehind, hup, hdown, layout_of_passed fun q hq => (hinner q (hrs q hq)).2.1,
    assemble?_layInsertions (Text.isBoundary_zero _) hstart (Nat.zero_le _) hbefore hupIn,
    assemble?_written, layout, assemble?_layInsertions hstop hend hlast hbehind hdownIn]
  simp [assemble?]

/-! ### Two groups of insertions around a removal

One group stands at the start of what is removed, the other one before or behind it. -/

section

variable {d : Draft} {line : Span} {inner : List Replacement} {at_ : Nat}
  {others declared : List String}

/-- Both groups stand at boundaries. -/
theorem isBoundary_of_groups (hat : Text.IsBoundary d.source.toList at_)
    (hstart : Text.IsBoundary d.source.toList line.start)
    (hins : d.insertions = others.map (Insertion.mk at_) ++
      declared.map (Insertion.mk line.start)) :
    ∀ i ∈ d.insertions, Text.IsBoundary d.source.toList i.offset := by
  intro i hi
  rw [hins, List.mem_append, List.mem_map, List.mem_map] at hi
  rcases hi with ⟨text, -, rfl⟩ | ⟨text, -, rfl⟩
  · exact hat
  · exact hstart

/-- Texts at one offset come in order. -/
theorem pairwise_group (offset : Nat) (texts : List String) :
    (texts.map (Insertion.mk offset)).Pairwise fun a b => a.offset ≤ b.offset := by
  rw [List.pairwise_map]
  exact List.pairwise_of_forall fun _ _ => Nat.le_refl offset

/-- The one group stands before what is removed. What was between the two groups stays there. -/
theorem render?_of_group_before (hrep : d.replacements = inner ++ [⟨line, ""⟩])
    (hinner : ∀ q ∈ inner, line.start < q.span.start ∧ q.span.start < line.stop ∧
      q.span.stop ≤ line.stop)
    (hat : Text.IsBoundary d.source.toList at_)
    (hstart : Text.IsBoundary d.source.toList line.start)
    (hstop : Text.IsBoundary d.source.toList line.stop)
    (hins : d.insertions = others.map (Insertion.mk at_) ++ declared.map (Insertion.mk line.start))
    (hle : at_ ≤ line.start) :
    d.render? = some (String.ofList (Text.between d.source.toList 0 at_ ++
      others.flatMap String.toList ++ Text.between d.source.toList at_ line.start ++
      declared.flatMap String.toList ++
      Text.between d.source.toList line.stop d.source.utf8ByteSize)) := by
  -- Nothing is inserted behind the start of the line.
  have hbefore : d.insertions.filter (·.offset ≤ line.start) = d.insertions := by
    rw [List.filter_eq_self, hins]
    intro i hi
    rw [List.mem_append, List.mem_map, List.mem_map] at hi
    rcases hi with ⟨text, -, rfl⟩ | ⟨text, -, rfl⟩ <;> simp [hle]
  have hbehind : d.insertions.filter (fun i => line.start < i.offset && line.stop ≤ i.offset) =
      [] := by
    rw [List.filter_eq_nil_iff, hins]
    intro i hi
    rw [List.mem_append, List.mem_map, List.mem_map] at hi
    rcases hi with ⟨text, -, rfl⟩ | ⟨text, -, rfl⟩
    · simp [Nat.not_lt.mpr hle]
    · simp
  have hs : d.insertions.Pairwise fun a b => a.offset ≤ b.offset := by
    rw [hins, List.pairwise_append]
    refine ⟨pairwise_group _ _, pairwise_group _ _, fun a ha b hb => ?_⟩
    obtain ⟨_, -, rfl⟩ := List.mem_map.mp ha
    obtain ⟨_, -, rfl⟩ := List.mem_map.mp hb
    exact hle
  have hspelled : spelled d.source.toList 0 line.start d.insertions =
      Text.between d.source.toList 0 at_ ++ others.flatMap String.toList ++
        (Text.between d.source.toList at_ line.start ++ declared.flatMap String.toList) := by
    rw [hins, spelled_group (Text.isBoundary_zero _) hat hstart (Nat.zero_le _) hle,
      spelled_of_group hat hstart hstart hle (Nat.le_refl _), Text.between_self, List.append_nil]
    intro i hi
    obtain ⟨_, -, rfl⟩ := List.mem_map.mp hi
    exact ⟨hle, hstart⟩
  rw [render?_of_enclosing hrep hinner hstart hstop (isBoundary_of_groups hat hstart hins)
    (by rw [hbefore]; exact hs) (by rw [hbehind]; exact .nil), hbefore, hbehind, hspelled]
  simp [spelled]

/-- The one group stands behind what is removed. -/
theorem render?_of_group_behind (hrep : d.replacements = inner ++ [⟨line, ""⟩])
    (hinner : ∀ q ∈ inner, line.start < q.span.start ∧ q.span.start < line.stop ∧
      q.span.stop ≤ line.stop)
    (hat : Text.IsBoundary d.source.toList at_)
    (hstart : Text.IsBoundary d.source.toList line.start)
    (hstop : Text.IsBoundary d.source.toList line.stop)
    (hins : d.insertions = others.map (Insertion.mk at_) ++ declared.map (Insertion.mk line.start))
    (hlt : line.start < at_) (hle : line.stop ≤ at_) :
    d.render? = some (String.ofList (Text.between d.source.toList 0 line.start ++
      declared.flatMap String.toList ++ Text.between d.source.toList line.stop at_ ++
      others.flatMap String.toList ++
      Text.between d.source.toList at_ d.source.utf8ByteSize)) := by
  have hend : Text.IsBoundary d.source.toList d.source.utf8ByteSize := by
    rw [Text.utf8ByteSize_eq]
    exact Text.isBoundary_byteSize _
  have hatle : at_ ≤ d.source.utf8ByteSize := by
    rw [Text.utf8ByteSize_eq]
    exact hat.le_byteSize
  have hbefore : d.insertions.filter (·.offset ≤ line.start) =
      declared.map (Insertion.mk line.start) := by
    have hothers : (others.map (Insertion.mk at_)).filter (·.offset ≤ line.start) = [] := by
      simp [List.filter_eq_nil_iff, hlt]
    have hdeclared : (declared.map (Insertion.mk line.start)).filter (·.offset ≤ line.start) =
        declared.map (Insertion.mk line.start) := by
      simp [List.filter_eq_self]
    rw [hins, List.filter_append, hothers, hdeclared, List.nil_append]
  have hbehind : d.insertions.filter (fun i => line.start < i.offset && line.stop ≤ i.offset) =
      others.map (Insertion.mk at_) := by
    have hothers : (others.map (Insertion.mk at_)).filter
        (fun i => line.start < i.offset && line.stop ≤ i.offset) =
        others.map (Insertion.mk at_) := by
      simp [List.filter_eq_self, hlt, hle]
    have hdeclared : (declared.map (Insertion.mk line.start)).filter
        (fun i => line.start < i.offset && line.stop ≤ i.offset) = [] := by
      simp [List.filter_eq_nil_iff]
    rw [hins, List.filter_append, hothers, hdeclared, List.append_nil]
  rw [render?_of_enclosing hrep hinner hstart hstop (isBoundary_of_groups hat hstart hins)
    (by rw [hbefore]; exact pairwise_group _ _) (by rw [hbehind]; exact pairwise_group _ _),
    hbefore, hbehind, spelled_of_group (Text.isBoundary_zero _) hstart hstart (Nat.zero_le _)
      (Nat.le_refl _), spelled_of_group hstop hat hend hle hatle]
  simp

end

/-! ### A replacement behind insertions

The case of a text that starts with inserted ones and has one stretch replaced later on. -/

/-- A text is replaced, and others are inserted at one offset before it. -/
theorem render?_of_split {d : Draft} {front mid old rest : List Char} {new : String}
    {texts : List String} (hsource : d.source.toList = front ++ mid ++ old ++ rest)
    (hins : d.insertions = texts.map (Insertion.mk (Text.byteSize front)))
    (hrep : d.replacements = [⟨⟨Text.byteSize (front ++ mid), Text.byteSize (front ++ mid ++ old)⟩,
      new⟩]) :
    d.render? = some (String.ofList (front ++ texts.flatMap String.toList ++ mid ++ new.toList ++
      rest)) := by
  have hfront : Text.IsBoundary d.source.toList (Text.byteSize front) :=
    ⟨front, mid ++ old ++ rest, by simp [hsource], rfl⟩
  have hmid : Text.IsBoundary d.source.toList (Text.byteSize (front ++ mid)) :=
    ⟨front ++ mid, old ++ rest, by simp [hsource], rfl⟩
  have hold : Text.IsBoundary d.source.toList (Text.byteSize (front ++ mid ++ old)) :=
    ⟨front ++ mid ++ old, rest, hsource, rfl⟩
  have hle : Text.byteSize front ≤ Text.byteSize (front ++ mid) := by
    rw [Text.byteSize_append]
    exact Nat.le_add_right _ _
  have hbefore : d.insertions.filter (·.offset ≤ Text.byteSize (front ++ mid)) = d.insertions := by
    rw [List.filter_eq_self, hins]
    intro i hi
    obtain ⟨text, -, rfl⟩ := List.mem_map.mp hi
    exact decide_eq_true hle
  have hbehind : (d.insertions.filter fun i => Text.byteSize (front ++ mid) < i.offset &&
      Text.byteSize (front ++ mid ++ old) ≤ i.offset) = [] := by
    rw [List.filter_eq_nil_iff, hins]
    intro i hi
    obtain ⟨text, -, rfl⟩ := List.mem_map.mp hi
    simp only [Bool.and_eq_true, decide_eq_true_eq]
    omega
  have hboundary : ∀ i ∈ d.insertions, Text.IsBoundary d.source.toList i.offset := by
    intro i hi
    rw [hins] at hi
    obtain ⟨text, -, rfl⟩ := List.mem_map.mp hi
    exact hfront
  have hlast : d.replacements = [] ++ [⟨⟨Text.byteSize (front ++ mid),
      Text.byteSize (front ++ mid ++ old)⟩, new⟩] := hrep
  -- All texts stand at one offset before the one replacement, so none is behind it.
  rw [render?_of_enclosing hlast (by simp) hmid hold hboundary
    (by rw [hbefore, hins]; exact pairwise_group _ _) (by rw [hbehind]; exact List.Pairwise.nil),
    hbefore, hbehind, hins, spelled_of_group (Text.isBoundary_zero _) hfront hmid
    (Nat.zero_le _) hle, spelled, Text.utf8ByteSize_eq, hsource]
  have hhead := Text.between_middle [] front (mid ++ old ++ rest)
  have hinner := Text.between_middle front mid (old ++ rest)
  have htail := Text.between_middle (front ++ mid ++ old) rest []
  simp only [List.append_assoc, List.nil_append, List.append_nil, Text.byteSize_nil, Nat.zero_add,
    Text.byteSize_append, Nat.add_assoc] at hhead hinner htail ⊢
  rw [hhead, hinner, htail]

end Draft

end VueSetup
