import VueSetup.Proofs.Draft.Walk

/-!
# VueSetup.Proofs.Draft.Render

Rendering never fails on edits that fall between characters, and gives the bytes of the walk over
the draft (`render?_eq_walk`).

What can fail is cutting the kept stretches out of the text. Their ends are ends of the range, of
insertions or of replacements (`kept_mem_layout`), so that it is enough that all of these are
boundaries.
-/

namespace VueSetup.Draft

/-! ### The walk does not see the order of insertions at different offsets

A layout has its insertions sorted, and the walk looks them up by offset. Both see the same texts at
an offset because sorting keeps those in their order. -/

/-- A walk depends on its insertions only through those at each offset. -/
theorem walk_congr {range : Span} {as bs : List Insertion} {kept : List Replacement}
    (h : ∀ p, as.filter (·.offset == p) = bs.filter (·.offset == p)) :
    walk range as kept = walk range bs kept := by
  rw [walk, walk]
  apply List.flatMap_congr
  intro p _
  rw [emissionsAt, emissionsAt, h p]

/-! ### Cutting the pieces out of the text

The predicate `good` stands for whatever is known of the offsets of the edits and of the range. It
passes to the ends of all kept stretches, since these are made of no other offsets. -/

/-- A layout keeps only stretches that are in order and that start and end where the range, an
insertion or a replacement does. -/
theorem kept_mem_layInsertions {good : Nat → Prop} {q : Nat} (is : List Insertion) :
    ∀ {pos : Nat}, pos ≤ q → good pos → good q →
      is.Pairwise (fun a b => a.offset ≤ b.offset) →
      (∀ i ∈ is, pos ≤ i.offset ∧ i.offset ≤ q ∧ good i.offset) →
      ∀ span, Piece.kept span ∈ layInsertions pos is ++ [.kept ⟨endOfInsertions pos is, q⟩] →
        span.start ≤ span.stop ∧ good span.start ∧ good span.stop := by
  induction is with
  | nil =>
    intro pos hle hpos hq _ _ span hspan
    obtain rfl : span = ⟨pos, q⟩ := by simpa [layInsertions, endOfInsertions] using hspan
    exact ⟨hle, hpos, hq⟩
  | cons i is ih =>
    intro pos hle hpos hq hs his span hspan
    obtain ⟨hlow, hhigh, hi⟩ := his i (by simp)
    obtain ⟨hfirst, hs'⟩ := List.pairwise_cons.mp hs
    rw [layInsertions, endOfInsertions, List.cons_append, List.cons_append, List.mem_cons,
      List.mem_cons] at hspan
    rcases hspan with hspan | hspan | hspan
    · obtain rfl : span = ⟨pos, i.offset⟩ := by simpa using hspan
      exact ⟨hlow, hpos, hi⟩
    · simp at hspan
    · exact ih hhigh hi hq hs' (fun j hj => ⟨hfirst j hj, (his j (by simp [hj])).2⟩) span hspan

/-- By induction on the replacements, with the insertions between two of them laid out by the lemma
before. -/
theorem kept_mem_layout {good : Nat → Prop} {stop : Nat} (hstop : good stop)
    {rs : List Replacement} :
    ∀ {pos : Nat} {is : List Insertion}, pos ≤ stop → good pos →
      is.Pairwise (fun a b => a.offset ≤ b.offset) →
      (∀ i ∈ is, pos ≤ i.offset ∧ i.offset ≤ stop ∧ good i.offset) →
      (∀ r ∈ rs, r.span.start ≤ r.span.stop ∧ r.span.stop ≤ stop ∧
        good r.span.start ∧ good r.span.stop) →
      ∀ span, Piece.kept span ∈ layout stop pos is rs →
        span.start ≤ span.stop ∧ good span.start ∧ good span.stop := by
  induction rs with
  | nil =>
    intro pos is hle hpos hs his _ span hspan
    rw [layout] at hspan
    exact kept_mem_layInsertions is hle hpos hstop hs his span hspan
  | cons r rs ih =>
    intro pos is hle hpos hs his hrs span hspan
    obtain ⟨hr, hrstop, hgstart, hgstop⟩ := hrs r (by simp)
    have hrs' := fun q (hq : q ∈ rs) => hrs q (by simp [hq])
    rw [layout] at hspan
    split at hspan
    · exact ih hle hpos hs his hrs' span hspan
    · next hnot =>
      dsimp only at hspan
      rw [← insertionsBehind, insertionsBehind_eq hs, insertionsUpTo_eq hs] at hspan
      rw [List.mem_append, List.mem_cons, List.mem_cons, ← or_assoc] at hspan
      rcases hspan with hspan | hspan | hspan
      · refine kept_mem_layInsertions (is.filter (·.offset ≤ r.span.start))
          (Nat.le_of_not_lt hnot) hpos hgstart (hs.filter _) ?_ span ?_
        · intro i hi
          rw [List.mem_filter, decide_eq_true_eq] at hi
          exact ⟨(his i hi.1).1, hi.2, (his i hi.1).2.2⟩
        · simpa using hspan
      · simp at hspan
      · refine ih hrstop hgstop (hs.filter _) ?_ hrs' span hspan
        intro i hi
        simp only [List.mem_filter, Bool.and_eq_true, decide_eq_true_eq] at hi
        exact ⟨hi.2.2, (his i hi.1).2⟩

/-- Pieces that keep stretches between boundaries can be cut out, and give their bytes. -/
theorem assemble?_eq_some {cs : List Char} {ps : List Piece}
    (h : ∀ span, Piece.kept span ∈ ps →
      span.start ≤ span.stop ∧ Text.IsBoundary cs span.start ∧ Text.IsBoundary cs span.stop) :
    ∃ out, assemble? cs ps = some out ∧
      Text.bytes out = ps.flatMap (Piece.bytes (Text.bytes cs)) := by
  induction ps with
  | nil => exact ⟨[], rfl, rfl⟩
  | cons p ps ih =>
    obtain ⟨out, hout, hbytes⟩ := ih (fun span hspan => h span (by simp [hspan]))
    cases p with
    | kept span =>
      obtain ⟨hle, hstart, hstop⟩ := h span (by simp)
      obtain ⟨mid, hmid⟩ := Text.exists_slice? hstart hstop hle
      refine ⟨mid ++ out, by simp [assemble?, hmid, hout], ?_⟩
      rw [Text.bytes_append, Text.bytes_slice? hmid, hbytes, List.flatMap_cons, Piece.bytes]
    | written text =>
      refine ⟨text.toList ++ out, by simp [assemble?, hout], ?_⟩
      rw [Text.bytes_append, hbytes, List.flatMap_cons, Piece.bytes]

/-! ### Rendering

The main statement, assembled: the choice of replacements is that of the cursor, the layout writes
the bytes of the walk, and the pieces can be cut out. -/

/-- Every replacement that is made starts at or behind the end of those made before it. -/
theorem pairwise_made {rs : List Replacement} (hrs : ∀ r ∈ rs, r.span.start ≤ r.span.stop)
    (pos : Nat) : (made pos rs).Pairwise fun a b => a.span.stop ≤ b.span.start := by
  induction rs generalizing pos with
  | nil => exact List.Pairwise.nil
  | cons r rs ih =>
    have hrs' : ∀ r ∈ rs, r.span.start ≤ r.span.stop := fun q hq => hrs q (by simp [hq])
    rw [made]
    split
    · exact ih hrs' pos
    · exact List.Pairwise.cons (fun k hk => (le_start_of_mem_made hrs' hk).1) (ih hrs' _)

/-- What the rules keep is what the cursor makes. -/
theorem keptIn_eq_made {d : Draft} {range : Span}
    (h : ∀ r ∈ d.replacementsIn range, r.span.start ≤ r.span.stop) :
    d.keptIn range = made range.start (d.replacementsIn range) := by
  rw [keptIn, inOrder_eq, ← replacementsIn_eq,
    keep_eq_append_made range.start _ range.start []]
  · rfl
  · intro r hr
    have hin : r.isIn range = true := (mem_replacementsIn.mp hr).2
    simp only [Replacement.isIn, Bool.and_eq_true, decide_eq_true_eq] at hin
    exact ⟨hin.1, h r hr⟩
  · intro n hn
    simpa using hn

/-- A range is rendered to the bytes of the walk over it, when it and the edits that take part fall
between characters. -/
theorem renderRange?_eq_walk {d : Draft} {range : Span} {extent : Extent}
    (hrange : range.start ≤ range.stop)
    (hstart : Text.IsBoundary d.source.toList range.start)
    (hstop : Text.IsBoundary d.source.toList range.stop)
    (hins : ∀ i ∈ d.insertionsIn range extent, Text.IsBoundary d.source.toList i.offset)
    (hrep : ∀ r ∈ d.replacementsIn range, r.span.start ≤ r.span.stop ∧
      Text.IsBoundary d.source.toList r.span.start ∧
      Text.IsBoundary d.source.toList r.span.stop) :
    ∃ s, d.renderRange? range extent = some s ∧
      Text.bytes s.toList =
        (d.walkOf range extent).flatMap (Emission.bytes (Text.bytes d.source.toList)) := by
  have hs := pairwise_insertionsIn d range extent
  have hoffset : ∀ i ∈ d.insertionsIn range extent,
      range.start ≤ i.offset ∧ i.offset ≤ range.stop := by
    intro i hi
    have hadmits := (mem_insertionsIn.mp hi).2
    cases extent <;> simp only [Extent.admits, Bool.and_eq_true, decide_eq_true_eq] at hadmits <;>
      omega
  have hstopIn : ∀ r ∈ d.replacementsIn range, r.span.stop ≤ range.stop := by
    intro r hr
    have hin := (mem_replacementsIn.mp hr).2
    simp only [Replacement.isIn, Bool.and_eq_true, decide_eq_true_eq] at hin
    exact hin.2
  have hkept := kept_mem_layout hstop hrange hstart hs
    (fun i hi => ⟨(hoffset i hi).1, (hoffset i hi).2, hins i hi⟩)
    (fun r hr => ⟨(hrep r hr).1, hstopIn r hr, (hrep r hr).2⟩)
  obtain ⟨out, hout, hbytes⟩ := assemble?_eq_some hkept
  refine ⟨String.ofList out, by simp [renderRange?, hrange, hout], ?_⟩
  rw [String.toList_ofList, hbytes,
    layout_bytes _ _ range.start _ hrange hs hoffset
      (fun r hr => ⟨(hrep r hr).1, hstopIn r hr⟩),
    walkOf, ← walk_congr (filter_offset_insertionsIn d range extent),
    keptIn_eq_made (fun r hr => (hrep r hr).1), walk, List.flatMap_assoc]
  rfl

/-- The edits fall between characters: every replaced stretch is in order, and the offsets of every
edit that lies in the text are boundaries. -/
structure IsAligned (d : Draft) : Prop where
  ordered : ∀ r ∈ d.replacements, r.span.start ≤ r.span.stop
  insertion : ∀ i ∈ d.insertions, i.offset ≤ d.source.utf8ByteSize →
    Text.IsBoundary d.source.toList i.offset
  replacement : ∀ r ∈ d.replacements, r.span.stop ≤ d.source.utf8ByteSize →
    Text.IsBoundary d.source.toList r.span.start ∧ Text.IsBoundary d.source.toList r.span.stop

/-- The replacements of a draft that are made: of those that end in the text, by start, then the
longer ones, then in the order of recording, each that starts at or behind the end of all that are
kept before it. -/
def kept (d : Draft) : List Replacement :=
  keep [] (inOrder (d.replacements.filter (·.span.stop ≤ d.source.utf8ByteSize)))

/-- What the walk over a whole draft emits. Insertions past the end of the text take no part. -/
def wholeWalk (d : Draft) : List Emission :=
  walk ⟨0, d.source.utf8ByteSize⟩
    (d.insertions.filter (·.offset ≤ d.source.utf8ByteSize)) d.kept

/-- All replacements that end in the text lie in the whole of it. -/
theorem keptIn_whole (d : Draft) : d.keptIn ⟨0, d.source.utf8ByteSize⟩ = d.kept := by
  have hin : Replacement.isIn ⟨0, d.source.utf8ByteSize⟩ =
      fun r => decide (r.span.stop ≤ d.source.utf8ByteSize) := by
    funext r
    simp [Replacement.isIn]
  rw [keptIn, kept, hin]

/-- The walk over the whole text, in the terms of the main statement. -/
theorem walkOf_whole (d : Draft) :
    d.walkOf ⟨0, d.source.utf8ByteSize⟩ .closed = d.wholeWalk := by
  simp [walkOf, wholeWalk, keptIn_whole, Extent.admits]

/-- The bytes of the source that a walk emits: every one that no replacement covers, once and in
order. -/
theorem filterMap_sourceOffset?_walk (size : Nat) (is : List Insertion) (rs : List Replacement) :
    (walk ⟨0, size⟩ is rs).filterMap Emission.sourceOffset? =
      (List.range size).filter fun p => !rs.any (·.span.covers p) := by
  have hat : ∀ p, (emissionsAt size is rs p).filterMap Emission.sourceOffset? =
      if decide (p < size) && !rs.any (·.span.covers p) then [p] else [] := by
    intro p
    rw [emissionsAt, List.filterMap_append, List.filterMap_append]
    have hins : ∀ js : List Insertion,
        (js.map Emission.inserted).filterMap Emission.sourceOffset? = [] := by
      intro js
      simp [List.filterMap_map, Function.comp_def, Emission.sourceOffset?]
    have hrep : ∀ qs : List Replacement,
        (qs.map Emission.replaced).filterMap Emission.sourceOffset? = [] := by
      intro qs
      simp [List.filterMap_map, Function.comp_def, Emission.sourceOffset?]
    rw [hrep]
    split <;> split <;> simp [hins, Emission.sourceOffset?]
  have hfilter : ∀ (c : Nat → Bool) (ps : List Nat),
      ps.flatMap (fun p => if c p then [p] else []) = ps.filter c := by
    intro c ps
    induction ps with
    | nil => rfl
    | cons p ps ih =>
      rw [List.flatMap_cons, ih, List.filter_cons]
      split <;> rfl
  rw [walk, List.filterMap_flatMap]
  simp only [hat]
  rw [hfilter, Nat.sub_zero, ← List.range_eq_range', List.range_succ, List.filter_append]
  simp only [List.filter_cons, Nat.lt_irrefl, decide_false, Bool.false_and, Bool.false_eq_true,
    if_false, List.filter_nil, List.append_nil]
  apply List.filter_congr
  intro p hp
  simp [List.mem_range.mp hp]

/-- What is inserted was recorded, and no replacement encloses it. -/
theorem mem_walk_inserted {range : Span} {is : List Insertion} {rs : List Replacement}
    {i : Insertion} (h : .inserted i ∈ walk range is rs) :
    i ∈ is ∧ rs.any (·.span.encloses i.offset) = false := by
  simp only [walk, List.mem_flatMap, emissionsAt, List.mem_append] at h
  obtain ⟨p, -, (h | h) | h⟩ := h
  · split at h
    · simp at h
    · next hencl =>
      simp only [List.mem_map, List.mem_filter, beq_iff_eq, Emission.inserted.injEq,
        exists_eq_right] at h
      obtain ⟨hmem, rfl⟩ := h
      exact ⟨hmem, by simpa using hencl⟩
  · simp at h
  · split at h <;> simp at h

/-- What is replaced is one of the replacements that are made. -/
theorem mem_walk_replaced {range : Span} {is : List Insertion} {rs : List Replacement}
    {r : Replacement} (h : .replaced r ∈ walk range is rs) : r ∈ rs := by
  simp only [walk, List.mem_flatMap, emissionsAt, List.mem_append] at h
  obtain ⟨p, -, (h | h) | h⟩ := h
  · split at h <;> simp at h
  · simp only [List.mem_map, List.mem_filter, Emission.replaced.injEq, exists_eq_right] at h
    exact h.1
  · split at h <;> simp at h

/-- **Rendering is the walk.** A draft whose edits fall between characters is rendered, and to the
bytes that the walk over all of its offsets emits. Hence every byte of the source that no
replacement covers stands in it once and in order, the replacements that are made do not overlap,
and an edit inside of one of them leaves no trace. -/
theorem render?_eq_walk (d : Draft) (h : d.IsAligned) :
    ∃ s, d.render? = some s ∧
      s.toByteArray = (d.wholeWalk.flatMap
        (Emission.bytes d.source.toByteArray.data.toList)).toByteArray ∧
      d.wholeWalk.filterMap Emission.sourceOffset? =
        (List.range d.source.utf8ByteSize).filter (fun p => !d.kept.any (·.span.covers p)) ∧
      d.kept.Pairwise (fun a b => a.span.stop ≤ b.span.start) ∧
      (∀ r, .replaced r ∈ d.wholeWalk → r ∈ d.kept) ∧
      (∀ i, .inserted i ∈ d.wholeWalk → d.kept.any (·.span.encloses i.offset) = false) := by
  have hrep : ∀ r ∈ d.replacementsIn ⟨0, d.source.utf8ByteSize⟩,
      r.span.start ≤ r.span.stop ∧ Text.IsBoundary d.source.toList r.span.start ∧
        Text.IsBoundary d.source.toList r.span.stop := by
    intro r hr
    obtain ⟨hmem, hin⟩ := mem_replacementsIn.mp hr
    simp only [Replacement.isIn, Bool.and_eq_true, decide_eq_true_eq] at hin
    exact ⟨h.ordered r hmem, h.replacement r hmem hin.2⟩
  have hins : ∀ i ∈ d.insertionsIn ⟨0, d.source.utf8ByteSize⟩ .closed,
      Text.IsBoundary d.source.toList i.offset := by
    intro i hi
    obtain ⟨hmem, hadmits⟩ := mem_insertionsIn.mp hi
    simp only [Extent.admits, Bool.and_eq_true, decide_eq_true_eq] at hadmits
    exact h.insertion i hmem hadmits.2
  obtain ⟨s, hs, hbytes⟩ := renderRange?_eq_walk (Nat.zero_le _) (Text.isBoundary_zero _)
    (by rw [Text.utf8ByteSize_eq]; exact Text.isBoundary_byteSize _) hins hrep
  refine ⟨s, hs, ?_, filterMap_sourceOffset?_walk _ _ _, ?_, fun r => mem_walk_replaced,
    fun i hi => (mem_walk_inserted hi).2⟩
  · rw [Text.toByteArray_eq s, hbytes, walkOf_whole, Text.toByteArray_eq d.source,
      List.data_toByteArray, List.toList_toArray]
  · rw [← keptIn_whole, keptIn_eq_made (fun r hr => (hrep r hr).1)]
    exact pairwise_made (fun r hr => (hrep r hr).1) _

/-- Nested, overlapping and empty stretches, insertions inside of one and at its end, and edits past
the end of the text. -/
def nestedEdits : Draft where
  source := "aéb\n"
  edits := [.insert 3 "y", .replace ⟨1, 3⟩ "E", .replace ⟨0, 4⟩ "Z", .insert 4 "w",
    .replace ⟨4, 4⟩ "q", .insert 9 "v", .replace ⟨3, 20⟩ "u"]

/-- The draft is rendered, and to the bytes of its walk. -/
theorem render?_eq_walk_nestedEdits : nestedEdits.IsAligned ∧
    ∃ s, nestedEdits.render? = some s ∧
      s.toByteArray = (nestedEdits.wholeWalk.flatMap
        (Emission.bytes nestedEdits.source.toByteArray.data.toList)).toByteArray := by
  have haligned : nestedEdits.IsAligned := by constructor <;> decide
  obtain ⟨s, hs, hbytes, -⟩ := render?_eq_walk nestedEdits haligned
  exact ⟨haligned, s, hs, hbytes⟩

end VueSetup.Draft
