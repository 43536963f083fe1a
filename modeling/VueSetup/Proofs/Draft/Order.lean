import VueSetup.Draft

/-!
# VueSetup.Proofs.Draft.Order

In which order a draft makes its edits. Both sorts are stable, so that what decides between edits
that tie is the order of recording: `filter_mergeSort_of_pairwise` says this once, for any sort, in
the form in which it is used, namely that a class of edits that is in order comes out as it went in.
-/

namespace VueSetup

namespace Edit

/-- The insertion that an edit is. -/
def insertion? : Edit → Option Draft.Insertion
  | .insert offset text => some ⟨offset, text⟩
  | .replace _ _ => none

/-- The replacement that an edit is. -/
def replacement? : Edit → Option Draft.Replacement
  | .insert _ _ => none
  | .replace span text => some ⟨span, text⟩

end Edit

namespace Draft

/-- All insertions, in the order of recording. -/
def insertions (d : Draft) : List Insertion :=
  d.edits.filterMap Edit.insertion?

/-- All replacements, in the order of recording. -/
def replacements (d : Draft) : List Replacement :=
  d.edits.filterMap Edit.replacement?

/-- Record several edits, one after the other. -/
def recordAll (d : Draft) (es : List Edit) : Draft :=
  { d with edits := d.edits ++ es }

@[simp] theorem source_recordAll (d : Draft) (es : List Edit) : (d.recordAll es).source =
    d.source :=
  rfl

@[simp] theorem edits_recordAll (d : Draft) (es : List Edit) :
    (d.recordAll es).edits = d.edits ++ es := rfl

@[simp] theorem recordAll_nil (d : Draft) : d.recordAll [] = d := by
  simp [recordAll]

@[simp] theorem recordAll_append (d : Draft) (es fs : List Edit) :
    (d.recordAll es).recordAll fs = d.recordAll (es ++ fs) := by
  simp [recordAll]

/-- Recording one edit is recording a list of one. -/
theorem record_eq (d : Draft) (e : Edit) : d.record e = d.recordAll [e] := rfl

/-- Recording several edits adds their insertions. -/
@[simp] theorem insertions_recordAll (d : Draft) (es : List Edit) :
    (d.recordAll es).insertions = d.insertions ++ es.filterMap Edit.insertion? := by
  simp [insertions]

/-- It adds their replacements. -/
@[simp] theorem replacements_recordAll (d : Draft) (es : List Edit) :
    (d.recordAll es).replacements = d.replacements ++ es.filterMap Edit.replacement? := by
  simp [replacements]

/-! ### Edits of one kind

Most lists of edits are recorded by one pass and have one kind, one offset or one text. -/

/-- Texts at one offset are insertions there. -/
theorem filterMap_insertion?_insert (offset : Nat) (texts : List String) :
    (texts.map (Edit.insert offset)).filterMap Edit.insertion? =
      texts.map (Insertion.mk offset) := by
  simp [List.filterMap_map, Function.comp_def, Edit.insertion?]

/-- The insertions have these texts. -/
theorem map_text_insertion (offset : Nat) (texts : List String) :
    (texts.map (Insertion.mk offset)).map (·.text) = texts := by
  simp [Function.comp_def]

/-- Replacements are no insertions. -/
theorem filterMap_insertion?_replace (spans : List Span) (text : String) :
    (spans.map (Edit.replace · text)).filterMap Edit.insertion? = [] := by
  simp [List.filterMap_map, Function.comp_def, Edit.insertion?]

/-- Insertions are no replacements. -/
theorem filterMap_replacement?_insert (offset : Nat) (texts : List String) :
    (texts.map (Edit.insert offset)).filterMap Edit.replacement? = [] := by
  simp [List.filterMap_map, Function.comp_def, Edit.replacement?]

/-- Stretches that are replaced by one text. -/
theorem filterMap_replacement?_replace (spans : List Span) (text : String) :
    (spans.map (Edit.replace · text)).filterMap Edit.replacement? =
      spans.map (Replacement.mk · text) := by
  simp [List.filterMap_map, Function.comp_def, Edit.replacement?]

/-! ### The sorted lists as selections

What a range looks at is a selection of all edits, sorted. The selection comes first here, so that
facts about sorting are not mixed with it. -/

/-- The replacement lies in the range. -/
def Replacement.isIn (range : Span) (r : Replacement) : Bool :=
  range.start ≤ r.span.start && r.span.stop ≤ range.stop

/-- The insertions of a range, selected and then sorted. -/
theorem insertionsIn_eq (d : Draft) (range : Span) (extent : Extent) :
    d.insertionsIn range extent =
      (d.insertions.filter fun i => extent.admits range i.offset).mergeSort Insertion.le := by
  rw [insertionsIn, insertions]
  congr 1
  induction d.edits with
  | nil => rfl
  | cons e es ih =>
    cases e with
    | insert offset text =>
      simp only [List.filterMap_cons, Edit.insertion?, List.filter_cons]
      split <;> simp_all
    | replace span text => simpa only [List.filterMap_cons, Edit.insertion?] using ih

/-- The replacements of a range, selected and then sorted. -/
theorem replacementsIn_eq (d : Draft) (range : Span) :
    d.replacementsIn range =
      (d.replacements.filter (Replacement.isIn range)).mergeSort Replacement.le := by
  rw [replacementsIn, replacements]
  congr 1
  induction d.edits with
  | nil => rfl
  | cons e es ih =>
    cases e with
    | insert offset text => simpa only [List.filterMap_cons, Edit.replacement?] using ih
    | replace span text =>
      simp only [List.filterMap_cons, Edit.replacement?, List.filter_cons, Replacement.isIn]
      split <;> simp_all

/-- Sorting adds nothing and leaves nothing out. -/
theorem mem_insertionsIn {d : Draft} {range : Span} {extent : Extent} {i : Insertion} :
    i ∈ d.insertionsIn range extent ↔ i ∈ d.insertions ∧ extent.admits range i.offset = true := by
  rw [insertionsIn_eq, List.mem_mergeSort, List.mem_filter]

/-- The same of replacements. -/
theorem mem_replacementsIn {d : Draft} {range : Span} {r : Replacement} :
    r ∈ d.replacementsIn range ↔ r ∈ d.replacements ∧ r.isIn range = true := by
  rw [replacementsIn_eq, List.mem_mergeSort, List.mem_filter]

/-! ### Stability

The orders compare offsets and lengths only, and leave edits with the same ones to the sort. That
the sort is stable is then all that decides between them. -/

/-- A stable sort keeps the order of elements that come in order already. -/
theorem filter_mergeSort_of_pairwise {α : Type} {le : α → α → Bool}
    (trans : ∀ a b c, le a b → le b c → le a c) (total : ∀ a b, le a b || le b a)
    {p : α → Bool} {xs : List α} (hpair : (xs.filter p).Pairwise fun a b => le a b = true) :
    (xs.mergeSort le).filter p = xs.filter p := by
  have hsub : (xs.filter p).Sublist (xs.mergeSort le) :=
    List.sublist_mergeSort trans total hpair List.filter_sublist
  have hsub' : (xs.filter p).Sublist ((xs.mergeSort le).filter p) := by
    simpa using hsub.filter p
  have hlen : ((xs.mergeSort le).filter p).length = (xs.filter p).length :=
    ((List.mergeSort_perm xs le).filter p).length_eq
  exact (hsub'.eq_of_length hlen.symm).symm

/-- In particular it keeps the order inside of a class of elements that tie with each other. -/
theorem filter_mergeSort_of_ties {α : Type} {le : α → α → Bool}
    (trans : ∀ a b c, le a b → le b c → le a c) (total : ∀ a b, le a b || le b a)
    {p : α → Bool} (ties : ∀ a b, p a → p b → le a b) (xs : List α) :
    (xs.mergeSort le).filter p = xs.filter p := by
  apply filter_mergeSort_of_pairwise trans total
  rw [List.pairwise_filter]
  exact List.pairwise_of_forall fun a b ha hb => ties a b ha hb

/-- Offsets are in order. -/
theorem Insertion.le_trans (a b c : Insertion) : a.le b → b.le c → a.le c := by
  simp only [Insertion.le, decide_eq_true_eq]
  omega

/-- Any two insertions can be compared. -/
theorem Insertion.le_total (a b : Insertion) : a.le b || b.le a := by
  simp only [Insertion.le, Bool.or_eq_true, decide_eq_true_eq]
  omega

/-- Starts, and then lengths, are in order. -/
theorem Replacement.le_trans (a b c : Replacement) : a.le b → b.le c → a.le c := by
  simp only [Replacement.le, Bool.or_eq_true, Bool.and_eq_true, decide_eq_true_eq, beq_iff_eq]
  omega

/-- Any two replacements can be compared. -/
theorem Replacement.le_total (a b : Replacement) : a.le b || b.le a := by
  simp only [Replacement.le, Bool.or_eq_true, Bool.and_eq_true, decide_eq_true_eq, beq_iff_eq]
  omega

/-- Insertions come by offset. -/
theorem pairwise_insertionsIn (d : Draft) (range : Span) (extent : Extent) :
    (d.insertionsIn range extent).Pairwise fun a b => a.offset ≤ b.offset := by
  rw [insertionsIn_eq]
  refine (List.pairwise_mergeSort Insertion.le_trans Insertion.le_total _).imp ?_
  intro a b hab
  simpa [Insertion.le] using hab

/-- The start counts first. -/
theorem Replacement.start_le_of_le {a b : Replacement} (h : a.le b = true) :
    a.span.start ≤ b.span.start := by
  simp only [Replacement.le, Bool.or_eq_true, Bool.and_eq_true, decide_eq_true_eq, beq_iff_eq] at h
  omega

/-- Replacements come by start. -/
theorem pairwise_replacementsIn (d : Draft) (range : Span) :
    (d.replacementsIn range).Pairwise fun a b => a.span.start ≤ b.span.start := by
  rw [replacementsIn_eq]
  refine (List.pairwise_mergeSort Replacement.le_trans Replacement.le_total _).imp ?_
  intro a b hab
  exact Replacement.start_le_of_le hab

/-- A class of insertions that come in order keeps the order of recording. -/
theorem filter_insertionsIn_of_pairwise (d : Draft) (range : Span) (extent : Extent)
    {p : Insertion → Bool} (h : ((d.insertions.filter fun i => extent.admits range i.offset).filter
      p).Pairwise fun a b => a.offset ≤ b.offset) :
    (d.insertionsIn range extent).filter p =
      (d.insertions.filter fun i => extent.admits range i.offset).filter p := by
  rw [insertionsIn_eq]
  apply filter_mergeSort_of_pairwise Insertion.le_trans Insertion.le_total
  exact h.imp fun hab => by simpa [Insertion.le] using hab

/-- Insertions at one offset keep the order of recording. -/
theorem filter_offset_insertionsIn (d : Draft) (range : Span) (extent : Extent) (p : Nat) :
    (d.insertionsIn range extent).filter (·.offset == p) =
      (d.insertions.filter fun i => extent.admits range i.offset).filter (·.offset == p) := by
  rw [insertionsIn_eq]
  apply filter_mergeSort_of_ties Insertion.le_trans Insertion.le_total
  intro a b ha hb
  simp only [beq_iff_eq] at ha hb
  simp [Insertion.le, ha, hb]

end Draft

end VueSetup
