import Mathlib.Data.List.Basic
import VueSetup.Proofs.Draft.Order

/-!
# VueSetup.Proofs.Draft.Reordering

Edits may be recorded in any order, as long as those that share a **place** stay in theirs:
insertions at one offset, and replacements of one stretch (`render?_of_reordered`).

Nothing is asked of the edits. They may lie past the end of the text or inside of a character, and a
stretch may be out of order; a draft that cannot be rendered stays one.

Both sorts of a draft are stable, so the argument is one about stable sorts: sorted lists of the
same elements differ only in the order of elements that tie (`eq_of_perm_of_ties`), and that order
is the order of recording.
-/

namespace VueSetup

/-! ### Places

Edits that share a place are those that a sort does not tell apart: it goes by the offset of an
insertion, and by both ends of a replacement. -/

namespace Edit

/-- What decides when an edit is made, the order of recording aside. -/
inductive Place where
  | offset (n : Nat)
  | stretch (span : Span)
  deriving DecidableEq

/-- Where an edit is made. -/
def place : Edit → Place
  | .insert offset _ => .offset offset
  | .replace span _ => .stretch span

/-- The same edits in another order, in which edits at one place come in the order that they had. -/
structure Reordered (es fs : List Edit) : Prop where
  perm : es.Perm fs
  same_order : ∀ e ∈ es, es.filter (·.place = e.place) = fs.filter (·.place = e.place)

instance (es fs : List Edit) : Decidable (Reordered es fs) :=
  decidable_of_iff (es.Perm fs ∧
      ∀ e ∈ es, es.filter (·.place = e.place) = fs.filter (·.place = e.place))
    ⟨fun ⟨hperm, horder⟩ => ⟨hperm, horder⟩, fun h => ⟨h.perm, h.same_order⟩⟩

end Edit

namespace Draft

/-! ### Stable sorts

Everything about sorting is proved here for any order that is total and transitive, in the form in
which the drafts use it. -/

/-- Neither element comes before the other. -/
def ties {α : Type} (le : α → α → Bool) (a b : α) : Bool :=
  le a b && le b a

section

variable {α : Type} {le : α → α → Bool} (total : ∀ a b, le a b || le b a)

include total

/-- An order of any two elements is one of an element and itself. -/
theorem le_self (a : α) : le a a = true := by
  simpa using total a a

/-- Sorted lists of the same elements are equal when elements that tie come in the same order. -/
theorem eq_of_perm_of_ties {xs ys : List α} (hperm : xs.Perm ys)
    (hxs : xs.Pairwise fun a b => le a b = true) (hys : ys.Pairwise fun a b => le a b = true)
    (hties : ∀ a ∈ xs, xs.filter (ties le a) = ys.filter (ties le a)) : xs = ys := by
  induction xs generalizing ys with
  | nil => exact hperm.nil_eq
  | cons x xs ih =>
    cases ys with
    | nil => exact absurd hperm.length_eq (by simp)
    | cons y ys =>
      obtain ⟨hx, hxs'⟩ := List.pairwise_cons.mp hxs
      obtain ⟨hy, hys'⟩ := List.pairwise_cons.mp hys
      -- each head stands somewhere in the other list, so neither comes before the other
      have hyx : le y x = true := by
        rcases List.mem_cons.mp (hperm.mem_iff.mp List.mem_cons_self) with heq | hmem
        · exact heq ▸ le_self total x
        · exact hy x hmem
      have hxy : le x y = true := by
        rcases List.mem_cons.mp (hperm.mem_iff.mpr List.mem_cons_self) with heq | hmem
        · exact heq ▸ le_self total y
        · exact hx y hmem
      have hheads := hties x List.mem_cons_self
      rw [List.filter_cons_of_pos (by simp [ties, le_self total]),
        List.filter_cons_of_pos (by simp [ties, hxy, hyx]), List.cons.injEq] at hheads
      obtain rfl := hheads.1
      have htails : xs = ys := by
        refine ih ((List.perm_cons x).mp hperm) hxs' hys' fun a ha => ?_
        have htail := hties a (List.mem_cons_of_mem x ha)
        rw [List.filter_cons, List.filter_cons] at htail
        split at htail
        · exact (List.cons.inj htail).2
        · exact htail
      rw [htails]

variable (trans : ∀ a b c, le a b → le b c → le a c)

include trans

/-- Sorting does not move elements that tie past each other. -/
theorem filter_ties_mergeSort (a : α) (xs : List α) :
    (xs.mergeSort le).filter (ties le a) = xs.filter (ties le a) := by
  refine filter_mergeSort_of_ties trans total (fun b c hb hc => ?_) xs
  simp only [ties, Bool.and_eq_true] at hb hc
  exact trans b a c hb.2 hc.1

/-- What a stable sort gives depends on the order of elements that tie and on no other. -/
theorem mergeSort_congr {xs ys : List α} (hperm : xs.Perm ys)
    (hties : ∀ a ∈ xs, xs.filter (ties le a) = ys.filter (ties le a)) :
    xs.mergeSort le = ys.mergeSort le := by
  refine eq_of_perm_of_ties total ?_ (List.pairwise_mergeSort trans total xs)
    (List.pairwise_mergeSort trans total ys) fun a ha => ?_
  · exact (List.mergeSort_perm xs le).trans (hperm.trans (List.mergeSort_perm ys le).symm)
  · rw [filter_ties_mergeSort total trans, filter_ties_mergeSort total trans]
    exact hties a (List.mem_mergeSort.mp ha)

/-- A stable sort and a selection can be made in either order. -/
theorem filter_mergeSort (p : α → Bool) (xs : List α) :
    (xs.mergeSort le).filter p = (xs.filter p).mergeSort le := by
  refine eq_of_perm_of_ties total ?_ ((List.pairwise_mergeSort trans total xs).filter p)
    (List.pairwise_mergeSort trans total _) fun a _ => ?_
  · exact ((List.mergeSort_perm xs le).filter p).trans (List.mergeSort_perm _ le).symm
  · rw [List.filter_comm, filter_ties_mergeSort total trans, filter_ties_mergeSort total trans,
      List.filter_comm]

/-- Edits of one kind are sorted alike when the ones that tie are those that share a place. -/
theorem mergeSort_filterMap_congr {part? : Edit → Option α}
    (hplace : ∀ e a, part? e = some a → ∀ f, (part? f).any (ties le a) = decide (f.place = e.place))
    {es fs : List Edit} (h : Edit.Reordered es fs) (p : α → Bool) :
    ((es.filterMap part?).filter p).mergeSort le =
      ((fs.filterMap part?).filter p).mergeSort le := by
  refine mergeSort_congr total trans ((h.perm.filterMap part?).filter p) fun a ha => ?_
  obtain ⟨e, he, hea⟩ := List.mem_filterMap.mp (List.mem_filter.mp ha).1
  have hclass : ∀ gs : List Edit, (gs.filterMap part?).filter (ties le a) =
      (gs.filter (·.place = e.place)).filterMap part? := by
    intro gs
    rw [List.filter_filterMap, List.filterMap_filter]
    refine List.filterMap_congr fun f _ => ?_
    rw [← hplace e a hea f]
    cases part? f <;> simp [Option.filter]
  rw [List.filter_comm, hclass, h.same_order e he, ← hclass, List.filter_comm]

end

/-! ### Drafts

A draft sorts its insertions and its replacements on their own, so that the argument is made twice,
and everything behind the sorts is the same for both. -/

variable {source : String} {es fs : List Edit}

/-- Insertions that tie are at one offset. -/
theorem insertionsIn_congr (h : Edit.Reordered es fs) (range : Span) (extent : Extent) :
    insertionsIn ⟨source, es⟩ range extent = insertionsIn ⟨source, fs⟩ range extent := by
  rw [insertionsIn_eq, insertionsIn_eq]
  refine mergeSort_filterMap_congr Insertion.le_total Insertion.le_trans ?_ h _
  intro e i he f
  cases e with
  | replace span text => cases he
  | insert offset text =>
    cases he
    cases f with
    | replace span text => rfl
    | insert offset' text' =>
      rw [Bool.eq_iff_iff]
      simp only [Edit.insertion?, Option.any_some, ties, Insertion.le, Edit.place,
        Edit.Place.offset.injEq, Bool.and_eq_true, decide_eq_true_eq]
      omega

/-- Replacements that tie have one stretch. -/
theorem replacementsIn_congr (h : Edit.Reordered es fs) (range : Span) :
    replacementsIn ⟨source, es⟩ range = replacementsIn ⟨source, fs⟩ range := by
  rw [replacementsIn_eq, replacementsIn_eq]
  refine mergeSort_filterMap_congr Replacement.le_total Replacement.le_trans ?_ h _
  intro e r he f
  cases e with
  | insert offset text => cases he
  | replace span text =>
    cases he
    cases f with
    | insert offset text => rfl
    | replace span' text' =>
      obtain ⟨a, b⟩ := span
      obtain ⟨a', b'⟩ := span'
      rw [Bool.eq_iff_iff]
      simp only [Edit.replacement?, Option.any_some, ties, Replacement.le, Edit.place,
        Edit.Place.stretch.injEq, Span.mk.injEq, Bool.and_eq_true, Bool.or_eq_true,
        decide_eq_true_eq, beq_iff_eq]
      omega

/-- **The order of recording matters at one place only.** Two drafts of a text with the same edits,
of which those at one offset and those of one stretch come in the same order, are rendered to the
same text or cannot be rendered, and so are all of their slices. -/
theorem render?_of_reordered (h : Edit.Reordered es fs) :
    render? ⟨source, es⟩ = render? ⟨source, fs⟩ ∧
      ∀ span, slice? ⟨source, es⟩ span = slice? ⟨source, fs⟩ span := by
  have hrange : ∀ range extent,
      renderRange? ⟨source, es⟩ range extent = renderRange? ⟨source, fs⟩ range extent := by
    intro range extent
    rw [renderRange?, renderRange?, insertionsIn_congr h, replacementsIn_congr h]
  exact ⟨hrange _ _, fun span => hrange span .interior⟩

/-- Two insertions at one offset and two replacements of one stretch, with a stretch that is out of
order and an insertion past the end between them. -/
def scatteredEdits : List Edit :=
  [.insert 3 "y", .replace ⟨1, 3⟩ "E", .insert 3 "z", .replace ⟨4, 3⟩ "r", .replace ⟨1, 3⟩ "F",
    .insert 9 "v"]

/-- The same edits, place by place. -/
def gatheredEdits : List Edit :=
  [.replace ⟨1, 3⟩ "E", .replace ⟨1, 3⟩ "F", .insert 3 "y", .insert 3 "z", .replace ⟨4, 3⟩ "r",
    .insert 9 "v"]

/-- The two lists are rendered alike. -/
theorem render?_of_reordered_scatteredEdits :
    Edit.Reordered scatteredEdits gatheredEdits ∧
      render? ⟨"aéb\n", scatteredEdits⟩ = some "aEyzbrb\n" := by
  have hreordered : Edit.Reordered scatteredEdits gatheredEdits := by decide
  refine ⟨hreordered, (@render?_of_reordered "aéb\n" _ _ hreordered).1.trans ?_⟩
  rw [render?, renderRange?, insertionsIn_eq, replacementsIn_eq,
    List.mergeSort_of_pairwise (by decide), List.mergeSort_of_pairwise (by decide)]
  decide +kernel

end Draft

end VueSetup
