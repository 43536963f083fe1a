import Mathlib.Data.List.Sort
import VueSetup.Proofs.Draft.Cut
import VueSetup.Proofs.Draft.Slice

/-!
# VueSetup.Proofs.Draft.Apart

Replacements of which any two are the same one or lie apart.

They take effect once each, however often they were recorded and in whatever order: the cursor
passes over what it has made already. What is rendered thus depends on the replacements as a set
(`slice?_congr_of_apart`, `mem_keptIn`), and on the insertions through the texts that stand at each
offset (`flatMap_walk_congr`). A slice can be cut in two wherever no replacement is
(`exists_slice?_append`).
-/

namespace VueSetup.Draft

/-- No replacement is of nothing, and any two of them are the same one or lie apart. -/
structure Apart (rs : List Replacement) : Prop where
  start_lt_stop : ∀ r ∈ rs, r.span.start < r.span.stop
  same_or_apart : ∀ a ∈ rs, ∀ b ∈ rs,
    a = b ∨ a.span.stop ≤ b.span.start ∨ b.span.stop ≤ a.span.start

namespace Apart

variable {rs qs : List Replacement} {d : Draft}

/-- A stretch that is not empty is in order. -/
theorem start_le_stop (h : Apart rs) : ∀ r ∈ rs, r.span.start ≤ r.span.stop :=
  fun r hr => Nat.le_of_lt (h.start_lt_stop r hr)

/-- Fewer replacements are apart as well. -/
theorem of_subset (h : Apart rs) (hsub : ∀ q ∈ qs, q ∈ rs) : Apart qs where
  start_lt_stop := fun q hq => h.start_lt_stop q (hsub q hq)
  same_or_apart := fun a ha b hb => h.same_or_apart a (hsub a ha) b (hsub b hb)

/-- So are those of a range. -/
theorem inRange (h : Apart d.replacements) (range : Span) : Apart (d.replacementsIn range) :=
  h.of_subset fun _ hr => (mem_replacementsIn.mp hr).1

end Apart

/-! ### What the cursor makes

The cursor passes over a replacement that starts before it. Of those that lie apart that happens
only to one that was made before, so that repeating one changes nothing. -/

/-- Of replacements that lie apart the cursor makes all that it has not passed. -/
theorem mem_made {rs : List Replacement} (h : Apart rs)
    (hs : rs.Pairwise fun a b => a.span.start ≤ b.span.start) {pos : Nat} {r : Replacement} :
    r ∈ made pos rs ↔ r ∈ rs ∧ pos ≤ r.span.start := by
  constructor
  · intro hr
    have hmem := le_start_of_mem_made h.start_le_stop hr
    exact ⟨hmem.2, hmem.1⟩
  · rintro ⟨hr, hpos⟩
    induction rs generalizing pos with
    | nil => cases hr
    | cons q qs ih =>
      obtain ⟨hfirst, hqs⟩ := List.pairwise_cons.mp hs
      have htail : Apart qs := h.of_subset fun p hp => List.mem_cons_of_mem _ hp
      rw [made]
      by_cases hq : q.span.start < pos
      · rw [if_pos hq]
        rcases List.mem_cons.mp hr with rfl | hr
        · omega
        · exact ih htail hqs hr hpos
      · rw [if_neg hq]
        by_cases heq : r = q
        · exact heq ▸ List.mem_cons_self
        · -- what comes later and is another one starts behind the end of this one
          have hmem := (List.mem_cons.mp hr).resolve_left heq
          have hle := hfirst r hmem
          have hlt := h.start_lt_stop r hr
          have hbehind : q.span.stop ≤ r.span.start := by
            rcases h.same_or_apart r hr q List.mem_cons_self with hsame | happart
            · exact absurd hsame heq
            · omega
          exact List.mem_cons_of_mem _ (ih htail hqs hmem hbehind)

/-- Replacements that start one behind the other are known by their members. -/
theorem eq_of_mem_iff {rs qs : List Replacement}
    (hrs : rs.Pairwise fun a b => a.span.start < b.span.start)
    (hqs : qs.Pairwise fun a b => a.span.start < b.span.start) (hmem : ∀ r, r ∈ rs ↔ r ∈ qs) :
    rs = qs := by
  have hirrefl : Std.Irrefl fun a b : Replacement => a.span.start < b.span.start :=
    ⟨fun a => Nat.lt_irrefl _⟩
  have hantisymm : Std.Antisymm fun a b : Replacement => a.span.start < b.span.start :=
    ⟨fun a b hab hba => absurd hab (Nat.lt_asymm hba)⟩
  exact List.Pairwise.eq_of_mem_iff hrs hqs hmem

/-- What is made of replacements that lie apart starts one behind the other. -/
theorem pairwise_start_made {rs : List Replacement} (h : Apart rs) (pos : Nat) :
    (made pos rs).Pairwise fun a b => a.span.start < b.span.start := by
  refine (pairwise_made h.start_le_stop pos).imp_of_mem fun ha _ hab => ?_
  exact Nat.lt_of_lt_of_le (h.start_lt_stop _ (le_start_of_mem_made h.start_le_stop ha).2) hab

/-- The cursor makes the same of two lists with the same members. -/
theorem made_congr {rs qs : List Replacement} (h : Apart rs)
    (hrs : rs.Pairwise fun a b => a.span.start ≤ b.span.start)
    (hqs : qs.Pairwise fun a b => a.span.start ≤ b.span.start) (hmem : ∀ r, r ∈ rs ↔ r ∈ qs)
    (pos : Nat) : made pos rs = made pos qs := by
  have h' : Apart qs := h.of_subset fun q hq => (hmem q).mpr hq
  refine eq_of_mem_iff (pairwise_start_made h pos) (pairwise_start_made h' pos) fun r => ?_
  rw [mem_made h hrs, mem_made h' hqs, hmem]

/-- What the cursor passes over has no part in a layout. -/
theorem layout_made (stop : Nat) (rs : List Replacement) (pos : Nat) (is : List Insertion) :
    layout stop pos is (made pos rs) = layout stop pos is rs := by
  induction rs generalizing pos is with
  | nil => rfl
  | cons r rs ih =>
    rw [made]
    by_cases hstart : r.span.start < pos
    · rw [if_pos hstart, ih, layout, if_pos hstart]
    · rw [if_neg hstart, layout, if_neg hstart, layout, if_neg hstart]
      dsimp only
      rw [ih]

/-! ### What is rendered

In a range only the replacements that lie in it are looked at, and those lie apart if all do. -/

/-- A slice depends on the replacements that lie in it as a set. -/
theorem slice?_congr_of_apart {d d' : Draft} {span : Span} (hsource : d.source = d'.source)
    (hins : d.insertionsIn span .interior = d'.insertionsIn span .interior)
    (h : Apart d.replacements) (hmem : ∀ r, r ∈ d.replacementsIn span ↔
      r ∈ d'.replacementsIn span) :
    d.slice? span = d'.slice? span := by
  have hmade := made_congr (h.inRange span) (pairwise_replacementsIn d span)
    (pairwise_replacementsIn d' span) hmem span.start
  have hlayout : layout span.stop span.start (d.insertionsIn span .interior)
      (d.replacementsIn span) =
      layout span.stop span.start (d'.insertionsIn span .interior) (d'.replacementsIn span) := by
    rw [← layout_made, hmade, hins, layout_made]
  rw [slice?, slice?, renderRange?, renderRange?, hlayout, hsource]

section

variable {d : Draft} {range : Span} (h : Apart d.replacements)

include h

/-- What the rules keep in a range, as the cursor makes it. -/
theorem keptIn_eq_made_of_apart : d.keptIn range = made range.start (d.replacementsIn range) :=
  keptIn_eq_made (h.inRange range).start_le_stop

/-- Replacements that lie apart are all made. -/
theorem mem_keptIn {r : Replacement} : r ∈ d.keptIn range ↔
    r ∈ d.replacements ∧ range.start ≤ r.span.start ∧ r.span.stop ≤ range.stop := by
  rw [keptIn_eq_made_of_apart h, mem_made (h.inRange range) (pairwise_replacementsIn d range),
    mem_replacementsIn, Replacement.isIn, Bool.and_eq_true, decide_eq_true_eq, decide_eq_true_eq]
  exact ⟨And.left, fun hr => ⟨hr, hr.2.1⟩⟩

/-- What is made does not overlap. -/
theorem pairwise_keptIn : (d.keptIn range).Pairwise fun a b => a.span.stop ≤ b.span.start := by
  rw [keptIn_eq_made_of_apart h]
  exact pairwise_made (h.inRange range).start_le_stop range.start

end

/-! ### Slices as texts

Where a slice exists its text is written down here, stretch by stretch. That is used where texts are
compared and not bytes. -/

/-- A stretch with replacements made in it. -/
def replaced (cs : List Char) (pos stop : Nat) : List Replacement → List Char
  | [] => Text.between cs pos stop
  | r :: rs =>
    Text.between cs pos r.span.start ++ r.text.toList ++ replaced cs r.span.stop stop rs

/-- Replacements come one after the other in a stretch and fall between characters. -/
structure InTurn (cs : List Char) (pos stop : Nat) (rs : List Replacement) : Prop where
  start_isBoundary : Text.IsBoundary cs pos
  stop_isBoundary : Text.IsBoundary cs stop
  le : pos ≤ stop
  ordered : rs.Pairwise fun a b => a.span.stop ≤ b.span.start
  fits : ∀ r ∈ rs, pos ≤ r.span.start ∧ r.span.start ≤ r.span.stop ∧ r.span.stop ≤ stop ∧
    Text.IsBoundary cs r.span.start ∧ Text.IsBoundary cs r.span.stop

section

variable {cs : List Char} {pos mid stop : Nat} {r : Replacement} {rs qs : List Replacement}

/-- Behind the first replacement the others come in turn. -/
theorem InTurn.tail (h : InTurn cs pos stop (r :: rs)) : InTurn cs r.span.stop stop rs := by
  obtain ⟨-, -, hstop, -, hboundary⟩ := h.fits r List.mem_cons_self
  obtain ⟨hfirst, hordered⟩ := List.pairwise_cons.mp h.ordered
  refine ⟨hboundary, h.stop_isBoundary, hstop, hordered, fun q hq => ?_⟩
  exact ⟨hfirst q hq, (h.fits q (List.mem_cons_of_mem _ hq)).2⟩

/-- A layout of replacements in turn can be cut out of the text. -/
theorem assemble?_layout (h : InTurn cs pos stop rs) :
    assemble? cs (layout stop pos [] rs) = some (replaced cs pos stop rs) := by
  induction rs generalizing pos with
  | nil =>
    have hkept := assemble?_kept h.start_isBoundary h.stop_isBoundary h.le []
    simpa [layout, layInsertions, endOfInsertions, assemble?, replaced] using hkept
  | cons r rs ih =>
    obtain ⟨hpos, -, -, hstart, -⟩ := h.fits r List.mem_cons_self
    have hkept := assemble?_kept h.start_isBoundary hstart hpos
      (.written r.text :: layout stop r.span.stop [] rs)
    rw [assemble?_written, ih h.tail] at hkept
    simpa [layout, Nat.not_lt.mpr hpos, layInsertions, endOfInsertions, replaced] using hkept

/-- A stretch with replacements can be cut in two between them. -/
theorem replaced_append (hrs : InTurn cs pos mid rs) (hqs : InTurn cs mid stop qs) :
    replaced cs pos stop (rs ++ qs) = replaced cs pos mid rs ++ replaced cs mid stop qs := by
  induction rs generalizing pos with
  | nil =>
    cases qs with
    | nil =>
      exact Text.between_append hrs.start_isBoundary hrs.stop_isBoundary hqs.stop_isBoundary hrs.le
        hqs.le
    | cons q qs =>
      obtain ⟨hmid, -, -, hstart, -⟩ := hqs.fits q List.mem_cons_self
      simp only [List.nil_append, replaced, Text.between_append hrs.start_isBoundary
        hrs.stop_isBoundary hstart hrs.le hmid, List.append_assoc]
  | cons r rs ih =>
    simp only [List.cons_append, replaced, ih hrs.tail, List.append_assoc]

/-- Replacements that leave as many line feeds as they take keep the lines of a text. -/
theorem feeds_replaced (h : InTurn cs pos stop rs) (hfeeds : ∀ r ∈ rs,
    Text.feeds r.text.toList = Text.feeds (Text.between cs r.span.start r.span.stop)) :
    Text.feeds (replaced cs pos stop rs) = Text.feeds (Text.between cs pos stop) := by
  induction rs generalizing pos with
  | nil => rfl
  | cons r rs ih =>
    obtain ⟨hpos, hle, hstop, hstart, hend⟩ := h.fits r List.mem_cons_self
    rw [replaced, Text.feeds_append, Text.feeds_append, hfeeds r List.mem_cons_self,
      ih h.tail fun q hq => hfeeds q (List.mem_cons_of_mem _ hq),
      Text.between_append h.start_isBoundary hstart h.stop_isBoundary hpos (Nat.le_trans hle hstop),
      Text.between_append hstart hend h.stop_isBoundary hle hstop, Text.feeds_append,
      Text.feeds_append, Nat.add_assoc]

end

/-- What can be said of a draft in a stretch in which only replacements lie: they lie apart, and all
offsets fall between characters. -/
structure Settled (d : Draft) (span : Span) : Prop where
  start_isBoundary : Text.IsBoundary d.source.toList span.start
  stop_isBoundary : Text.IsBoundary d.source.toList span.stop
  le : span.start ≤ span.stop
  insertions_eq_nil : d.insertionsIn span .interior = []
  apart : Apart d.replacements
  boundaries : ∀ r ∈ d.replacements, Text.IsBoundary d.source.toList r.span.start ∧
    Text.IsBoundary d.source.toList r.span.stop

namespace Settled

variable {d : Draft} {span : Span}

/-- What is made in such a stretch comes in turn. -/
theorem inTurn (h : d.Settled span) :
    InTurn d.source.toList span.start span.stop (d.keptIn span) where
  start_isBoundary := h.start_isBoundary
  stop_isBoundary := h.stop_isBoundary
  le := h.le
  ordered := pairwise_keptIn h.apart
  fits := by
    intro r hr
    obtain ⟨hmem, hstart, hstop⟩ := (mem_keptIn h.apart).mp hr
    exact ⟨hstart, h.apart.start_le_stop r hmem, hstop, h.boundaries r hmem⟩

/-- The text of such a stretch. -/
theorem slice?_eq (h : d.Settled span) : d.slice? span =
    some (String.ofList (replaced d.source.toList span.start span.stop (d.keptIn span))) := by
  have hassemble := assemble?_layout h.inTurn
  rw [keptIn_eq_made_of_apart h.apart, layout_made] at hassemble
  rw [slice?, renderRange?, if_pos h.le, h.insertions_eq_nil]
  dsimp only
  rw [hassemble, keptIn_eq_made_of_apart h.apart]
  rfl

end Settled

/-- A slice can be cut in two where no replacement is. -/
theorem exists_slice?_append {d : Draft} {a b c : Nat} (hab : d.Settled ⟨a, b⟩)
    (hbc : d.Settled ⟨b, c⟩) (hac : d.Settled ⟨a, c⟩)
    (hcut : ∀ r ∈ d.replacements, r.span.stop ≤ b ∨ b ≤ r.span.start) :
    ∃ x y, d.slice? ⟨a, b⟩ = some x ∧ d.slice? ⟨b, c⟩ = some y ∧
      d.slice? ⟨a, c⟩ = some (x ++ y) := by
  refine ⟨_, _, hab.slice?_eq, hbc.slice?_eq, ?_⟩
  rw [hac.slice?_eq, keptIn_append hac.apart.start_lt_stop hcut hab.le hbc.le,
    replaced_append hab.inTurn hbc.inTurn, String.ofList_append]

/-! ### Insertions at one offset

Insertions are compared by the texts at each offset, joined. Whether a text was inserted as one or
in parts makes no difference. -/

/-- Texts at an offset come in the order of recording. -/
theorem insertedAt_append (is js : List Insertion) (p : Nat) :
    insertedAt (is ++ js) p = insertedAt is p ++ insertedAt js p := by
  rw [insertedAt, List.filter_append, List.flatMap_append]
  rfl

/-- Texts that are inserted one by one at an offset are inserted there together. -/
theorem insertedAt_group (offset : Nat) (texts : List String) (p : Nat) :
    insertedAt (texts.map (Insertion.mk offset)) p =
      insertedAt [⟨offset, String.join texts⟩] p := by
  by_cases hp : offset = p
  · simp [insertedAt, List.filter_map, Function.comp_def, hp, List.flatMap_map, Text.bytes,
      List.flatMap_assoc]
  · rw [insertedAt_eq_nil, insertedAt_eq_nil]
    · simpa using hp
    · simpa using fun _ _ => hp

/-- The bytes of a walk depend on the insertions through the texts at each offset. -/
theorem flatMap_walk_congr (source : List UInt8) {range : Span} {is js : List Insertion}
    (kept : List Replacement) (h : ∀ p, insertedAt is p = insertedAt js p) :
    (walk range is kept).flatMap (Emission.bytes source) =
      (walk range js kept).flatMap (Emission.bytes source) := by
  rw [walk, walk, List.flatMap_assoc, List.flatMap_assoc]
  apply List.flatMap_congr
  intro p _
  show bytesAt source range.stop is kept p = bytesAt source range.stop js kept p
  rw [bytesAt_eq, bytesAt_eq, h p]

end VueSetup.Draft
