import Mathlib.Data.List.Basic
import VueSetup.Proofs.Draft.Order
import VueSetup.Proofs.Text.Boundary

/-!
# VueSetup.Proofs.Draft.Walk

Rendering as a **walk over all offsets**. A range of a draft is rendered with two sorted lists and
one cursor; the walk needs neither. At each offset it emits the texts inserted there, then the texts
of the replacements that start there, then the byte of the source, each where the replacements that
are made (`kept`) leave room for it.

The main statement, `layout_bytes`, is that a layout writes the bytes of the walk. The induction is
on the sorted replacements. Its invariant ties the cursor `pos` to the walk: what `layout` writes
from `pos` on is what the walk emits from `pos` on, with the insertions that are still pending and
the replacements that are still to be made (`made pos`).
-/

namespace VueSetup

/-- The offset is that of one of the stretch's bytes. -/
def Span.covers (s : Span) (offset : Nat) : Bool :=
  s.start ≤ offset && offset < s.stop

namespace Draft

/-! ### The walk

The definitions of the specification. They say which replacements are made by comparing each with
all that were kept before it, and nothing in them goes through the text from left to right but the
walk itself. -/

/-- One thing that a walk emits. -/
inductive Emission where
  | inserted (i : Insertion)
  | replaced (r : Replacement)
  /-- The byte of the source at an offset. -/
  | source (offset : Nat)
  deriving DecidableEq, Repr

/-- The bytes that are emitted. -/
def Emission.bytes (source : List UInt8) : Emission → List UInt8
  | .inserted i => Text.bytes i.text.toList
  | .replaced r => Text.bytes r.text.toList
  | .source offset => source[offset]?.toList

/-- The offset of a byte of the source that is emitted. -/
def Emission.sourceOffset? : Emission → Option Nat
  | .source offset => some offset
  | _ => none

/-- What is emitted at one offset of a range that ends at `stop`. -/
def emissionsAt (stop : Nat) (insertions : List Insertion) (kept : List Replacement) (p : Nat) :
    List Emission :=
  (if kept.any (·.span.encloses p) then []
    else (insertions.filter (·.offset == p)).map .inserted) ++
  (kept.filter (·.span.start == p)).map .replaced ++
  (if decide (p < stop) && !kept.any (·.span.covers p) then [.source p] else [])

/-- What is emitted from the first to the last offset of a range. -/
def walk (range : Span) (insertions : List Insertion) (kept : List Replacement) : List Emission :=
  (List.range' range.start (range.stop + 1 - range.start)).flatMap
    (emissionsAt range.stop insertions kept)

/-- Of two replacements with their numbers in the order of recording, the first comes first: it
starts earlier, or it starts together with the other and is longer, or it has the same range and
was recorded earlier. -/
def Replacement.comesFirst (a b : Replacement × Nat) : Bool :=
  a.1.span.start < b.1.span.start ||
    (a.1.span.start == b.1.span.start &&
      (b.1.span.stop < a.1.span.stop || (a.1.span.stop == b.1.span.stop && a.2 ≤ b.2)))

/-- Replacements by start, the longer ones first, and then in the order of recording. -/
def inOrder (rs : List Replacement) : List Replacement :=
  (rs.zipIdx.mergeSort Replacement.comesFirst).map (·.1)

/-- Keep each replacement that starts at or behind the end of all that are kept before it. -/
def keep (kept : List Replacement) : List Replacement → List Replacement
  | [] => kept
  | r :: rs =>
    if kept.all (·.span.stop ≤ r.span.start) then keep (kept ++ [r]) rs else keep kept rs

/-- The replacements of a range that are made. -/
def keptIn (d : Draft) (range : Span) : List Replacement :=
  keep [] (inOrder (d.replacements.filter (Replacement.isIn range)))

/-- What the walk over a range emits. -/
def walkOf (d : Draft) (range : Span) (extent : Extent) : List Emission :=
  walk range (d.insertions.filter fun i => extent.admits range i.offset) (d.keptIn range)

/-! ### The order of replacements

The specification numbers the replacements in the order of recording, where the program relies on a
stable sort. -/

/-- Sorting with the order of recording spelled out is the stable sort without it. -/
theorem inOrder_eq (rs : List Replacement) : inOrder rs = rs.mergeSort Replacement.le := by
  have hle : Replacement.comesFirst = List.zipIdxLE Replacement.le := by
    funext a b
    rw [Bool.eq_iff_iff]
    simp only [Replacement.comesFirst, List.zipIdxLE, Replacement.le, Bool.or_eq_true,
      Bool.and_eq_true, decide_eq_true_eq, beq_iff_eq]
    split
    · split
      · rw [decide_eq_true_eq]
        omega
      · simp only [iff_true]
        omega
    · simp only [Bool.false_eq_true, iff_false]
      omega
  rw [inOrder, hle, List.mergeSort_zipIdx]

/-! ### The replacements that a cursor makes

One number is enough to decide: the end of what was made last is the end of all that was made, since
nothing that is made starts before it. -/

/-- The replacements that are made from `pos` on: each that does not start before the end of the
one made before it. -/
def made (pos : Nat) : List Replacement → List Replacement
  | [] => []
  | r :: rs => if r.span.start < pos then made pos rs else r :: made r.span.stop rs

/-- The cursor stands at the latest end of all that is kept, so that comparing with it is comparing
with all of them. Starts lie at or behind `low`, where the cursor starts. -/
theorem keep_eq_append_made (low : Nat) (rs : List Replacement) :
    ∀ (pos : Nat) (kept : List Replacement),
      (∀ r ∈ rs, low ≤ r.span.start ∧ r.span.start ≤ r.span.stop) →
      (∀ n, low ≤ n → ((∀ k ∈ kept, k.span.stop ≤ n) ↔ pos ≤ n)) →
      keep kept rs = kept ++ made pos rs := by
  induction rs with
  | nil =>
    intro pos kept _ _
    simp [keep, made]
  | cons r rs ih =>
    intro pos kept hrs hpos
    obtain ⟨hlow, hle⟩ := hrs r (by simp)
    have hrs' : ∀ r ∈ rs, low ≤ r.span.start ∧ r.span.start ≤ r.span.stop :=
      fun q hq => hrs q (by simp [hq])
    have hall : (kept.all fun k => decide (k.span.stop ≤ r.span.start)) = true ↔
        pos ≤ r.span.start := by
      rw [← hpos _ hlow]
      simp
    rw [keep, made]
    by_cases hstart : r.span.start < pos
    · rw [if_neg (by rw [hall]; omega), if_pos hstart]
      exact ih pos kept hrs' hpos
    · rw [if_pos (by rw [hall]; omega), if_neg hstart]
      rw [ih r.span.stop (kept ++ [r]) hrs' ?_, List.append_assoc, List.singleton_append]
      intro n hn
      have hmem : (∀ k ∈ kept ++ [r], k.span.stop ≤ n) ↔
          (∀ k ∈ kept, k.span.stop ≤ n) ∧ r.span.stop ≤ n := by
        simp only [List.mem_append, List.mem_singleton]
        exact ⟨fun h => ⟨fun k hk => h k (.inl hk), h r (.inr rfl)⟩,
          fun h k hk => hk.elim (h.1 k) (fun hkr => hkr ▸ h.2)⟩
      rw [hmem, hpos n hn]
      omega

/-- What is made lies behind the cursor. -/
theorem le_start_of_mem_made {pos : Nat} {rs : List Replacement}
    (hrs : ∀ r ∈ rs, r.span.start ≤ r.span.stop) {k : Replacement} (hk : k ∈ made pos rs) :
    pos ≤ k.span.start ∧ k ∈ rs := by
  induction rs generalizing pos with
  | nil => simp [made] at hk
  | cons r rs ih =>
    have hrs' : ∀ r ∈ rs, r.span.start ≤ r.span.stop := fun q hq => hrs q (by simp [hq])
    rw [made] at hk
    split at hk
    · obtain ⟨hle, hmem⟩ := ih hrs' hk
      exact ⟨hle, by simp [hmem]⟩
    · next hstart =>
      rcases List.mem_cons.mp hk with rfl | hk
      · exact ⟨by omega, by simp⟩
      · obtain ⟨hle, hmem⟩ := ih hrs' hk
        have := hrs r (by simp)
        exact ⟨by omega, by simp [hmem]⟩

/-! ### Layout and walk

Three facts are put together along the cursor: up to the next replacement nothing is replaced, at
its start it is written, and behind it the walk goes on with the insertions that are left. -/

/-- The bytes of a piece of a layout. -/
def Piece.bytes (source : List UInt8) : Piece → List UInt8
  | .kept span => (source.drop span.start).take (span.stop - span.start)
  | .written text => Text.bytes text.toList

section Bytes

variable (source : List UInt8) {stop : Nat}

/-- The bytes that are emitted at one offset. -/
def bytesAt (stop : Nat) (insertions : List Insertion) (kept : List Replacement) (p : Nat) :
    List UInt8 :=
  (emissionsAt stop insertions kept p).flatMap (Emission.bytes source)

/-- The texts inserted at one offset. -/
def insertedAt (insertions : List Insertion) (p : Nat) : List UInt8 :=
  (insertions.filter (·.offset == p)).flatMap fun i => Text.bytes i.text.toList

/-- The first insertion comes first at its offset. -/
theorem insertedAt_cons (i : Insertion) (is : List Insertion) (p : Nat) :
    insertedAt (i :: is) p =
      (if i.offset = p then Text.bytes i.text.toList else []) ++ insertedAt is p := by
  simp only [insertedAt, List.filter_cons, beq_iff_eq]
  split <;> simp

/-- Nothing is inserted at other offsets. -/
theorem insertedAt_eq_nil {is : List Insertion} {p : Nat} (h : ∀ i ∈ is, i.offset ≠ p) :
    insertedAt is p = [] := by
  rw [insertedAt, List.filter_eq_nil_iff.mpr (by simpa using h), List.flatMap_nil]

/-- The bytes of the source in a stretch, one by one. -/
theorem flatMap_range'_getElem? (a n : Nat) :
    (List.range' a n).flatMap (fun p => source[p]?.toList) = (source.drop a).take n := by
  induction n generalizing a with
  | zero => simp
  | succ n ih =>
    rw [List.range'_succ, List.flatMap_cons, ih]
    cases h : source[a]? with
    | none =>
      rw [List.getElem?_eq_none_iff] at h
      rw [List.drop_eq_nil_of_le h, List.drop_eq_nil_of_le (Nat.le_succ_of_le h)]
      simp
    | some b =>
      obtain ⟨hlt, rfl⟩ := List.getElem?_eq_some_iff.mp h
      rw [List.drop_eq_getElem_cons hlt, List.take_succ_cons, Option.toList_some,
        List.singleton_append]

/-- The offsets from `a` to `c` are those up to `b` and those from there on. -/
theorem range'_split {a b c : Nat} (hab : a ≤ b) (hbc : b ≤ c) :
    List.range' a (c - a) = List.range' a (b - a) ++ List.range' b (c - b) := by
  have h := @List.range'_append_1 a (b - a) (c - b)
  rw [show a + (b - a) = b by omega, show b - a + (c - b) = c - a by omega] at h
  exact h.symm

/-- A stretch with texts inserted in it: laying the insertions out from `pos` to `q` is walking from
`pos` to `q` with nothing replaced. -/
theorem layInsertions_bytes {q : Nat} (is : List Insertion) :
    ∀ pos, pos ≤ q → is.Pairwise (fun a b => a.offset ≤ b.offset) →
      (∀ i ∈ is, pos ≤ i.offset ∧ i.offset ≤ q) →
      (layInsertions pos is ++ [Piece.kept ⟨endOfInsertions pos is, q⟩]).flatMap
        (Piece.bytes source) =
        (List.range' pos (q - pos)).flatMap
          (fun p => insertedAt is p ++ source[p]?.toList) ++ insertedAt is q := by
  induction is with
  | nil =>
    intro pos hpos _ _
    simp [layInsertions, endOfInsertions, Piece.bytes, insertedAt, flatMap_range'_getElem?]
  | cons i is ih =>
    intro pos hpos hsorted hin
    obtain ⟨hi, his⟩ := List.pairwise_cons.mp hsorted
    obtain ⟨hlow, hhigh⟩ := hin i (by simp)
    have hrest := ih i.offset hhigh his
      (fun j hj => ⟨hi j hj, (hin j (by simp [hj])).2⟩)
    rw [layInsertions, endOfInsertions, List.cons_append, List.cons_append, List.flatMap_cons,
      List.flatMap_cons, hrest]
    have hbefore : (List.range' pos (i.offset - pos)).flatMap
        (fun p => insertedAt (i :: is) p ++ source[p]?.toList) =
        (source.drop pos).take (i.offset - pos) := by
      rw [← flatMap_range'_getElem?]
      apply List.flatMap_congr
      intro p hp
      rw [List.mem_range'_1] at hp
      rw [insertedAt_eq_nil, List.nil_append]
      intro j hj
      rcases List.mem_cons.mp hj with rfl | hj
      · omega
      · have := hi j hj
        omega
    rw [range'_split hlow hhigh, List.flatMap_append, hbefore]
    simp only [Piece.bytes, List.append_assoc]
    congr 1
    -- The text of `i` comes first at its own offset, which is the end if nothing lies behind it.
    by_cases hend : i.offset = q
    · simp [insertedAt_cons, hend]
    · obtain ⟨n, hn⟩ : ∃ n, q - i.offset = n + 1 := ⟨q - i.offset - 1, by omega⟩
      rw [hn, List.range'_succ, List.flatMap_cons, List.flatMap_cons, insertedAt_cons,
        if_pos rfl, insertedAt_cons i is q, if_neg hend]
      have htail : (List.range' (i.offset + 1) n).flatMap
          (fun p => insertedAt (i :: is) p ++ source[p]?.toList) =
          (List.range' (i.offset + 1) n).flatMap
            (fun p => insertedAt is p ++ source[p]?.toList) := by
        apply List.flatMap_congr
        intro p hp
        rw [List.mem_range'_1] at hp
        rw [insertedAt_cons, if_neg (by omega), List.nil_append]
      rw [htail]
      simp

/-- Once a class of elements ends in a list, it does not come back. -/
theorem takeWhile_eq_filter {α : Type} {p : α → Bool} {xs : List α}
    (h : xs.Pairwise fun a b => p b → p a) : xs.takeWhile p = xs.filter p := by
  induction xs with
  | nil => rfl
  | cons x xs ih =>
    obtain ⟨hx, hxs⟩ := List.pairwise_cons.mp h
    by_cases hp : p x
    · rw [List.takeWhile_cons_of_pos hp, List.filter_cons_of_pos hp, ih hxs]
    · rw [List.takeWhile_cons_of_neg hp, List.filter_cons_of_neg hp, eq_comm,
        List.filter_eq_nil_iff]
      exact fun y hy hpy => hp (hx y hy hpy)

/-- What is left when a class of elements ends is what is not in the class. -/
theorem dropWhile_eq_filter {α : Type} {p : α → Bool} {xs : List α}
    (h : xs.Pairwise fun a b => p b → p a) : xs.dropWhile p = xs.filter (!p ·) := by
  induction xs with
  | nil => rfl
  | cons x xs ih =>
    obtain ⟨hx, hxs⟩ := List.pairwise_cons.mp h
    by_cases hp : p x
    · rw [List.dropWhile_cons_of_pos hp, List.filter_cons_of_neg (by simp [hp]), ih hxs]
    · rw [List.dropWhile_cons_of_neg hp, eq_comm, List.filter_eq_self]
      intro y hy
      rcases List.mem_cons.mp hy with rfl | hy
      · simpa using hp
      · simpa using fun hpy => hp (hx y hy hpy)

/-- The insertions that are left behind a replacement: those behind its start that do not come
before its end. -/
def insertionsBehind (span : Span) (is : List Insertion) : List Insertion :=
  (is.dropWhile (·.offset ≤ span.start)).dropWhile (·.offset < span.stop)

section Sorted

variable {is : List Insertion} (hs : is.Pairwise fun a b => a.offset ≤ b.offset)

include hs

/-- In sorted insertions those up to an offset come first. -/
theorem insertionsUpTo_eq (a : Nat) :
    is.takeWhile (·.offset ≤ a) = is.filter (·.offset ≤ a) := by
  apply takeWhile_eq_filter
  refine hs.imp fun hab hb => ?_
  simp only [decide_eq_true_eq] at hb ⊢
  omega

/-- What is left of sorted insertions behind a replacement, by their offsets. -/
theorem insertionsBehind_eq (span : Span) :
    insertionsBehind span is =
      is.filter fun i => decide (span.start < i.offset) && decide (span.stop ≤ i.offset) := by
  have hbehind : is.dropWhile (·.offset ≤ span.start) =
      is.filter fun i => !decide (i.offset ≤ span.start) := by
    apply dropWhile_eq_filter
    refine hs.imp fun hab hb => ?_
    simp only [decide_eq_true_eq] at hb ⊢
    omega
  rw [insertionsBehind, hbehind, dropWhile_eq_filter, List.filter_filter]
  · congr 1
    funext i
    rw [Bool.eq_iff_iff]
    simp only [Bool.and_eq_true, Bool.not_eq_true', decide_eq_false_iff_not, decide_eq_true_eq]
    omega
  · refine (hs.filter _).imp fun hab hb => ?_
    simp only [decide_eq_true_eq] at hb ⊢
    omega

/-- What is inserted at an offset up to `a` is among the insertions up to `a`. -/
theorem insertedAt_upTo {a p : Nat} (hp : p ≤ a) :
    insertedAt (is.takeWhile (·.offset ≤ a)) p = insertedAt is p := by
  rw [insertionsUpTo_eq hs, insertedAt, insertedAt, List.filter_filter]
  congr 2
  funext i
  rw [Bool.eq_iff_iff]
  simp only [Bool.and_eq_true, decide_eq_true_eq, beq_iff_eq]
  omega

/-- What is inserted at an offset behind a replacement is among the insertions behind it. -/
theorem insertedAt_behind {span : Span} {p : Nat} (hp : span.start < p) (hp' : span.stop ≤ p) :
    insertedAt (insertionsBehind span is) p = insertedAt is p := by
  rw [insertionsBehind_eq hs, insertedAt, insertedAt, List.filter_filter]
  congr 2
  funext i
  rw [Bool.eq_iff_iff]
  simp only [Bool.and_eq_true, decide_eq_true_eq, beq_iff_eq]
  omega

end Sorted

/-- What the walk emits at an offset: the texts inserted there unless a replacement encloses it,
the replacements that start there, and the byte of the source unless a replacement covers it. -/
theorem bytesAt_eq (insertions : List Insertion) (kept : List Replacement) (p : Nat) :
    bytesAt source stop insertions kept p =
      (if kept.any (·.span.encloses p) then [] else insertedAt insertions p) ++
      (kept.filter (·.span.start == p)).flatMap (fun r => Text.bytes r.text.toList) ++
      (if decide (p < stop) && !kept.any (·.span.covers p) then source[p]?.toList else []) := by
  rw [bytesAt, emissionsAt, List.flatMap_append, List.flatMap_append, List.flatMap_map]
  congr 1
  · congr 1
    split
    · rfl
    · rw [List.flatMap_map]
      rfl
  · split
    · simp [Emission.bytes]
    · rfl

/-- Away from all replacements the walk emits what is inserted and the byte of the source. -/
theorem bytesAt_of_before {insertions : List Insertion} {kept : List Replacement} {p : Nat}
    (h : ∀ k ∈ kept, p < k.span.start) (hp : p < stop) :
    bytesAt source stop insertions kept p = insertedAt insertions p ++ source[p]?.toList := by
  have hencl : kept.any (·.span.encloses p) = false := by
    simp only [List.any_eq_false, Span.encloses, Bool.and_eq_true, decide_eq_true_eq]
    intro k hk
    have := h k hk
    omega
  have hcov : kept.any (·.span.covers p) = false := by
    simp only [List.any_eq_false, Span.covers, Bool.and_eq_true, decide_eq_true_eq]
    intro k hk
    have := h k hk
    omega
  have hstart : kept.filter (·.span.start == p) = [] := by
    simp only [List.filter_eq_nil_iff, beq_iff_eq]
    intro k hk
    have := h k hk
    omega
  simp [bytesAt_eq, hencl, hcov, hstart, hp]

/-- Behind a replacement the walk goes on as if it had never been there. -/
theorem bytesAt_behind {insertions : List Insertion} {r : Replacement} {kept : List Replacement}
    (hs : insertions.Pairwise fun a b => a.offset ≤ b.offset)
    {p : Nat} (hp : r.span.start < p) (hp' : r.span.stop ≤ p) :
    bytesAt source stop insertions (r :: kept) p =
      bytesAt source stop (insertionsBehind r.span insertions) kept p := by
  have hencl : r.span.encloses p = false := by simp [Span.encloses]; omega
  have hcov : r.span.covers p = false := by simp [Span.covers]; omega
  have hstart : (r.span.start == p) = false := by simp; omega
  simp [bytesAt_eq, hencl, hcov, hstart, insertedAt_behind hs hp hp']

/-- Strictly inside of a replacement that is made the walk emits nothing. -/
theorem bytesAt_inside {insertions : List Insertion} {r : Replacement} {kept : List Replacement}
    (hkept : ∀ k ∈ kept, r.span.stop ≤ k.span.start) {p : Nat} (hp : r.span.encloses p = true) :
    bytesAt source stop insertions (r :: kept) p = [] := by
  have hlt : r.span.start < p ∧ p < r.span.stop := by simpa [Span.encloses] using hp
  have hcov : r.span.covers p = true := by simp [Span.covers]; omega
  have hstart : (r :: kept).filter (·.span.start == p) = [] := by
    simp only [List.filter_eq_nil_iff, List.mem_cons, beq_iff_eq]
    rintro k (rfl | hk)
    · omega
    · have := hkept k hk
      omega
  simp [bytesAt_eq, hp, hcov, hstart]

/-- At the start of a replacement the walk emits what is inserted there and the replacement; one
that replaces nothing leaves the offset to those behind it. -/
theorem bytesAt_start {insertions : List Insertion} {r : Replacement} {kept : List Replacement}
    (hr : r.span.start ≤ r.span.stop) (hkept : ∀ k ∈ kept, r.span.stop ≤ k.span.start) :
    bytesAt source stop insertions (r :: kept) r.span.start =
      insertedAt insertions r.span.start ++ Text.bytes r.text.toList ++
        (if r.span.start < r.span.stop then []
          else bytesAt source stop [] kept r.span.start) := by
  have hself : r.span.encloses r.span.start = false := by simp [Span.encloses]
  have hencl : kept.any (·.span.encloses r.span.start) = false := by
    simp only [List.any_eq_false, Span.encloses, Bool.and_eq_true, decide_eq_true_eq]
    intro k hk
    have := hkept k hk
    omega
  by_cases hlt : r.span.start < r.span.stop
  · have hcov : r.span.covers r.span.start = true := by simp [Span.covers, hlt]
    have hstart : kept.filter (·.span.start == r.span.start) = [] := by
      simp only [List.filter_eq_nil_iff, beq_iff_eq]
      intro k hk
      have := hkept k hk
      omega
    simp [bytesAt_eq, hself, hencl, hstart, hcov, hlt]
  · have hcov : r.span.covers r.span.start = false := by simp [Span.covers, hlt]
    simp [bytesAt_eq, hself, hencl, hcov, hlt, insertedAt]

/-- The walk over a replacement: up to its start nothing is replaced, then comes its text, and
behind it the walk goes on with what is left of the insertions. -/
theorem flatMap_bytesAt_cons {is : List Insertion} {r : Replacement} {kept : List Replacement}
    (hs : is.Pairwise fun a b => a.offset ≤ b.offset) (hr : r.span.start ≤ r.span.stop)
    (hkept : ∀ k ∈ kept, r.span.stop ≤ k.span.start) {pos : Nat} (hpos : pos ≤ r.span.start)
    (hstop : r.span.stop ≤ stop) :
    (List.range' pos (stop + 1 - pos)).flatMap (bytesAt source stop is (r :: kept)) =
      (List.range' pos (r.span.start - pos)).flatMap
          (fun p => insertedAt is p ++ source[p]?.toList) ++
        insertedAt is r.span.start ++ Text.bytes r.text.toList ++
        (List.range' r.span.stop (stop + 1 - r.span.stop)).flatMap
          (bytesAt source stop (insertionsBehind r.span is) kept) := by
  have hfront : (List.range' pos (r.span.start - pos)).flatMap
      (bytesAt source stop is (r :: kept)) =
      (List.range' pos (r.span.start - pos)).flatMap
        fun p => insertedAt is p ++ source[p]?.toList := by
    apply List.flatMap_congr
    intro p hp
    rw [List.mem_range'_1] at hp
    apply bytesAt_of_before source ?_ (by omega)
    intro k hk
    rcases List.mem_cons.mp hk with rfl | hk
    · omega
    · have := hkept k hk
      omega
  have hback : ∀ p, r.span.start < p → r.span.stop ≤ p →
      bytesAt source stop is (r :: kept) p =
        bytesAt source stop (insertionsBehind r.span is) kept p :=
    fun p hp hp' => bytesAt_behind source hs hp hp'
  -- The walk is split at the start of `r`, and behind it at its end.
  rw [range'_split hpos (show r.span.start ≤ stop + 1 by omega), List.flatMap_append, hfront,
    show stop + 1 - r.span.start = (stop - r.span.start) + 1 by omega, List.range'_succ,
    List.flatMap_cons, bytesAt_start source hr hkept]
  simp only [List.append_assoc]
  congr 3
  by_cases hlt : r.span.start < r.span.stop
  · -- The offsets inside of `r` give nothing.
    rw [if_pos hlt, List.nil_append,
      show stop - r.span.start = stop + 1 - (r.span.start + 1) by omega,
      range'_split (show r.span.start + 1 ≤ r.span.stop by omega)
        (show r.span.stop ≤ stop + 1 by omega),
      List.flatMap_append, List.flatMap_eq_nil_iff.mpr, List.nil_append]
    · apply List.flatMap_congr
      intro p hp
      rw [List.mem_range'_1] at hp
      exact hback p (by omega) hp.1
    · intro p hp
      rw [List.mem_range'_1] at hp
      apply bytesAt_inside source hkept
      simp only [Span.encloses, Bool.and_eq_true, decide_eq_true_eq]
      omega
  · -- Nothing is replaced, and the offset is still to be walked over.
    have heq : r.span.stop = r.span.start := by omega
    have hnil : insertedAt (insertionsBehind r.span is) r.span.start = [] := by
      apply insertedAt_eq_nil
      intro i hi
      rw [insertionsBehind_eq hs, List.mem_filter] at hi
      simp only [Bool.and_eq_true, decide_eq_true_eq] at hi
      omega
    rw [if_neg hlt, heq, show stop + 1 - r.span.start = (stop - r.span.start) + 1 by omega,
      List.range'_succ, List.flatMap_cons]
    congr 1
    · rw [bytesAt_eq, bytesAt_eq, hnil]
      rfl
    · apply List.flatMap_congr
      intro p hp
      rw [List.mem_range'_1] at hp
      exact hback p (by omega) (by omega)

/-- What a layout writes from the cursor on is what the walk emits from there on. -/
theorem layout_bytes (rs : List Replacement) : ∀ (pos : Nat) (is : List Insertion),
    pos ≤ stop → is.Pairwise (fun a b => a.offset ≤ b.offset) →
    (∀ i ∈ is, pos ≤ i.offset ∧ i.offset ≤ stop) →
    (∀ r ∈ rs, r.span.start ≤ r.span.stop ∧ r.span.stop ≤ stop) →
    (layout stop pos is rs).flatMap (Piece.bytes source) =
      (List.range' pos (stop + 1 - pos)).flatMap (bytesAt source stop is (made pos rs)) := by
  induction rs with
  | nil =>
    intro pos is hpos hs his _
    rw [layout, layInsertions_bytes source is pos hpos hs his, made,
      range'_split hpos (Nat.le_succ stop), List.flatMap_append]
    congr 1
    · apply List.flatMap_congr
      intro p hp
      rw [List.mem_range'_1] at hp
      rw [bytesAt_of_before source (by simp) (by omega)]
    · simp [bytesAt_eq]
  | cons r rs ih =>
    intro pos is hpos hs his hrs
    obtain ⟨hr, hrstop⟩ := hrs r (by simp)
    have hrs' : ∀ q ∈ rs, q.span.start ≤ q.span.stop ∧ q.span.stop ≤ stop :=
      fun q hq => hrs q (by simp [hq])
    rw [layout, made]
    -- A replacement inside of an earlier one is passed over on both sides.
    by_cases hstart : r.span.start < pos
    · rw [if_pos hstart, if_pos hstart]
      exact ih pos is hpos hs his hrs'
    · rw [if_neg hstart, if_neg hstart]
      have hkept : ∀ k ∈ made r.span.stop rs, r.span.stop ≤ k.span.start :=
        fun k hk => (le_start_of_mem_made (fun q hq => (hrs' q hq).1) hk).1
      -- What stands before a replacement that is kept, and what the induction says from behind it.
      have hbefore := layInsertions_bytes source (is.takeWhile (·.offset ≤ r.span.start)) pos
        (Nat.le_of_not_lt hstart) (hs.sublist (List.takeWhile_sublist _)) (by
          intro i hi
          rw [insertionsUpTo_eq hs, List.mem_filter, decide_eq_true_eq] at hi
          exact ⟨(his i hi.1).1, hi.2⟩)
      have hrest := ih r.span.stop (insertionsBehind r.span is) hrstop
        (by rw [insertionsBehind_eq hs]; exact hs.filter _) (by
          intro i hi
          rw [insertionsBehind_eq hs, List.mem_filter] at hi
          simp only [Bool.and_eq_true, decide_eq_true_eq] at hi
          exact ⟨hi.2.2, (his i hi.1).2⟩) hrs'
      have hup : ∀ p ≤ r.span.start,
          insertedAt (is.takeWhile (·.offset ≤ r.span.start)) p = insertedAt is p :=
        fun p hp => insertedAt_upTo hs hp
      rw [flatMap_bytesAt_cons source hs hr hkept (Nat.le_of_not_lt hstart) hrstop, ← hrest,
        ← hup _ (Nat.le_refl _)]
      rw [List.flatMap_append] at hbefore
      simp only [List.flatMap_append, List.flatMap_cons, List.flatMap_nil, List.append_nil]
        at hbefore ⊢
      rw [← List.append_assoc, hbefore]
      simp only [List.append_assoc, Piece.bytes, insertionsBehind]
      congr 1
      apply List.flatMap_congr
      intro p hp
      rw [List.mem_range'_1] at hp
      rw [hup p (by omega)]

end Bytes

end Draft

end VueSetup
