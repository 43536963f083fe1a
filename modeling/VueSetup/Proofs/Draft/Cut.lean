import VueSetup.Proofs.Draft.Render
import VueSetup.Proofs.Draft.Reordering

/-!
# VueSetup.Proofs.Draft.Cut

A slice can be cut in two at every offset that no replacement goes over: it is the slice up to the
cut, then the texts inserted there, then the slice behind it (`slice?_cut`). The whole is the slice
of all of it between the texts inserted at its two ends.

Which replacements are made is decided from left to right over the whole range, so the point is that
the decision splits. Replacements before the cut come first in the order in which they are looked at
(`replacementsIn_append`), none of those that are made ends behind the cut, and the first one behind
it is looked at as if the cursor stood at the cut (`made_append`).
-/

namespace VueSetup.Draft

/-! ### The replacements that are made on both sides of a cut

The replacements of the whole are those of the two sides, up to the ones that go over the cut, and
there are none. Both the order and the choice of those that are made split accordingly. -/

section

variable {d : Draft} {a b c : Nat} (hne : ∀ r ∈ d.replacements, r.span.start < r.span.stop)
  (hcut : ∀ r ∈ d.replacements, r.span.stop ≤ b ∨ b ≤ r.span.start)

include hne hcut

/-- The replacements of a range are looked at in the order of those before the cut and those
behind. -/
theorem replacementsIn_append (hab : a ≤ b) (hbc : b ≤ c) :
    d.replacementsIn ⟨a, c⟩ = d.replacementsIn ⟨a, b⟩ ++ d.replacementsIn ⟨b, c⟩ := by
  have hpairwise : (d.replacementsIn ⟨a, c⟩).Pairwise fun r q =>
      decide (q.span.stop ≤ b) = true → decide (r.span.stop ≤ b) = true := by
    refine (pairwise_replacementsIn d ⟨a, c⟩).imp_of_mem fun {r q} hr hq hle hqb => ?_
    have hrcut := hcut r (mem_replacementsIn.mp hr).1
    have hqlt := hne q (mem_replacementsIn.mp hq).1
    rw [decide_eq_true_eq] at hqb ⊢
    omega
  have hbefore : (d.replacementsIn ⟨a, c⟩).filter (·.span.stop ≤ b) = d.replacementsIn ⟨a, b⟩ := by
    rw [replacementsIn_eq, replacementsIn_eq, filter_mergeSort Replacement.le_total
      Replacement.le_trans, List.filter_filter]
    congr 1
    refine List.filter_congr fun r _ => ?_
    rw [Bool.eq_iff_iff]
    simp only [Replacement.isIn, Bool.and_eq_true, decide_eq_true_eq]
    omega
  have hbehind : (d.replacementsIn ⟨a, c⟩).filter (fun r => !decide (r.span.stop ≤ b)) =
      d.replacementsIn ⟨b, c⟩ := by
    rw [replacementsIn_eq, replacementsIn_eq, filter_mergeSort Replacement.le_total
      Replacement.le_trans, List.filter_filter]
    congr 1
    refine List.filter_congr fun r hr => ?_
    have hrcut := hcut r hr
    have hrlt := hne r hr
    rw [Bool.eq_iff_iff]
    simp only [Replacement.isIn, Bool.and_eq_true, Bool.not_eq_true', decide_eq_true_eq,
      decide_eq_false_iff_not]
    omega
  rw [← hbefore, ← hbehind, ← takeWhile_eq_filter hpairwise, ← dropWhile_eq_filter hpairwise,
    List.takeWhile_append_dropWhile]

omit hne hcut in
/-- Where the cursor stands does not matter as long as nothing starts before it. -/
theorem made_of_le {pos : Nat} {rs : List Replacement} (hpos : pos ≤ b)
    (hrs : ∀ r ∈ rs, b ≤ r.span.start) : made pos rs = made b rs := by
  cases rs with
  | nil => rfl
  | cons r rs =>
    have hr := hrs r List.mem_cons_self
    rw [made, made, if_neg (by omega), if_neg (by omega)]

omit hne hcut in
/-- The cursor never gets over the cut, so that it makes of the second part what it makes from
there. -/
theorem made_append {rs qs : List Replacement} (hrs : ∀ r ∈ rs, r.span.stop ≤ b)
    (hqs : ∀ q ∈ qs, b ≤ q.span.start) {pos : Nat} (hpos : pos ≤ b) :
    made pos (rs ++ qs) = made pos rs ++ made b qs := by
  induction rs generalizing pos with
  | nil => exact made_of_le hpos hqs
  | cons r rs ih =>
    have hrs' : ∀ r ∈ rs, r.span.stop ≤ b := fun r hr => hrs r (List.mem_cons_of_mem _ hr)
    rw [List.cons_append, made, made]
    by_cases hstart : r.span.start < pos
    · rw [if_pos hstart, if_pos hstart]
      exact ih hrs' hpos
    · rw [if_neg hstart, if_neg hstart, ih hrs' (hrs r List.mem_cons_self), List.cons_append]

/-- **What is made splits at a cut** that no replacement goes over. -/
theorem keptIn_append (hab : a ≤ b) (hbc : b ≤ c) :
    d.keptIn ⟨a, c⟩ = d.keptIn ⟨a, b⟩ ++ d.keptIn ⟨b, c⟩ := by
  have hordered : ∀ range, ∀ r ∈ d.replacementsIn range, r.span.start ≤ r.span.stop :=
    fun range r hr => Nat.le_of_lt (hne r (mem_replacementsIn.mp hr).1)
  have hin : ∀ {range r}, r ∈ d.replacementsIn range →
      range.start ≤ r.span.start ∧ r.span.stop ≤ range.stop := by
    intro range r hr
    simpa [Replacement.isIn] using (mem_replacementsIn.mp hr).2
  rw [keptIn_eq_made (hordered _), keptIn_eq_made (hordered _), keptIn_eq_made (hordered _),
    replacementsIn_append hne hcut hab hbc]
  exact made_append (fun r hr => (hin hr).2) (fun q hq => (hin hq).1) hab

end

/-! ### The walk on both sides of a cut

A walk is a sum over offsets, so that it can be cut at any of them. What remains is that at the
offsets of the one side the edits of the other side are idle. -/

section

variable (source : List UInt8) {stop : Nat} {is : List Insertion} {rs qs : List Replacement}
  {p : Nat}

/-- What is inserted at an offset of a range, or nothing where the range leaves it out. -/
theorem insertedAt_admitted (extent : Extent) (range : Span) (is : List Insertion) (p : Nat) :
    insertedAt (is.filter fun i => extent.admits range i.offset) p =
      if extent.admits range p then insertedAt is p else [] := by
  rw [insertedAt, insertedAt, List.filter_filter]
  split
  · next hp =>
    congr 1
    refine List.filter_congr fun i _ => ?_
    by_cases hi : i.offset = p
    · simp [hi, hp]
    · simp [hi]
  · next hp =>
    rw [List.filter_eq_nil_iff.mpr, List.flatMap_nil]
    intro i _
    by_cases hi : i.offset = p
    · simp [hi, hp]
    · simp [hi]

/-- Only the offset counts. -/
theorem insertedAt_admitted_congr {extent extent' : Extent} {range range' : Span}
    (h : extent.admits range p = extent'.admits range' p) :
    insertedAt (is.filter fun i => extent.admits range i.offset) p =
      insertedAt (is.filter fun i => extent'.admits range' i.offset) p := by
  rw [insertedAt_admitted, insertedAt_admitted, h]

/-- The replacement has not started at the offset, or is over. -/
def Replacement.IsIdle (p : Nat) (r : Replacement) : Prop :=
  p < r.span.start ∨ r.span.start < p ∧ r.span.stop ≤ p

/-- Idle replacements hide nothing and write nothing. -/
theorem Replacement.IsIdle.all (h : ∀ r ∈ rs, r.IsIdle p) :
    rs.any (·.span.encloses p) = false ∧ rs.any (·.span.covers p) = false ∧
      rs.filter (·.span.start == p) = [] := by
  simp only [List.any_eq_false, List.filter_eq_nil_iff, Span.encloses, Span.covers,
    Bool.and_eq_true, decide_eq_true_eq, beq_iff_eq, ← forall_and]
  intro r
  by_cases hr : r ∈ rs
  · have hidle := h r hr
    unfold IsIdle at hidle
    simp only [hr, true_imp_iff]
    omega
  · simp [hr]

/-- Idle replacements behind the others may be left out. -/
theorem bytesAt_append_idle (hqs : ∀ q ∈ qs, q.IsIdle p) :
    bytesAt source stop is (rs ++ qs) p = bytesAt source stop is rs p := by
  obtain ⟨hencl, hcov, hstart⟩ := Replacement.IsIdle.all hqs
  simp [bytesAt_eq, hencl, hcov, hstart]

/-- Idle replacements before the others may be left out. -/
theorem bytesAt_idle_append (hrs : ∀ r ∈ rs, r.IsIdle p) :
    bytesAt source stop is (rs ++ qs) p = bytesAt source stop is qs p := by
  obtain ⟨hencl, hcov, hstart⟩ := Replacement.IsIdle.all hrs
  simp [bytesAt_eq, hencl, hcov, hstart]

/-- At the end of a range only the texts inserted there can be emitted. -/
theorem bytesAt_stop (hrs : ∀ r ∈ rs, r.span.start < r.span.stop ∧ r.span.stop ≤ stop) :
    bytesAt source stop is rs stop = insertedAt is stop := by
  have hidle : ∀ r ∈ rs, r.IsIdle stop :=
    fun r hr => .inr ⟨Nat.lt_of_lt_of_le (hrs r hr).1 (hrs r hr).2, (hrs r hr).2⟩
  obtain ⟨hencl, hcov, hstart⟩ := Replacement.IsIdle.all hidle
  simp [bytesAt_eq, hencl, hcov, hstart]

/-- Which insertions are given counts at the offset only. -/
theorem bytesAt_congr {js : List Insertion} {stop' : Nat} (hstop : p < stop ↔ p < stop')
    (his : insertedAt is p = insertedAt js p) :
    bytesAt source stop is rs p = bytesAt source stop' js rs p := by
  rw [bytesAt_eq, bytesAt_eq, his]
  simp only [hstop]

/-- Where no replacement has started, the texts inserted come first. -/
theorem bytesAt_of_open (hrs : ∀ r ∈ rs, p ≤ r.span.start) :
    bytesAt source stop is rs p = insertedAt is p ++ bytesAt source stop [] rs p := by
  have hencl : rs.any (·.span.encloses p) = false := by
    simp only [List.any_eq_false, Span.encloses, Bool.and_eq_true, decide_eq_true_eq]
    intro r hr
    have := hrs r hr
    omega
  rw [bytesAt_eq, bytesAt_eq, hencl]
  simp [insertedAt]

/-- The bytes that a walk over a range emits, with all insertions that the range admits. -/
def walked (is : List Insertion) (rs : List Replacement) (range : Span) (extent : Extent) :
    List UInt8 :=
  (walk range (is.filter fun i => extent.admits range i.offset) rs).flatMap (Emission.bytes source)

/-- A walk, offset by offset. -/
theorem walked_eq (range : Span) (extent : Extent) :
    walked source is rs range extent =
      (List.range' range.start (range.stop + 1 - range.start)).flatMap (bytesAt source range.stop
        (is.filter fun i => extent.admits range i.offset) rs) := by
  rw [walked, walk, List.flatMap_assoc]
  rfl

variable {a b c : Nat}

/-- Nothing is emitted at the end of a slice. -/
theorem walked_interior_stop (hab : a ≤ b) (hrs : ∀ r ∈ rs, r.span.start < r.span.stop ∧
    r.span.stop ≤ b) :
    walked source is rs ⟨a, b⟩ .interior = (List.range' a (b - a)).flatMap (bytesAt source b
      (is.filter fun i => Extent.interior.admits ⟨a, b⟩ i.offset) rs) := by
  have hlast : bytesAt source b (is.filter fun i => Extent.interior.admits ⟨a, b⟩ i.offset) rs b =
      [] := by
    rw [bytesAt_stop source hrs, insertedAt_admitted]
    simp [Extent.admits]
  rw [walked_eq, range'_split hab (Nat.le_succ b), List.flatMap_append]
  simp [hlast]

/-- A walk is cut where no replacement is: on each side it sees the replacements of that side. -/
theorem walked_cut (hab : a < b) (hbc : b < c)
    (hrs : ∀ r ∈ rs, r.span.start < r.span.stop ∧ r.span.stop ≤ b)
    (hqs : ∀ q ∈ qs, b ≤ q.span.start) :
    walked source is (rs ++ qs) ⟨a, c⟩ .interior =
      walked source is rs ⟨a, b⟩ .interior ++ insertedAt is b ++
        walked source is qs ⟨b, c⟩ .interior := by
  have hover : ∀ p, b ≤ p → ∀ js, bytesAt source c js (rs ++ qs) p = bytesAt source c js qs p := by
    intro p hp js
    refine bytesAt_idle_append source fun r hr => .inr ?_
    have := hrs r hr
    omega
  have hfront : ∀ p ∈ List.range' a (b - a),
      bytesAt source c (is.filter fun i => Extent.interior.admits ⟨a, c⟩ i.offset) (rs ++ qs) p =
        bytesAt source b (is.filter fun i => Extent.interior.admits ⟨a, b⟩ i.offset) rs p := by
    intro p hp
    rw [List.mem_range'_1] at hp
    rw [bytesAt_append_idle source fun q hq => .inl (Nat.lt_of_lt_of_le (by omega) (hqs q hq))]
    refine bytesAt_congr source (by omega) (insertedAt_admitted_congr ?_)
    rw [Bool.eq_iff_iff]
    simp only [Extent.admits, Bool.and_eq_true, decide_eq_true_eq]
    omega
  have hback : ∀ p ∈ List.range' (b + 1) (c - b),
      bytesAt source c (is.filter fun i => Extent.interior.admits ⟨a, c⟩ i.offset) (rs ++ qs) p =
        bytesAt source c (is.filter fun i => Extent.interior.admits ⟨b, c⟩ i.offset) qs p := by
    intro p hp
    rw [List.mem_range'_1] at hp
    rw [hover p (by omega)]
    refine bytesAt_congr source Iff.rfl (insertedAt_admitted_congr ?_)
    rw [Bool.eq_iff_iff]
    simp only [Extent.admits, Bool.and_eq_true, decide_eq_true_eq]
    omega
  -- at the cut itself the texts inserted there belong to neither side
  have hmid : bytesAt source c (is.filter fun i => Extent.interior.admits ⟨a, c⟩ i.offset)
        (rs ++ qs) b =
      insertedAt is b ++
        bytesAt source c (is.filter fun i => Extent.interior.admits ⟨b, c⟩ i.offset) qs b := by
    have hopen : ∀ js, bytesAt source c js qs b = insertedAt js b ++ bytesAt source c [] qs b :=
      fun js => bytesAt_of_open source hqs
    rw [hover b (Nat.le_refl b), hopen (is.filter fun i => Extent.interior.admits ⟨a, c⟩ i.offset),
      hopen (is.filter fun i => Extent.interior.admits ⟨b, c⟩ i.offset), insertedAt_admitted,
      insertedAt_admitted]
    simp [Extent.admits, hab, hbc]
  rw [walked_interior_stop source (Nat.le_of_lt hab) hrs, walked_eq, walked_eq,
    range'_split (Nat.le_of_lt hab) (show b ≤ c + 1 by omega),
    show c + 1 - b = (c - b) + 1 by omega, List.range'_succ]
  simp only [List.flatMap_append, List.flatMap_cons, hmid, List.append_assoc]
  rw [List.flatMap_congr hfront, List.flatMap_congr hback]

/-- The texts inserted at the ends of a range stand around what is emitted inside of it. -/
theorem walked_closed (hab : a < b)
    (hrs : ∀ r ∈ rs, a ≤ r.span.start ∧ r.span.start < r.span.stop ∧ r.span.stop ≤ b) :
    walked source is rs ⟨a, b⟩ .closed =
      insertedAt is a ++ walked source is rs ⟨a, b⟩ .interior ++ insertedAt is b := by
  have hfirst : bytesAt source b (is.filter fun i => Extent.closed.admits ⟨a, b⟩ i.offset) rs a =
      insertedAt is a ++
        bytesAt source b (is.filter fun i => Extent.interior.admits ⟨a, b⟩ i.offset) rs a := by
    have hopen : ∀ js, bytesAt source b js rs a = insertedAt js a ++ bytesAt source b [] rs a :=
      fun js => bytesAt_of_open source fun r hr => (hrs r hr).1
    rw [hopen (is.filter fun i => Extent.closed.admits ⟨a, b⟩ i.offset),
      hopen (is.filter fun i => Extent.interior.admits ⟨a, b⟩ i.offset), insertedAt_admitted,
      insertedAt_admitted]
    simp [Extent.admits, Nat.le_of_lt hab]
  have hinner : ∀ p ∈ List.range' (a + 1) (b - (a + 1)),
      bytesAt source b (is.filter fun i => Extent.closed.admits ⟨a, b⟩ i.offset) rs p =
        bytesAt source b (is.filter fun i => Extent.interior.admits ⟨a, b⟩ i.offset) rs p := by
    intro p hp
    rw [List.mem_range'_1] at hp
    refine bytesAt_congr source Iff.rfl (insertedAt_admitted_congr ?_)
    rw [Bool.eq_iff_iff]
    simp only [Extent.admits, Bool.and_eq_true, decide_eq_true_eq]
    omega
  have hlast : bytesAt source b (is.filter fun i => Extent.closed.admits ⟨a, b⟩ i.offset) rs b =
      insertedAt is b := by
    rw [bytesAt_stop source fun r hr => (hrs r hr).2, insertedAt_admitted]
    simp [Extent.admits, Nat.le_of_lt hab]
  rw [walked_interior_stop source (Nat.le_of_lt hab) fun r hr => (hrs r hr).2, walked_eq,
    range'_split (Nat.le_of_lt hab) (Nat.le_succ b), show b - a = b - (a + 1) + 1 by omega,
    List.range'_succ]
  simp only [List.flatMap_append, List.flatMap_cons, hfirst, List.append_assoc]
  rw [List.flatMap_congr hinner]
  simp [hlast]

end

/-! ### Slices

From bytes back to texts: the three parts are texts whose bytes, put together, are those of the
whole, and a text is known by its bytes. -/

/-- The texts inserted at an offset, in the order of recording. -/
def textsAt (d : Draft) (p : Nat) : String :=
  String.join ((d.insertions.filter (·.offset == p)).map (·.text))

/-- The texts at an offset have the bytes that the walk emits for them. -/
theorem bytes_textsAt (d : Draft) (p : Nat) :
    Text.bytes (d.textsAt p).toList = insertedAt d.insertions p := by
  simp [textsAt, insertedAt, Text.bytes, List.flatMap_map, List.flatMap_assoc]

/-- A range that falls between characters is rendered, to the bytes that are walked over. -/
theorem IsAligned.exists_renderRange? {d : Draft} (h : d.IsAligned) (range : Span)
    (hstart : Text.IsBoundary d.source.toList range.start)
    (hstop : Text.IsBoundary d.source.toList range.stop) (hle : range.start ≤ range.stop)
    (extent : Extent) :
    ∃ s, d.renderRange? range extent = some s ∧ Text.bytes s.toList =
      walked (Text.bytes d.source.toList) d.insertions (d.keptIn range) range extent := by
  have hsize : range.stop ≤ d.source.utf8ByteSize := by
    rw [Text.utf8ByteSize_eq]
    exact hstop.le_byteSize
  refine renderRange?_eq_walk hle hstart hstop (fun i hi => ?_) (fun r hr => ?_)
  · obtain ⟨hmem, hadmits⟩ := mem_insertionsIn.mp hi
    refine h.insertion i hmem ?_
    cases extent <;> simp only [Extent.admits, Bool.and_eq_true, decide_eq_true_eq] at hadmits <;>
      omega
  · obtain ⟨hmem, hin⟩ := mem_replacementsIn.mp hr
    simp only [Replacement.isIn, Bool.and_eq_true, decide_eq_true_eq] at hin
    exact ⟨h.ordered r hmem, h.replacement r hmem (Nat.le_trans hin.2 hsize)⟩

/-- What is made in a range is not empty and lies in the range. -/
theorem of_mem_keptIn {d : Draft} (hne : ∀ r ∈ d.replacements, r.span.start < r.span.stop)
    {range : Span} {r : Replacement} (hr : r ∈ d.keptIn range) :
    range.start ≤ r.span.start ∧ r.span.start < r.span.stop ∧ r.span.stop ≤ range.stop := by
  have hordered : ∀ r ∈ d.replacementsIn range, r.span.start ≤ r.span.stop :=
    fun r hr => Nat.le_of_lt (hne r (mem_replacementsIn.mp hr).1)
  rw [keptIn_eq_made hordered] at hr
  obtain ⟨hmem, hin⟩ := mem_replacementsIn.mp (le_start_of_mem_made hordered hr).2
  simp only [Replacement.isIn, Bool.and_eq_true, decide_eq_true_eq] at hin
  exact ⟨hin.1, hne r hmem, hin.2⟩

/-- **The cut law.** Where no replacement is empty and edits fall between characters, a slice can be
cut at every boundary inside of it that no replacement goes over, and the texts inserted at the cut
stand between its two parts. The whole of a text that is not empty stands between the texts inserted
at its ends. -/
theorem slice?_cut (d : Draft) (h : d.IsAligned)
    (hne : ∀ r ∈ d.replacements, r.span.start < r.span.stop) :
    (∀ a b c, Text.IsBoundary d.source.toList a → Text.IsBoundary d.source.toList b →
      Text.IsBoundary d.source.toList c → a < c → c < b →
      (∀ r ∈ d.replacements, r.span.encloses c = false) →
      ∃ left right, d.slice? ⟨a, c⟩ = some left ∧ d.slice? ⟨c, b⟩ = some right ∧
        d.slice? ⟨a, b⟩ = some (left ++ d.textsAt c ++ right)) ∧
    (d.source ≠ "" → ∃ inner, d.slice? ⟨0, d.source.utf8ByteSize⟩ = some inner ∧
      d.render? = some (d.textsAt 0 ++ inner ++ d.textsAt d.source.utf8ByteSize)) := by
  constructor
  · intro a b c ha hb hc hac hcb hopen
    have hcut : ∀ r ∈ d.replacements, r.span.stop ≤ c ∨ c ≤ r.span.start := by
      intro r hr
      have hr := hopen r hr
      simp only [Span.encloses, Bool.and_eq_false_iff, decide_eq_false_iff_not] at hr
      omega
    obtain ⟨left, hleft, hleftBytes⟩ :=
      h.exists_renderRange? ⟨a, c⟩ ha hc (Nat.le_of_lt hac) .interior
    obtain ⟨right, hright, hrightBytes⟩ :=
      h.exists_renderRange? ⟨c, b⟩ hc hb (Nat.le_of_lt hcb) .interior
    obtain ⟨whole, hwhole, hwholeBytes⟩ :=
      h.exists_renderRange? ⟨a, b⟩ ha hb (by dsimp only; omega) .interior
    -- Equal bytes are enough, and these are given by walks that can be cut at an offset.
    refine ⟨left, right, hleft, hright, hwhole.trans (congrArg some (Text.eq_of_bytes ?_))⟩
    rw [hwholeBytes, keptIn_append hne hcut (Nat.le_of_lt hac) (Nat.le_of_lt hcb),
      walked_cut _ hac hcb (fun r hr => (of_mem_keptIn hne hr).2)
        (fun q hq => (of_mem_keptIn hne hq).1)]
    simp only [String.toList_append, Text.bytes_append, hleftBytes, hrightBytes, bytes_textsAt]
  · intro hsource
    have hpos : 0 < d.source.utf8ByteSize := by
      rw [Nat.pos_iff_ne_zero]
      exact fun hzero => hsource (String.utf8ByteSize_eq_zero_iff.mp hzero)
    have hend : Text.IsBoundary d.source.toList d.source.utf8ByteSize := by
      rw [Text.utf8ByteSize_eq]
      exact Text.isBoundary_byteSize _
    obtain ⟨inner, hinner, hinnerBytes⟩ := h.exists_renderRange?
      ⟨0, d.source.utf8ByteSize⟩ (Text.isBoundary_zero _) hend (Nat.zero_le _) .interior
    obtain ⟨whole, hwhole, hwholeBytes⟩ := h.exists_renderRange?
      ⟨0, d.source.utf8ByteSize⟩ (Text.isBoundary_zero _) hend (Nat.zero_le _) .closed
    refine ⟨inner, hinner, hwhole.trans (congrArg some (Text.eq_of_bytes ?_))⟩
    rw [hwholeBytes, walked_closed _ hpos fun r hr => of_mem_keptIn hne hr]
    simp only [String.toList_append, Text.bytes_append, hinnerBytes, bytes_textsAt]

/-- Nested stretches before an offset and overlapping ones behind it, with insertions there, inside
of a stretch and at both ends. -/
def editsOnBothSides : Draft where
  source := "aébcd\n"
  edits := [.insert 3 "y", .replace ⟨1, 3⟩ "E", .replace ⟨0, 3⟩ "Z", .insert 1 "w",
    .replace ⟨4, 6⟩ "q", .replace ⟨5, 7⟩ "u", .insert 3 "z", .insert 7 ">", .insert 0 "<"]

/-- Both slices and the whole exist, and the whole is the two with the inserted texts between. -/
theorem slice?_cut_editsOnBothSides : editsOnBothSides.IsAligned ∧
    (∃ left right, editsOnBothSides.slice? ⟨0, 3⟩ = some left ∧
      editsOnBothSides.slice? ⟨3, 7⟩ = some right ∧
      editsOnBothSides.slice? ⟨0, 7⟩ = some (left ++ "yz" ++ right)) ∧
    ∃ inner, editsOnBothSides.slice? ⟨0, 7⟩ = some inner ∧
      editsOnBothSides.render? = some ("<" ++ inner ++ ">") := by
  have haligned : editsOnBothSides.IsAligned := by constructor <;> decide
  obtain ⟨hcut, hwhole⟩ := slice?_cut editsOnBothSides haligned (by decide)
  exact ⟨haligned, hcut 0 7 3 (by decide) (by decide) (by decide) (by decide) (by decide)
    (by decide),
    hwhole (by decide)⟩

end VueSetup.Draft
