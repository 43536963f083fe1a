import VueSetup.Text.Blank
import VueSetup.Proofs.Sfc.Placement

/-!
# VueSetup.Proofs.Sfc.Position

When the lines and columns of a block are true. The scan does not count the line feeds inside of an
opening tag, and where the content of a block has no line feed it counts the column behind the block
from the block's own `<`, and from 0. Each of the four numbers is true exactly where neither matters
(`parse_position_iff`): a line, if no opening tag before it holds a line feed; the column of a
block's start, if a line feed stands behind every opening tag before it; the column of its end, if
its content holds a line feed.
-/

namespace VueSetup.Text

/-! ### Lines and columns

Lines and columns are counted in the text before an offset: its line feeds, and the bytes behind the
last of them. -/

/-- The line that an offset stands on, counted from 1. -/
def lineAt (cs : List Char) (n : Nat) : Nat :=
  1 + feeds (between cs 0 n)

/-- The offset right behind the last line feed before the given one. -/
def lineStart (cs : List Char) (n : Nat) : Nat :=
  byteSize (dropEndWhile (· != '\n') (between cs 0 n))

/-- The column of an offset in bytes, counted from 1. -/
def columnAt (cs : List Char) (n : Nat) : Nat :=
  n - lineStart cs n + 1

/-- What stands behind the last line feed. -/
def lastLine (cs : List Char) : List Char :=
  (cs.reverse.takeWhile (· != '\n')).reverse

/-- A text is its lines but the last, with their line feeds, and the last one. -/
theorem dropEndWhile_append_lastLine (cs : List Char) :
    dropEndWhile (· != '\n') cs ++ lastLine cs = cs := by
  rw [dropEndWhile, lastLine, ← List.reverse_append, List.takeWhile_append_dropWhile,
    List.reverse_reverse]

/-- The text before the offset behind a front part is that part. -/
theorem between_front (as bs : List Char) : between (as ++ bs) 0 (byteSize as) = as := by
  have hmiddle := between_middle [] as bs
  rwa [List.nil_append, byteSize_nil, Nat.zero_add] at hmiddle

/-- The line behind a front part. -/
theorem lineAt_append (as bs : List Char) : lineAt (as ++ bs) (byteSize as) = 1 + feeds as := by
  rw [lineAt, between_front]

/-- The column behind a front part. -/
theorem columnAt_append (as bs : List Char) :
    columnAt (as ++ bs) (byteSize as) = byteSize (lastLine as) + 1 := by
  have hsize := congrArg byteSize (dropEndWhile_append_lastLine as)
  rw [byteSize_append] at hsize
  rw [columnAt, lineStart, between_front]
  omega

/-- There is no line feed in the last line. -/
theorem notMem_lastLine (cs : List Char) : '\n' ∉ lastLine cs := by
  intro h
  exact absurd (List.all_eq_true.mp List.all_takeWhile _ (List.mem_reverse.mp h)) (by decide)

/-- A line feed starts the last line anew. -/
theorem lastLine_append_of_mem {bs : List Char} (h : '\n' ∈ bs) (as : List Char) :
    lastLine (as ++ bs) = lastLine bs := by
  rw [lastLine, lastLine, List.reverse_append, List.takeWhile_append, if_neg]
  intro hlength
  have hall := List.takeWhile_sublist _ |>.eq_of_length hlength
  have hfeed : '\n' ∈ bs.reverse.takeWhile (· != '\n') := by
    rw [hall]
    exact List.mem_reverse.mpr h
  exact absurd (List.all_eq_true.mp List.all_takeWhile _ hfeed) (by decide)

/-- Without a line feed the last line goes on. -/
theorem lastLine_append_of_notMem {bs : List Char} (h : '\n' ∉ bs) (as : List Char) :
    lastLine (as ++ bs) = lastLine as ++ bs := by
  have hall : ∀ c ∈ bs.reverse, (c != '\n') = true := by
    intro c hc
    rw [bne_iff_ne]
    rintro rfl
    exact h (List.mem_reverse.mp hc)
  rw [lastLine, lastLine, List.reverse_append, List.takeWhile_append_of_pos hall,
    List.reverse_append, List.reverse_reverse]

/-- The last line stands behind a line feed, if there is one. -/
theorem exists_eq_append_lastLine {cs : List Char} (h : '\n' ∈ cs) :
    ∃ as, cs = as ++ '\n' :: lastLine cs := by
  obtain ⟨bs, as, hcs, hbs⟩ := List.eq_append_cons_of_mem (List.mem_reverse.mpr h)
  have hsplit : cs = as.reverse ++ '\n' :: bs.reverse := by
    rw [← List.reverse_reverse cs, hcs]
    simp
  have hlast : lastLine (as.reverse ++ '\n' :: bs.reverse) = bs.reverse := by
    rw [lastLine_append_of_mem List.mem_cons_self, ← List.singleton_append,
      lastLine_append_of_notMem (by simpa using hbs)]
    rfl
  exact ⟨as.reverse, by rw [hsplit, hlast]⟩

end VueSetup.Text

namespace VueSetup.Sfc

open Text (byteSize feeds lastLine)

/-! ### What is counted over a text

The scan carries a line and a column along. The line is true behind a text if it was before; the
column is true behind a line feed in any case. -/

/-- Line feeds are counted over a text. -/
theorem Place.line_over (p : Place) (cs : List Char) : (p.over cs).line = p.line + feeds cs := by
  induction cs generalizing p with
  | nil => rfl
  | cons c cs ih =>
    rw [show p.over (c :: cs) = (p.advance c).over cs from rfl, ih, Place.advance]
    split
    · next hc =>
      rw [hc, Text.feeds_cons_feed]
      exact Nat.add_right_comm _ _ _
    · next hc => rw [Text.feeds_cons hc]

/-- Over a text without a line feed the column grows by its bytes. -/
theorem Place.column_over_of_notMem {cs : List Char} (h : '\n' ∉ cs) (p : Place) :
    (p.over cs).column = p.column + byteSize cs := by
  induction cs generalizing p with
  | nil => rfl
  | cons c cs ih =>
    rw [List.mem_cons, not_or] at h
    rw [show p.over (c :: cs) = (p.advance c).over cs from rfl, ih h.2, Place.advance,
      if_neg (Ne.symm h.1), Text.byteSize_cons, Nat.add_assoc]

/-- The column is true behind a line feed, and as long as it was. -/
theorem Place.column_over_iff (p : Place) (front cs : List Char) :
    (p.over cs).column = byteSize (lastLine (front ++ cs)) + 1 ↔
      '\n' ∈ cs ∨ p.column = byteSize (lastLine front) + 1 := by
  by_cases h : '\n' ∈ cs
  · obtain ⟨as, has⟩ := Text.exists_eq_append_lastLine h
    have hline : '\n' ∉ lastLine cs := Text.notMem_lastLine cs
    have hover : p.over cs = ((p.over as).advance '\n').over (lastLine cs) := by
      conv => lhs; rw [has, Place.over_append]
      rfl
    rw [Text.lastLine_append_of_mem h, hover, Place.column_over_of_notMem hline]
    simp only [Place.advance, if_true, h, true_or, iff_true]
    omega
  · rw [Text.lastLine_append_of_notMem h, Place.column_over_of_notMem h, Text.byteSize_append]
    simp only [h, false_or]
    omega

/-- They are counted over a content too. -/
theorem Closing.line_over (p : Closing) (cs : List Char) : (p.over cs).line =
    p.line + feeds cs := by
  induction cs generalizing p with
  | nil => rfl
  | cons c cs ih =>
    rw [show p.over (c :: cs) = (p.advance c).over cs from rfl, ih, Closing.advance]
    dsimp only
    split
    · next hc =>
      rw [hc, Text.feeds_cons_feed]
      omega
    · next hc => rw [Text.feeds_cons hc]

/-- A content without a line feed leaves the last one where it was. -/
theorem Closing.lineFeed_over_of_notMem {cs : List Char} (h : '\n' ∉ cs) (p : Closing) :
    (p.over cs).lineFeed = p.lineFeed := by
  induction cs generalizing p with
  | nil => rfl
  | cons c cs ih =>
    rw [List.mem_cons, not_or] at h
    rw [show p.over (c :: cs) = (p.advance c).over cs from rfl, ih h.2]
    exact if_neg (Ne.symm h.1)

/-- Else the last line feed stands right before the last line. -/
theorem Closing.lineFeed_over_of_mem {cs : List Char} (h : '\n' ∈ cs) (p : Closing) :
    (p.over cs).lineFeed + 1 + byteSize (lastLine cs) = (p.over cs).offset := by
  obtain ⟨as, has⟩ := Text.exists_eq_append_lastLine h
  have hover : p.over cs = ((p.over as).advance '\n').over (lastLine cs) := by
    conv => lhs; rw [has, Closing.over, List.foldl_append]
    rfl
  rw [hover, Closing.lineFeed_over_of_notMem (Text.notMem_lastLine cs), Closing.offset_over]
  rfl

/-! ### Behind a block

Two things go wrong in a block: the line feeds of its opening tag are left out, and the column
behind it is counted from its `<` unless its content holds a line feed. -/

/-- A closing tag holds no line feed. -/
theorem Part.Proper.notMem_closing {x : Part} (hx : x.Proper) : '\n' ∉ x.closing := by
  intro hmem
  by_cases hself : SelfClosed x.opening
  · rw [(hx.of_selfClosed hself).2] at hmem
    cases hmem
  · have hlower := List.mem_map_of_mem (f := Char.toLower) hmem
    rw [(hx.of_not_selfClosed hself).spelled] at hlower
    obtain ⟨c, hc, hfeed⟩ := List.mem_map.mp hlower
    obtain rfl : c = '\n' := Text.eq_of_toLower_eq hfeed (by decide)
    simp only [closingTag, List.mem_append, List.mem_singleton] at hc
    rcases hc with (hc | hc) | hc
    · exact absurd hc (by decide)
    · exact absurd (hx.tag_chars _ hc) (by decide)
    · exact absurd hc (by decide)

/-- The line feeds of the opening tag are not counted. -/
theorem Part.line_behind (x : Part) (q : Place) : (x.behind q).line = q.line + feeds x.content :=
  Closing.line_over _ _

/-- No line starts right behind the `<` of a block. -/
theorem Part.Proper.byteSize_lastLine_opening_ne {x : Part} (hx : x.Proper) (front : List Char) :
    byteSize (lastLine (front ++ x.opening)) + 1 ≠ byteSize x.opening := by
  obtain ⟨region, hopening, -⟩ := hx.opening_eq
  by_cases h : '\n' ∈ x.opening
  · obtain ⟨as, has⟩ := Text.exists_eq_append_lastLine h
    rw [Text.lastLine_append_of_mem h]
    cases as with
    | nil =>
      rw [hopening] at has
      exact absurd (List.cons.inj has).1 (by decide)
    | cons c as =>
      have hpos := c.utf8Size_pos
      have hfeed : '\n'.utf8Size = 1 := rfl
      have hsize := congrArg byteSize has
      rw [List.cons_append, Text.byteSize_cons, Text.byteSize_append, Text.byteSize_cons, hfeed]
        at hsize
      omega
  · rw [Text.lastLine_append_of_notMem h, Text.byteSize_append]
    omega

/-- **The column behind a block is true exactly if its content holds a line feed.** -/
theorem Part.column_behind_iff {x : Part} (hx : x.Proper) (q : Place) (front : List Char) :
    (x.behind q).column =
        byteSize (lastLine (front ++ x.opening ++ x.content ++ x.closing)) + 1 ↔
      '\n' ∈ x.content := by
  have hcolumn : (x.behind q).column =
      (x.closed q).offset - (x.closed q).lineFeed + byteSize x.closing := rfl
  rw [Text.lastLine_append_of_notMem hx.notMem_closing, Text.byteSize_append, hcolumn]
  by_cases h : '\n' ∈ x.content
  · have hfeed : (x.closed q).lineFeed + 1 + byteSize (lastLine x.content) = (x.closed q).offset :=
      Closing.lineFeed_over_of_mem h _
    rw [Text.lastLine_append_of_mem h]
    simp only [h, iff_true]
    omega
  · -- then it is counted from the `<`, where no line starts
    have hfeed : (x.closed q).lineFeed = q.offset := Closing.lineFeed_over_of_notMem h _
    have hoffset : (x.closed q).offset = q.offset + byteSize x.opening + byteSize x.content :=
      Closing.offset_over _ _
    have hne := hx.byteSize_lastLine_opening_ne front
    rw [Text.lastLine_append_of_notMem h, Text.byteSize_append]
    simp only [h, iff_false]
    omega

/-! ### Behind all blocks so far

What goes wrong with lines adds up over the blocks. The column is set right by each line feed that
is counted. -/

/-- The lines behind parts fall short by the line feeds of their opening tags. -/
theorem line_behindAll {xs : List Part} (hxs : ∀ x ∈ xs, x.Proper) (p : Place) :
    (behindAll p xs).line + feeds (xs.flatMap Part.opening) =
      p.line + feeds (xs.flatMap Part.text) := by
  induction xs generalizing p with
  | nil => rfl
  | cons x xs ih =>
    have hrest := ih (fun y hy => hxs y (List.mem_cons_of_mem _ hy)) (x.behind (p.over x.gap))
    have hclosing : feeds x.closing = 0 :=
      List.count_eq_zero.mpr (hxs x List.mem_cons_self).notMem_closing
    rw [Part.line_behind, Place.line_over] at hrest
    simp only [behindAll, List.flatMap_cons, Part.text, Text.feeds_append]
    omega

/-- The column behind parts is true exactly if the content of the last one holds a line feed. -/
theorem column_behindAll_iff {xs : List Part} (hxs : ∀ x ∈ xs, x.Proper) :
    (behindAll ⟨0, 1, 1⟩ xs).column = byteSize (lastLine (xs.flatMap Part.text)) + 1 ↔
      ∀ x ∈ xs.getLast?, '\n' ∈ x.content := by
  rcases List.eq_nil_or_concat xs with rfl | ⟨ys, y, rfl⟩
  · exact iff_of_true rfl (by simp)
  · rw [List.concat_eq_append] at hxs ⊢
    have hy := hxs y (by simp)
    have htext : (ys ++ [y]).flatMap Part.text =
        ys.flatMap Part.text ++ y.gap ++ y.opening ++ y.content ++ y.closing := by
      simp [Part.text]
    rw [behindAll_concat, htext, Part.column_behind_iff hy]
    simp

/-! ### Where the blocks before stand

The conditions speak of the blocks that start before the given one, which are those of the parts
before its own. -/

/-- A placed block is that of a part, behind the parts before it. -/
theorem exists_of_mem_placed {p : Place} {xs : List Part} {b : Block} (h : b ∈ placed p xs) :
    ∃ as x ys, xs = as ++ x :: ys ∧ b = x.blockAt ((behindAll p as).over x.gap) := by
  obtain ⟨before, behind, hsplit⟩ := List.append_of_mem h
  obtain ⟨as, x, ys, hxs, -, hb⟩ := exists_of_placed_eq hsplit
  exact ⟨as, x, ys, hxs, hb⟩

/-- Each part has its block among those placed. -/
theorem mem_placed (p : Place) (as : List Part) (x : Part) (ys : List Part) :
    x.blockAt ((behindAll p as).over x.gap) ∈ placed p (as ++ x :: ys) := by
  induction as generalizing p with
  | nil => exact List.mem_cons_self
  | cons a as ih => exact List.mem_cons_of_mem _ (ih _)

/-- The block of the last part comes last. -/
theorem placed_concat (p : Place) (as : List Part) (x : Part) :
    placed p (as ++ [x]) = placed p as ++ [x.blockAt ((behindAll p as).over x.gap)] := by
  induction as generalizing p with
  | nil => rfl
  | cons a as ih => exact congrArg (List.cons _) (ih _)

/-- A part stands behind those before it. -/
theorem offset_over_behindAll (as : List Part) (gap : List Char) :
    ((behindAll ⟨0, 1, 1⟩ as).over gap).offset = byteSize (as.flatMap Part.text ++ gap) := by
  rw [Place.offset_over, offset_behindAll, Text.byteSize_append, Nat.zero_add]

section

variable {as : List Part} {x : Part} {gap rest source : List Char}

/-- What stands from the content of a part on. -/
theorem between_start {ys : List Part}
    (hsource : source = (as ++ x :: ys).flatMap Part.text ++ gap ++ rest) :
    Text.between source (x.blockAt ((behindAll ⟨0, 1, 1⟩ as).over x.gap)).location.start
        (byteSize ((as ++ x :: ys).flatMap Part.text ++ gap)) =
      x.content ++ x.closing ++ ys.flatMap Part.text ++ gap := by
  have hmiddle := Text.between_middle (as.flatMap Part.text ++ x.gap ++ x.opening)
    (x.content ++ x.closing ++ ys.flatMap Part.text ++ gap) rest
  rw [Part.start_blockAt (offset_over_behindAll as x.gap), ← hmiddle, ← Text.byteSize_append,
    hsource]
  simp [Part.text]

/-- No block holds a line feed in its opening tag exactly if no part does. -/
theorem notMem_openingIn_iff (hsource : source = as.flatMap Part.text ++ rest) :
    (∀ a ∈ placed ⟨0, 1, 1⟩ as, '\n' ∉ a.openingIn source) ↔
      feeds (as.flatMap Part.opening) = 0 := by
  have hopening : ∀ {bs : List Part} {x : Part} {ys : List Part}, as = bs ++ x :: ys →
      (x.blockAt ((behindAll ⟨0, 1, 1⟩ bs).over x.gap)).openingIn source = x.opening := by
    intro bs x ys has
    refine @Part.openingIn_blockAt x _ (ys.flatMap Part.text ++ rest) _ _
      (offset_over_behindAll bs x.gap) ?_
    rw [hsource, has]
    simp [Part.text]
  rw [Text.feeds, List.count_eq_zero, List.mem_flatMap]
  constructor
  · rintro h ⟨x, hx, hfeed⟩
    obtain ⟨bs, ys, has⟩ := List.append_of_mem hx
    refine h (x.blockAt ((behindAll ⟨0, 1, 1⟩ bs).over x.gap)) ?_ (by rwa [hopening has])
    rw [has]
    exact mem_placed _ bs x ys
  · intro h a ha hfeed
    obtain ⟨bs, x, ys, has, rfl⟩ := exists_of_mem_placed ha
    rw [hopening has] at hfeed
    exact h ⟨x, by simp [has], hfeed⟩

/-- A line feed stands behind every opening tag exactly if one stands behind the last. -/
theorem mem_between_iff (has : ∀ y ∈ as, y.Proper)
    (hsource : source = as.flatMap Part.text ++ gap ++ rest) :
    (∀ a ∈ placed ⟨0, 1, 1⟩ as, '\n' ∈ Text.between source a.location.start
        (byteSize (as.flatMap Part.text ++ gap))) ↔
      '\n' ∈ gap ∨ ∀ y ∈ as.getLast?, '\n' ∈ y.content := by
  constructor
  · intro h
    rcases List.eq_nil_or_concat as with rfl | ⟨bs, y, rfl⟩
    · exact .inr (by simp)
    · rw [List.concat_eq_append] at *
      have hlast := h _ (mem_placed _ bs y [])
      rw [between_start hsource] at hlast
      have hclosing := (has y (by simp)).notMem_closing
      simp only [List.flatMap_nil, List.append_nil, List.mem_append, hclosing, or_false] at hlast
      exact hlast.symm.imp_right fun hy => by simpa using hy
  · intro h a ha
    obtain ⟨bs, x, ys, rfl, rfl⟩ := exists_of_mem_placed ha
    rw [between_start hsource]
    rcases h with h | h
    · exact List.mem_append_right _ h
    · refine List.mem_append_left _ ?_
      rcases List.eq_nil_or_concat ys with rfl | ⟨zs, z, rfl⟩
      · have hx := h x (by simp)
        simp [hx]
      · have hlast : bs ++ x :: zs.concat z = (bs ++ x :: zs) ++ [z] := by simp
        have hz := h z (by rw [hlast, List.getLast?_concat]; rfl)
        simp [Part.text, hz]

/-! ### One block among others

Of one part with others before it, each number is compared with the text. -/

/-- Where a block starts, by the blocks before it. -/
theorem start_position_iff (has : ∀ y ∈ as, y.Proper)
    (hsource : source = as.flatMap Part.text ++ x.gap ++ rest) :
    let b := x.blockAt ((behindAll ⟨0, 1, 1⟩ as).over x.gap)
    (b.location.startLine = Text.lineAt source b.location.tagStart ↔
      ∀ a ∈ placed ⟨0, 1, 1⟩ as, '\n' ∉ a.openingIn source) ∧
    (b.location.startColumn = Text.columnAt source b.location.tagStart ↔
      ∀ a ∈ placed ⟨0, 1, 1⟩ as,
        '\n' ∈ Text.between source a.location.start b.location.tagStart) := by
  intro b
  have hoffset : b.location.tagStart = byteSize (as.flatMap Part.text ++ x.gap) :=
    offset_over_behindAll as x.gap
  have hline : b.location.startLine = (behindAll ⟨0, 1, 1⟩ as).line + feeds x.gap :=
    Place.line_over _ _
  have hlines := line_behindAll has ⟨0, 1, 1⟩
  rw [hoffset]
  constructor
  · rw [notMem_openingIn_iff (hsource.trans (List.append_assoc _ _ _)), hsource, Text.lineAt_append,
      Text.feeds_append, hline]
    dsimp only at hlines
    omega
  · rw [mem_between_iff has hsource, hsource, Text.columnAt_append, ← column_behindAll_iff has]
    exact Place.column_over_iff _ _ _

/-- Where a block ends, by the blocks up to it. -/
theorem stop_position_iff (has : ∀ y ∈ as ++ [x], y.Proper)
    (hsource : source = (as ++ [x]).flatMap Part.text ++ rest) :
    let b := x.blockAt ((behindAll ⟨0, 1, 1⟩ as).over x.gap)
    (b.location.stopLine = Text.lineAt source (b.extentStop source) ↔
      ∀ a ∈ placed ⟨0, 1, 1⟩ (as ++ [x]), '\n' ∉ a.openingIn source) ∧
    (b.location.stopColumn = Text.columnAt source (b.extentStop source) ↔
      '\n' ∈ b.content.toList) := by
  intro b
  have hhere : source = as.flatMap Part.text ++ x.gap ++
      (x.opening ++ x.content ++ x.closing ++ rest) := by
    rw [hsource]
    simp [Part.text]
  have hextent : b.extentStop source = byteSize ((as ++ [x]).flatMap Part.text) := by
    rw [Part.extentStop_blockAt (has x (by simp)) (offset_over_behindAll as x.gap) hhere,
      ← behindAll_concat, offset_behindAll, Nat.zero_add]
  have hline : b.location.stopLine = (behindAll ⟨0, 1, 1⟩ (as ++ [x])).line := by
    rw [behindAll_concat]
    rfl
  have hcolumn : b.location.stopColumn = (behindAll ⟨0, 1, 1⟩ (as ++ [x])).column := by
    rw [behindAll_concat]
    rfl
  have hcontent : b.content.toList = x.content := String.toList_ofList
  have hlines := line_behindAll has ⟨0, 1, 1⟩
  rw [hextent]
  constructor
  · rw [notMem_openingIn_iff hsource, hsource, Text.lineAt_append, hline]
    dsimp only at hlines
    omega
  · rw [hsource, Text.columnAt_append, hcolumn, column_behindAll_iff has, hcontent]
    simp

end

/-! ### Any file

Blocks come in the order in which they start, so that those up to a block can be told by their
offsets. -/

section

variable {before behind : List Block} {b : Block}
  (h : (before ++ b :: behind).Pairwise fun a b => a.location.tagStart < b.location.tagStart)
include h

/-- Of blocks in the order of the file, those that start before one stand before it. -/
theorem forall_before_iff (P : Block → Prop) :
    (∀ a ∈ before ++ b :: behind, a.location.tagStart < b.location.tagStart → P a) ↔
      ∀ a ∈ before, P a := by
  obtain ⟨-, hrest, hcross⟩ := List.pairwise_append.mp h
  constructor
  · exact fun hall a ha => hall a (List.mem_append_left _ ha) (hcross a ha b List.mem_cons_self)
  · intro hall a ha hlt
    rcases List.mem_append.mp ha with ha | ha
    · exact hall a ha
    · rcases List.mem_cons.mp ha with rfl | ha
      · omega
      · have hbehind := (List.pairwise_cons.mp hrest).1 a ha
        omega

/-- Those that start no later than a block are that one and those before it. -/
theorem forall_upTo_iff (P : Block → Prop) :
    (∀ a ∈ before ++ b :: behind, a.location.tagStart ≤ b.location.tagStart → P a) ↔
      ∀ a ∈ before ++ [b], P a := by
  obtain ⟨-, hrest, hcross⟩ := List.pairwise_append.mp h
  constructor
  · intro hall a ha
    rcases List.mem_append.mp ha with ha | ha
    · exact hall a (List.mem_append_left _ ha) (Nat.le_of_lt (hcross a ha b List.mem_cons_self))
    · obtain rfl := List.mem_singleton.mp ha
      exact hall a (by simp) (Nat.le_refl _)
  · intro hall a ha hle
    rcases List.mem_append.mp ha with ha | ha
    · exact hall a (List.mem_append_left _ ha)
    · rcases List.mem_cons.mp ha with rfl | ha
      · exact hall a (by simp)
      · have hbehind := (List.pairwise_cons.mp hrest).1 a ha
        omega

end

/-- **When the lines and columns of a block are true.** -/
theorem parse_position_iff {source : String} {d : Descriptor} (hd : Descriptor.parse source = .ok d)
    {b : Block} (hb : b ∈ d.blocks) :
    (b.location.startLine = Text.lineAt source.toList b.location.tagStart ↔
      ∀ a ∈ d.blocks, a.location.tagStart < b.location.tagStart →
        '\n' ∉ a.openingIn source.toList) ∧
    (b.location.startColumn = Text.columnAt source.toList b.location.tagStart ↔
      ∀ a ∈ d.blocks, a.location.tagStart < b.location.tagStart →
        '\n' ∈ Text.between source.toList a.location.start b.location.tagStart) ∧
    (b.location.stopLine = Text.lineAt source.toList (b.extentStop source.toList) ↔
      ∀ a ∈ d.blocks, a.location.tagStart ≤ b.location.tagStart →
        '\n' ∉ a.openingIn source.toList) ∧
    (b.location.stopColumn = Text.columnAt source.toList (b.extentStop source.toList) ↔
      '\n' ∈ b.content.toList) := by
  obtain ⟨before, behind, hsplit⟩ := List.append_of_mem ((Descriptor.mem_blocks_iff hd).mp hb)
  obtain ⟨xs, tail, hxs, hsource, hblocks⟩ := cut_blocks source
  obtain ⟨as, x, ys, rfl, rfl, rfl⟩ := exists_of_placed_eq (hblocks.symm.trans hsplit)
  have hordered := pairwise_tagStart_blocks source
  rw [hsplit] at hordered
  have hmem : ∀ {P : Block → Prop}, (∀ a ∈ d.blocks, P a) ↔
      ∀ a ∈ placed ⟨0, 1, 1⟩ as ++ x.blockAt ((behindAll ⟨0, 1, 1⟩ as).over x.gap) :: behind,
        P a := by
    intro P
    simp only [Descriptor.mem_blocks_iff hd, hsplit]
  -- the file, cut right before the block and right behind it
  have hfront : source.toList = as.flatMap Part.text ++ x.gap ++
      (x.opening ++ x.content ++ x.closing ++ ys.flatMap Part.text ++ tail) := by
    rw [hsource]
    simp [Part.text]
  have hback : source.toList = (as ++ [x]).flatMap Part.text ++ (ys.flatMap Part.text ++ tail) := by
    rw [hsource]
    simp
  have hproper : ∀ y ∈ as ++ [x], y.Proper := by
    intro y hy
    refine hxs y ?_
    rw [← List.singleton_append, ← List.append_assoc]
    exact List.mem_append_left _ hy
  obtain ⟨hline, hcolumn⟩ :=
    start_position_iff (fun y hy => hproper y (List.mem_append_left _ hy)) hfront
  obtain ⟨hstopLine, hstopColumn⟩ := stop_position_iff hproper hback
  rw [placed_concat] at hstopLine
  rw [hmem, hmem, hmem]
  exact ⟨hline.trans (forall_before_iff hordered _).symm,
    hcolumn.trans (forall_before_iff hordered _).symm,
    hstopLine.trans (forall_upTo_iff hordered _).symm, hstopColumn⟩

/-- A file whose opening tags stand on one line each, and whose contents on several. -/
def openFile : String :=
  "<template>\n<p/>\n</template>\n\n<script setup>\nlet é\n</script>\n"

def openScript : Block :=
  ⟨"script", [("setup", "")], "\nlet é\n", ⟨29, 43, 51, 5, 1, 7, 10⟩⟩

def openDescriptor : Descriptor where
  template := some ⟨"template", [], "\n<p/>\n", ⟨0, 10, 16, 1, 1, 3, 12⟩⟩
  scriptSetup := some openScript

theorem parse_openFile : Descriptor.parse openFile = .ok openDescriptor := by
  rfl

theorem parse_position_iff_openFile :
    Descriptor.parse openFile = .ok openDescriptor ∧ openScript ∈ openDescriptor.blocks ∧
      openScript.location.startLine = Text.lineAt openFile.toList openScript.location.tagStart ∧
      openScript.location.startColumn = Text.columnAt openFile.toList openScript.location.tagStart ∧
      openScript.location.stopLine =
        Text.lineAt openFile.toList (openScript.extentStop openFile.toList) ∧
      openScript.location.stopColumn =
        Text.columnAt openFile.toList (openScript.extentStop openFile.toList) := by
  have hmem : openScript ∈ openDescriptor.blocks := by decide
  obtain ⟨hline, hcolumn, hstopLine, hstopColumn⟩ := parse_position_iff parse_openFile hmem
  exact ⟨parse_openFile, hmem, hline.mpr (by decide), hcolumn.mpr (by decide),
    hstopLine.mpr (by decide), hstopColumn.mpr (by decide)⟩

/-- A file with an opening tag on two lines, and two blocks without a line feed in their
contents. -/
def spreadFile : String :=
  "<script\n lang=\"ts\"></script>\n<style/>"

/-- The script is said to end on line 1 in column 28, and ends on line 2 in column 21; the style is
said to start on line 2 and to end in column 8, and starts on line 3 and ends in column 9. -/
theorem position_spreadFile :
    ∃ d script style, Descriptor.parse spreadFile = .ok d ∧ script ∈ d.blocks ∧ style ∈ d.blocks ∧
      (script.location.stopLine = 1 ∧
        Text.lineAt spreadFile.toList (script.extentStop spreadFile.toList) = 2) ∧
      (script.location.stopColumn = 28 ∧
        Text.columnAt spreadFile.toList (script.extentStop spreadFile.toList) = 21) ∧
      (style.location.startLine = 2 ∧
        Text.lineAt spreadFile.toList style.location.tagStart = 3) ∧
      (style.location.stopColumn = 8 ∧
        Text.columnAt spreadFile.toList (style.extentStop spreadFile.toList) = 9) := by
  refine ⟨{
      script := some ⟨"script", [("lang", "ts")], "", ⟨0, 19, 19, 1, 1, 1, 28⟩⟩
      styles := [⟨"style", [], "", ⟨29, 37, 37, 2, 1, 2, 8⟩⟩] },
    ⟨"script", [("lang", "ts")], "", ⟨0, 19, 19, 1, 1, 1, 28⟩⟩,
    ⟨"style", [], "", ⟨29, 37, 37, 2, 1, 2, 8⟩⟩, rfl, ?_⟩
  decide

end VueSetup.Sfc
