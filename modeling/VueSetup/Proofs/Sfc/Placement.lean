import Mathlib.Data.List.Pairwise
import VueSetup.Proofs.Sfc.Parts

/-!
# VueSetup.Proofs.Sfc.Placement

The locations of the blocks of a file are sound, whatever the file. A block goes from its `<` over
its content to the end of its closing tag (`Block.extentStop`); its offsets cut out of the file what
they are said to (`Block.WellPlaced`), and two blocks have no byte in common (`Block.Apart`).

The main statement (`parse_wellPlaced`) adds what is known of the texts behind any other `<`:
reading ends by itself, and cuts between characters only.
-/

namespace VueSetup.Sfc

open Text (byteSize)

/-! ### The blocks of a descriptor

The slots of a descriptor hold the same blocks as the file, in another order. So what holds of any
two blocks is shown in the order of the file. -/

/-- All blocks of a descriptor, role by role. -/
def Descriptor.blocks (d : Descriptor) : List Block :=
  [Role.template, .script, .scriptSetup, .style, .custom].flatMap d.ofRole

namespace Descriptor

variable {bs : List Block} {d : Descriptor}

/-- A descriptor has the blocks of the file, each in a slot. -/
theorem mem_blocks_iff (h : ofBlocks bs = .ok d) {b : Block} : b ∈ d.blocks ↔ b ∈ bs := by
  simp only [blocks, List.mem_flatMap, ofRole_ofBlocks h, List.mem_filter, beq_iff_eq]
  constructor
  · rintro ⟨r, -, hb, -⟩
    exact hb
  · intro hb
    exact ⟨b.role, by cases b.role <;> simp, hb, rfl⟩

/-- What holds of any two blocks of a file, in whichever order, holds of any two of its
descriptor. -/
theorem pairwise_blocks {R : Block → Block → Prop} [Std.Symm R] (h : ofBlocks bs = .ok d)
    (hbs : bs.Pairwise R) : d.blocks.Pairwise R := by
  rw [blocks, List.pairwise_flatMap]
  constructor
  · intro r _
    rw [ofRole_ofBlocks h]
    exact hbs.filter _
  · have hroles : [Role.template, .script, .scriptSetup, .style, .custom].Pairwise (· ≠ ·) := by
      decide
    refine hroles.imp fun {r s} hne a ha b hb => ?_
    rw [ofRole_ofBlocks h, List.mem_filter, beq_iff_eq] at ha hb
    refine hbs.forall ha.1 hb.1 ?_
    rintro rfl
    exact hne (ha.2.symm.trans hb.2)

end Descriptor

/-! ### Where a block stands

All that is said of one block is said by its offsets alone, and by what they cut out of the file. -/

namespace Block

/-- The opening tag of a block. -/
def openingIn (b : Block) (source : List Char) : List Char :=
  Text.between source b.location.tagStart b.location.start

/-- The offset behind a block: behind its closing tag, unless its opening tag closes itself. -/
def extentStop (b : Block) (source : List Char) : Nat :=
  if SelfClosed (b.openingIn source) then b.location.stop
  else b.location.stop + byteSize (closingTag b.tag)

/-- The offsets of a block cut out of the file what they are said to. -/
structure WellPlaced (b : Block) (source : List Char) : Prop where
  opens : Text.slice? source b.location.tagStart (b.location.tagStart + 1) = some ['<']
  tagStart_lt : b.location.tagStart < b.location.start
  start_le : b.location.start ≤ b.location.stop
  stop_le : b.location.stop ≤ byteSize source
  tagStart_boundary : Text.IsBoundary source b.location.tagStart
  start_boundary : Text.IsBoundary source b.location.start
  stop_boundary : Text.IsBoundary source b.location.stop
  content_eq : Text.slice? source b.location.start b.location.stop = some b.content.toList
  /-- The tag's name and the texts of its attributes stand in the opening tag. -/
  opening_eq : ∃ region, b.openingIn source = '<' :: b.tag.toList ++ region ∧
    ∀ entry ∈ b.attributes, ∀ text ∈ entryTexts entry, text <:+: region
  /-- The closing tag stands right behind the content, in whatever case. -/
  closing_eq : ¬ SelfClosed (b.openingIn source) →
    ∃ spelled, Text.slice? source b.location.stop (b.extentStop source) = some spelled ∧
      spelled.map Char.toLower = (closingTag b.tag).map Char.toLower
  /-- It is the first one, unless the block is a template. -/
  closing_first : sameName b.tag "template" = false →
    ¬ HoldsAnyCase (closingTag b.tag) b.content.toList

/-- A block covers its `<` at least. -/
theorem WellPlaced.tagStart_lt_extentStop {b : Block} {source : List Char}
    (h : b.WellPlaced source) :
    b.location.tagStart < b.extentStop source := by
  have hstop := Nat.lt_of_lt_of_le h.tagStart_lt h.start_le
  unfold extentStop
  split <;> omega

/-- Two blocks have no byte in common. -/
def Apart (source : List Char) (a b : Block) : Prop :=
  a.extentStop source ≤ b.location.tagStart ∨ b.extentStop source ≤ a.location.tagStart

instance (source : List Char) : Std.Symm (Apart source) where
  symm _ _ h := h.symm

end Block

namespace Part

variable {x : Part} {front rest source : List Char} {q : Place}

/-- The content starts behind the opening tag. -/
theorem start_blockAt (hq : q.offset = byteSize front) :
    (x.blockAt q).location.start = byteSize (front ++ x.opening) := by
  rw [Text.byteSize_append, ← hq]
  rfl

/-- The content ends behind itself. -/
theorem stop_blockAt (hq : q.offset = byteSize front) :
    (x.blockAt q).location.stop = byteSize (front ++ x.opening) + byteSize x.content := by
  rw [← start_blockAt hq]
  exact Closing.offset_over _ _

/-- The opening tag stands between its offsets. -/
theorem slice?_opening (hq : q.offset = byteSize front)
    (hsource : source = front ++ (x.opening ++ x.content ++ x.closing ++ rest)) :
    Text.slice? source (x.blockAt q).location.tagStart (x.blockAt q).location.start =
      some x.opening := by
  refine Text.slice?_eq_some_iff.mpr ⟨front, x.content ++ x.closing ++ rest, ?_, hq.symm, rfl⟩
  rw [hsource]
  simp only [List.append_assoc]

/-- The opening tag is what the offsets cut out. -/
theorem openingIn_blockAt (hq : q.offset = byteSize front)
    (hsource : source = front ++ (x.opening ++ x.content ++ x.closing ++ rest)) :
    (x.blockAt q).openingIn source = x.opening := by
  rw [Block.openingIn, Text.between, slice?_opening hq hsource, Option.getD_some]

/-- The content stands between its offsets. -/
theorem slice?_content (hq : q.offset = byteSize front)
    (hsource : source = front ++ (x.opening ++ x.content ++ x.closing ++ rest)) :
    Text.slice? source (x.blockAt q).location.start (x.blockAt q).location.stop =
      some x.content := by
  refine Text.slice?_eq_some_iff.mpr ⟨front ++ x.opening, x.closing ++ rest, ?_,
    (start_blockAt hq).symm, ?_⟩
  · rw [hsource]
    simp only [List.append_assoc]
  · rw [start_blockAt hq, stop_blockAt hq]

/-- A block ends where the scan goes on. -/
theorem extentStop_blockAt (hx : x.Proper) (hq : q.offset = byteSize front)
    (hsource : source = front ++ (x.opening ++ x.content ++ x.closing ++ rest)) :
    (x.blockAt q).extentStop source = (x.behind q).offset := by
  rw [Block.extentStop, openingIn_blockAt hq hsource]
  split
  · next hclosed =>
    show (x.closed q).offset = (x.closed q).offset + byteSize x.closing
    rw [(hx.of_selfClosed hclosed).2]
    rfl
  · next hopen =>
    show (x.closed q).offset + byteSize (closingTag x.tag) =
      (x.closed q).offset + byteSize x.closing
    rw [byteSize_spelled (hx.of_not_selfClosed hopen).spelled]

/-- The block of a proper part is well placed, whatever stands around it. -/
theorem wellPlaced_blockAt (hx : x.Proper) (hq : q.offset = byteSize front)
    (hsource : source = front ++ (x.opening ++ x.content ++ x.closing ++ rest)) :
    (x.blockAt q).WellPlaced source := by
  obtain ⟨region, hopening, htexts⟩ := hx.opening_eq
  have hopen := slice?_opening hq hsource
  have hcontent := slice?_content hq hsource
  have hstop : Text.IsBoundary source (x.blockAt q).location.stop := by
    refine ⟨front ++ x.opening ++ x.content, x.closing ++ rest, ?_, ?_⟩
    · rw [hsource]
      simp only [List.append_assoc]
    · rw [stop_blockAt hq, Text.byteSize_append _ x.content]
  have hlt : 0 < byteSize x.opening := by
    have hsize : '<'.utf8Size = 1 := rfl
    rw [hopening, List.cons_append, Text.byteSize_cons, hsize]
    omega
  -- Each offset is the size of a front part of the source, which the texts of the part spell out.
  refine ⟨?_, ?_, ?_, hstop.le_byteSize, ?_, ?_, hstop, ?_, ?_, fun hself => ?_, fun hother => ?_⟩
  · refine Text.slice?_eq_some_iff.mpr ⟨front,
      x.tag.toList ++ region ++ x.content ++ x.closing ++ rest, ?_, hq.symm, rfl⟩
    rw [hsource, hopening]
    simp
  · rw [← Text.byteSize_slice? hopen]
    omega
  · rw [← Text.byteSize_slice? hcontent]
    omega
  · exact ⟨front, _, hsource, hq.symm⟩
  · exact ⟨front ++ x.opening, x.content ++ x.closing ++ rest, by rw [hsource]; simp,
      (start_blockAt hq).symm⟩
  · rw [hcontent]
    exact congrArg some String.toList_ofList.symm
  · exact ⟨region, (openingIn_blockAt hq hsource).trans hopening, htexts⟩
  · refine ⟨x.closing, Text.slice?_eq_some_iff.mpr ⟨front ++ x.opening ++ x.content, rest, ?_, ?_,
      ?_⟩,
      ?_⟩
    · rw [hsource]
      simp only [List.append_assoc]
    · rw [stop_blockAt hq, Text.byteSize_append _ x.content]
    · rw [extentStop_blockAt hx hq hsource]
      rfl
    · rw [openingIn_blockAt hq hsource] at hself
      exact (hx.of_not_selfClosed hself).spelled
  · show ¬ HoldsAnyCase (closingTag x.tag) (String.ofList x.content).toList
    rw [String.toList_ofList]
    by_cases hself : SelfClosed x.opening
    · rw [(hx.of_selfClosed hself).1]
      simp [HoldsAnyCase, closingTag]
    · exact (hx.of_not_selfClosed hself).first hother

end Part

/-- The blocks of parts stand where the parts do, one behind the other. -/
theorem wellPlaced_placed {xs : List Part} (hxs : ∀ x ∈ xs, x.Proper) {p : Place}
    {front tail source : List Char} (hp : p.offset = byteSize front)
    (hsource : source = front ++ (xs.flatMap Part.text ++ tail)) :
    (∀ b ∈ placed p xs, b.WellPlaced source ∧ p.offset ≤ b.location.tagStart) ∧
      (placed p xs).Pairwise fun a b => a.extentStop source ≤ b.location.tagStart := by
  induction xs generalizing p front with
  | nil => exact ⟨by simp [placed], List.Pairwise.nil⟩
  | cons x xs ih =>
    have hx := hxs x List.mem_cons_self
    have hq : (p.over x.gap).offset = byteSize (front ++ x.gap) := by
      rw [Place.offset_over, hp, Text.byteSize_append]
    have hhere : source = front ++ x.gap ++
        (x.opening ++ x.content ++ x.closing ++ (xs.flatMap Part.text ++ tail)) := by
      rw [hsource]
      simp [Part.text]
    have hbehind : (x.behind (p.over x.gap)).offset = byteSize (front ++ x.text) := by
      rw [Part.offset_behind, hq]
      simp only [Part.text, Text.byteSize_append]
      omega
    obtain ⟨hplaced, hordered⟩ := ih (fun y hy => hxs y (List.mem_cons_of_mem _ hy)) hbehind
      (by rw [hsource]; simp [Part.text])
    have hgap : p.offset ≤ (p.over x.gap).offset := by
      rw [Place.offset_over]
      omega
    have hthrough : (p.over x.gap).offset ≤ (x.behind (p.over x.gap)).offset := by
      rw [Part.offset_behind]
      omega
    constructor
    · intro b hb
      rcases List.mem_cons.mp hb with rfl | hb
      · exact ⟨Part.wellPlaced_blockAt hx hq hhere, hgap⟩
      · exact ⟨(hplaced b hb).1, Nat.le_trans (Nat.le_trans hgap hthrough) (hplaced b hb).2⟩
    · refine List.Pairwise.cons (fun b hb => ?_) hordered
      rw [Part.extentStop_blockAt hx hq hhere]
      exact (hplaced b hb).2

/-- Blocks are found in the order of the file, and apart from each other. -/
theorem wellPlaced_blocks (source : String) :
    (∀ b ∈ blocks source, b.WellPlaced source.toList) ∧
      (blocks source).Pairwise fun a b => a.extentStop source.toList ≤ b.location.tagStart := by
  obtain ⟨xs, tail, hxs, hsource, hblocks⟩ := cut_blocks source
  obtain ⟨hplaced, hordered⟩ := @wellPlaced_placed xs hxs ⟨0, 1, 1⟩ [] tail _ rfl hsource
  rw [hblocks]
  exact ⟨fun b hb => (hplaced b hb).1, hordered⟩

/-- The blocks of a file are in the order in which they start. -/
theorem pairwise_tagStart_blocks (source : String) :
    (blocks source).Pairwise fun a b => a.location.tagStart < b.location.tagStart := by
  obtain ⟨hplaced, hordered⟩ := wellPlaced_blocks source
  refine hordered.imp_of_mem fun {a b} ha _ hab => Nat.lt_of_lt_of_le ?_ hab
  exact (hplaced a ha).tagStart_lt_extentStop

/-! ### Any file

The texts behind any `<` are spoken of here, as the scan reads each of them as if it were a tag. -/

/-- What is read of the text behind a `<` of a file, be it a tag or not. -/
structure ReadsWhole (source behind : List Char) : Prop where
  /-- Reading ends by itself. -/
  ends : ∃ rest, ∀ n, behind.length < n →
    readAttributes n [] (behind.dropWhile isNameChar) =
      (Attributes.insertAll [] (tagEntries behind), rest)
  /-- The name and the texts of the attributes are slices of the file. -/
  exists_slice? : ∀ text ∈ tagTexts behind, ∃ a b, Text.slice? source a b = some text
  /-- Read from byte to byte, their bytes are cut out. -/
  bytewise : tagTexts (Text.byteChars behind) = (tagTexts behind).map Text.byteChars

/-- What stands behind a `<` is read whole, wherever it stands. -/
theorem readsWhole (before behind : List Char) : ReadsWhole (before ++ '<' :: behind) behind := by
  refine ⟨exists_readAttributes_eq behind, fun text htext => ?_, tagTexts_byteChars behind⟩
  have hinfix : text <:+: before ++ '<' :: behind :=
    ((infix_of_mem_tagTexts htext).trans (List.suffix_cons '<' behind).isInfix).trans
      (List.suffix_append _ _).isInfix
  obtain ⟨front, rest, hsource⟩ := hinfix
  exact ⟨_, _, Text.slice?_eq_some_iff.mpr ⟨front, rest, hsource.symm, rfl, rfl⟩⟩

/-- **The locations of a file's blocks are sound.** The scan ends by itself and cuts between
characters only; where it gives a descriptor, each block stands where its offsets say, no two blocks
have a byte in common, and styles and blocks of other names are listed in the order of the file. -/
theorem parse_wellPlaced (source : String) :
    (∀ n, source.toList.length < n → blocksFrom n ⟨0, 1, 1⟩ source.toList = blocks source) ∧
    (∀ before behind, source.toList = before ++ '<' :: behind → ReadsWhole source.toList behind) ∧
    (∀ b ∈ blocks source,
      Text.slice? source.toList b.location.start b.location.stop = some b.content.toList) ∧
    ∀ d, Descriptor.parse source = .ok d →
      (∀ b ∈ d.blocks, b.WellPlaced source.toList) ∧
      d.blocks.Pairwise (Block.Apart source.toList) ∧
      d.styles.Pairwise (fun a b => a.location.tagStart < b.location.tagStart) ∧
      d.customBlocks.Pairwise (fun a b => a.location.tagStart < b.location.tagStart) := by
  obtain ⟨hplaced, hordered⟩ := wellPlaced_blocks source
  refine ⟨fun n hn => blocksFrom_eq_of_lt hn (Nat.lt_succ_self _) _, fun before behind hsplit => ?_,
    fun b hb => (hplaced b hb).content_eq, fun d hd => ?_⟩
  · rw [hsplit]
    exact readsWhole before behind
  · have hrole : ∀ r, (d.ofRole r).Pairwise fun a b =>
      a.location.tagStart < b.location.tagStart := by
      intro r
      rw [Descriptor.ofRole_ofBlocks hd]
      exact (pairwise_tagStart_blocks source).filter _
    exact ⟨fun b hb => hplaced b ((Descriptor.mem_blocks_iff hd).mp hb),
      Descriptor.pairwise_blocks hd (hordered.imp Or.inl), hrole .style, hrole .custom⟩

/-- A file with texts outside of ASCII: behind a comment, two tags that are none, a style that holds
nearly its closing tag, a style that closes itself, and a block of another name. -/
def brokenFile : String :=
  "é<!-- <a> -->\n<x é=ü / <b>\n<STYLE a='>' b=ü>p</style >q</Style><style/><i18n>é</i18n>"

theorem parse_brokenFile :
    Descriptor.parse brokenFile = .ok {
      styles := [⟨"STYLE", [("a", ">"), ("b", "ü")], "p</style >q", ⟨30, 48, 59, 3, 1, 3, 37⟩⟩,
        ⟨"style", [], "", ⟨67, 75, 75, 3, 37, 3, 8⟩⟩]
      customBlocks := [⟨"i18n", [], "é", ⟨75, 81, 83, 3, 8, 3, 15⟩⟩] } := by
  rfl

theorem parse_wellPlaced_brokenFile :
    (∃ before behind, brokenFile.toList = before ++ '<' :: behind ∧ "ü".toList ∈ tagTexts behind ∧
      ReadsWhole brokenFile.toList behind) ∧
    ∃ d, Descriptor.parse brokenFile = .ok d ∧
      d.blocks.map (·.location.extent) = [⟨30, 48, 59⟩, ⟨67, 75, 75⟩, ⟨75, 81, 83⟩] ∧
      (∀ b ∈ d.blocks, b.WellPlaced brokenFile.toList) ∧
      d.blocks.Pairwise (Block.Apart brokenFile.toList) := by
  obtain ⟨-, hread, -, hplaced⟩ := parse_wellPlaced brokenFile
  have hsplit : brokenFile.toList = "é<!-- <a> -->\n".toList ++ '<' ::
      "x é=ü / <b>\n<STYLE a='>' b=ü>p</style >q</Style><style/><i18n>é</i18n>".toList := by
    decide
  obtain ⟨hblocks, happart, -⟩ := hplaced _ parse_brokenFile
  exact ⟨⟨_, _, hsplit, by decide, hread _ _ hsplit⟩, _, parse_brokenFile, rfl, hblocks, happart⟩

end VueSetup.Sfc
