import VueSetup.Proofs.Sfc.Entries

/-!
# VueSetup.Proofs.Sfc.Parts

A file as a row of **parts**: a block, as its opening tag, its content and its closing tag stand in
the file, and the text before it. Whatever the file, the scan cuts it in such parts and a rest, and
the blocks that it finds are those of the parts, placed one behind the other (`cut_blocks`). All
that is said of where blocks stand follows from this.

A part is `Part.Proper` if the scan could have found it. Whether a tag closes itself can be told
from its text: it does exactly if it ends with `/>`, since a `/` that is not quoted ends the
attributes.
-/

namespace VueSetup.Sfc

open Text (byteSize)

/-! ### Opening tags

The text of an opening tag is cut in its name and the rest. The rest holds what is read of the
attributes, and its last characters tell whether a closing tag is looked for. -/

/-- The opening tag closes itself. -/
def SelfClosed (opening : List Char) : Prop :=
  ['/', '>'] <:+ opening

instance (opening : List Char) : Decidable (SelfClosed opening) :=
  inferInstanceAs (Decidable (_ <:+ _))

/-- Behind a text without a `/` at its end, a `>` does not close the tag. -/
theorem not_selfClosed {cs : List Char} (h : NotSlashed cs) : ¬ SelfClosed (cs ++ ['>']) := by
  rintro ⟨front, hfront⟩
  have hcs : front ++ ['/'] = cs := by
    refine @List.append_cancel_right _ _ ['>'] _ ?_
    simpa using hfront
  rw [← hcs, NotSlashed, List.getLast?_append] at h
  exact h rfl

/-- What follows the name of an opening tag holds the texts of the attributes, and tells whether the
tag closes itself. -/
structure OpenTag.IsFollowedBy (tag : OpenTag) (region : List Char) : Prop where
  name_chars : ∀ c ∈ tag.name.toList, isNameChar c = true
  texts : ∀ entry ∈ tag.attributes, ∀ text ∈ entryTexts entry, text <:+: region
  selfClosing_iff : tag.selfClosing = true ↔ SelfClosed ('<' :: tag.name.toList ++ region)

/-- An opening tag that is read is its name and what follows up to the rest. -/
theorem OpenTag.exists_region {cs : List Char} {tag : OpenTag} (h : OpenTag.read? cs = some tag) :
    ∃ region, cs = tag.name.toList ++ region ++ tag.rest ∧ tag.IsFollowedBy region := by
  unfold OpenTag.read? at h
  split at h
  · cases h
  · next name hne =>
    have hname : ∀ c ∈ cs.takeWhile isNameChar, isNameChar c = true :=
      List.all_eq_true.mp List.all_takeWhile
    have hsplit := @List.takeWhile_append_dropWhile _ isNameChar cs
    have hnot : NotSlashed ('<' :: cs.takeWhile isNameChar) :=
      @NotSlashed.append ['<'] _ (by simp [NotSlashed]) (notSlashed_takeWhile rfl cs)
    obtain ⟨read, hread⟩ := readEntries_readOff (cs.length + 1) (cs.dropWhile isNameChar)
    rw [readAttributes_eq_insertAll] at h
    -- attributes stand in what is read, whatever follows it
    have htexts : ∀ (tail : List Char),
        ∀ entry ∈ Attributes.insertAll [] (readEntries (cs.length + 1) (cs.dropWhile isNameChar)).1,
          ∀ text ∈ entryTexts entry, text <:+: read ++ tail := by
      intro tail entry hentry text htext
      rcases Attributes.mem_insertAll hentry with hentry | hentry
      · cases hentry
      · exact (hread.infix_read text (List.mem_flatMap.mpr ⟨entry, hentry, htext⟩)).trans
          (List.prefix_append _ _).isInfix
    have hcs := hread.eq_append
    have hslash := hread.notSlashed
    dsimp only at h
    split at h
    · next rest hrest =>
      cases h
      rw [hrest] at hcs
      refine ⟨read ++ ['/', '>'], ?_, by simpa using hname, htexts _, ?_⟩
      · simpa [hcs] using hsplit.symm
      · refine iff_of_true rfl ⟨'<' :: cs.takeWhile isNameChar ++ read, ?_⟩
        simp
    · next rest hrest =>
      cases h
      rw [hrest] at hcs hslash
      refine ⟨read ++ ['>'], ?_, by simpa using hname, htexts _, ?_⟩
      · simpa [hcs] using hsplit.symm
      · rw [← List.append_assoc, String.toList_ofList]
        simpa using not_selfClosed (hnot.append (hslash (by simp)))
    · cases h

/-! ### Parts

A part has all its texts and no offsets. These come from the place where its `<` stands, so that
parts can be put behind other text. -/

/-- The closing tag of a block, as its name is written. -/
def closingTag (name : String) : List Char :=
  "</".toList ++ name.toList ++ ['>']

/-- A block as it stands in a file, and the text before it. -/
structure Part where
  gap : List Char
  tag : String
  attributes : Attributes
  /-- The opening tag, from its `<` to its `>`. -/
  opening : List Char
  content : List Char
  /-- The closing tag; nothing, if the opening tag closes itself. -/
  closing : List Char

namespace Part

def text (x : Part) : List Char :=
  x.gap ++ x.opening ++ x.content ++ x.closing

/-- Where the scan stands at the end of the content of a block whose `<` stands at `p`. -/
def closed (x : Part) (p : Place) : Closing :=
  Closing.over ⟨p.offset + byteSize x.opening, p.line, p.offset⟩ x.content

/-- The position behind a block whose `<` stands at `p`. -/
def behind (x : Part) (p : Place) : Place :=
  let q := x.closed p
  let width := byteSize x.closing
  ⟨q.offset + width, q.line, q.offset - q.lineFeed + width⟩

/-- The block, if its `<` stands at `p`. -/
def blockAt (x : Part) (p : Place) : Block :=
  { tag := x.tag
    attributes := x.attributes
    content := String.ofList x.content
    location := ⟨p.offset, p.offset + byteSize x.opening, (x.closed p).offset, p.line, p.column,
      (x.closed p).line, (x.behind p).column⟩ }

/-- The closing tag is the one that the scan looks for. -/
structure Closes (x : Part) : Prop where
  spelled : x.closing.map Char.toLower = (closingTag x.tag).map Char.toLower
  first : sameName x.tag "template" = false → ¬ HoldsAnyCase (closingTag x.tag) x.content

/-- The scan could have found the block. -/
structure Proper (x : Part) : Prop where
  tag_chars : ∀ c ∈ x.tag.toList, isNameChar c = true
  opening_eq : ∃ region, x.opening = '<' :: x.tag.toList ++ region ∧
    ∀ entry ∈ x.attributes, ∀ text ∈ entryTexts entry, text <:+: region
  of_selfClosed : SelfClosed x.opening → x.content = [] ∧ x.closing = []
  of_not_selfClosed : ¬ SelfClosed x.opening → x.Closes

end Part

/-- The blocks of parts, the first of which starts at `p`. -/
def placed : Place → List Part → List Block
  | _, [] => []
  | p, x :: xs => x.blockAt (p.over x.gap) :: placed (x.behind (p.over x.gap)) xs

/-- The position behind parts, the first of which starts at `p`. -/
def behindAll : Place → List Part → Place
  | p, [] => p
  | p, x :: xs => behindAll (x.behind (p.over x.gap)) xs

/-- The scan goes on behind all of the block. -/
theorem Part.offset_behind (x : Part) (p : Place) :
    (x.behind p).offset = p.offset + byteSize (x.opening ++ x.content ++ x.closing) := by
  simp only [behind, closed, Closing.offset_over, Text.byteSize_append]
  omega

/-- Parts take the bytes of their texts. -/
theorem offset_behindAll (p : Place) (xs : List Part) :
    (behindAll p xs).offset = p.offset + byteSize (xs.flatMap Part.text) := by
  induction xs generalizing p with
  | nil => rfl
  | cons x xs ih =>
    rw [behindAll, ih, Part.offset_behind, Place.offset_over, List.flatMap_cons]
    simp only [Part.text, Text.byteSize_append]
    omega

/-- The last part is passed last. -/
theorem behindAll_concat (p : Place) (xs : List Part) (x : Part) :
    behindAll p (xs ++ [x]) = x.behind ((behindAll p xs).over x.gap) := by
  induction xs generalizing p with
  | nil => rfl
  | cons y xs ih => exact ih _

/-- A block of parts is that of one of them, behind those before it. -/
theorem exists_of_placed_eq {p : Place} {xs : List Part} {before behind : List Block} {b : Block}
    (h : placed p xs = before ++ b :: behind) :
    ∃ as x ys, xs = as ++ x :: ys ∧ before = placed p as ∧
      b = x.blockAt ((behindAll p as).over x.gap) := by
  induction xs generalizing p before with
  | nil => cases before <;> cases h
  | cons y xs ih =>
    cases before with
    | nil => exact ⟨[], y, xs, rfl, rfl, (List.cons.inj h).1.symm⟩
    | cons a before =>
      obtain ⟨rfl, hrest⟩ := List.cons.inj h
      obtain ⟨as, x, ys, rfl, rfl, rfl⟩ := ih hrest
      exact ⟨y :: as, x, ys, rfl, rfl, rfl⟩

/-! ### One block

What is found at a `<` is written down as a part: the opening tag that was read, the text up to the
closing tag that was found, and that tag as it is spelled. -/

/-- The part with the given opening tag. -/
def OpenTag.part (tag : OpenTag) (gap region content closing : List Char) : Part :=
  ⟨gap, tag.name, tag.attributes, '<' :: tag.name.toList ++ region, content, closing⟩

/-- What is found at a `<` behind the given text is a proper part. -/
def Found.IsPart (found : Found) (p : Place) (gap cs : List Char) : Prop :=
  ∃ x : Part, x.Proper ∧ x.gap = gap ∧ gap ++ '<' :: cs = x.text ++ found.rest ∧
    found.block = x.blockAt p ∧ found.place = x.behind p

variable {tag : OpenTag} {region content spelled rest : List Char}

/-- The part of a tag is proper if its content is empty or ends with the closing tag. -/
theorem OpenTag.proper_part (h : tag.IsFollowedBy region) {gap : List Char}
    (hempty : tag.selfClosing = true → content = [] ∧ spelled = [])
    (hcloses : tag.selfClosing = false → (tag.part gap region content spelled).Closes) :
    (tag.part gap region content spelled).Proper where
  tag_chars := h.name_chars
  opening_eq := ⟨region, rfl, h.texts⟩
  of_selfClosed := fun hclosed => hempty (h.selfClosing_iff.mpr hclosed)
  of_not_selfClosed := fun hopen =>
    hcloses (Bool.eq_false_iff.mpr fun hclosed => hopen (h.selfClosing_iff.mp hclosed))

/-- What is found of a block goes up to its closing tag. -/
theorem OpenTag.isPart_found {gap : List Char}
    (hproper : (tag.part gap region content spelled).Proper)
    (hrest : tag.rest = content ++ spelled ++ rest) (p : Place) :
    let x := tag.part gap region content spelled
    (tag.found p (p.offset + byteSize x.opening) (x.closed p) (byteSize spelled)).IsPart p gap
      (tag.name.toList ++ region ++ tag.rest) := by
  have hbetween : Text.between tag.rest 0 (byteSize content) = content := by
    have hmiddle := Text.between_middle [] content (spelled ++ rest)
    rwa [List.nil_append, Text.byteSize_nil, Nat.zero_add, ← List.append_assoc, ← hrest] at hmiddle
  have hsuffix : Text.suffixFrom tag.rest (byteSize content + byteSize spelled) = rest := by
    rw [hrest, ← Text.byteSize_append]
    exact Text.suffixFrom_append (content ++ spelled) rest
  refine ⟨_, hproper, rfl, ?_, ?_, rfl⟩
  · simp only [OpenTag.found, OpenTag.part, Part.closed, Closing.offset_over,
      Nat.add_sub_cancel_left, hsuffix]
    simp [Part.text, hrest]
  · simp only [OpenTag.found, OpenTag.part, Part.blockAt, Part.behind, Part.closed,
      Closing.offset_over, Nat.add_sub_cancel_left, hbetween]

/-- A template may be spelled in any case, and so may its closing tag. -/
theorem map_toLower_closingTag {name : String} (h : sameName name "template" = true) :
    (closingTag name).map Char.toLower = "</template>".toList.map Char.toLower := by
  simp [closingTag, sameName_iff.mp h]

/-- **One block.** What is found at a `<` is a proper part, whatever stands before it. -/
theorem Found.isPart_of_read? {p : Place} {cs : List Char} {found : Found}
    (h : Found.read? p cs = some found) (gap : List Char) : found.IsPart p gap cs := by
  unfold Found.read? at h
  obtain ⟨tag, htag, h⟩ := Option.bind_eq_some_iff.mp h
  obtain ⟨region, rfl, hregion⟩ := OpenTag.exists_region htag
  have hstart : p.offset + 1 +
        (byteSize (tag.name.toList ++ region ++ tag.rest) - byteSize tag.rest) =
      p.offset + byteSize ('<' :: tag.name.toList ++ region) := by
    rw [Text.byteSize_append _ tag.rest, Nat.add_sub_cancel, List.cons_append, Text.byteSize_cons,
      Nat.add_assoc]
    rfl
  rw [hstart] at h
  split at h
  · next hclosed =>
    cases h
    have hproper : (tag.part gap region [] []).Proper :=
      OpenTag.proper_part hregion (fun _ => ⟨rfl, rfl⟩) fun hopen => by
        rw [hclosed] at hopen
        cases hopen
    exact OpenTag.isPart_found hproper (show tag.rest = [] ++ [] ++ tag.rest from rfl) p
  · next hopen =>
    -- The tag is left open. Which closing tag is looked for depends on its name.
    have hempty : ∀ {content spelled : List Char}, tag.selfClosing = true →
        content = [] ∧ spelled = [] := fun hclosed => absurd hclosed hopen
    split at h
    · next htemplate =>
      obtain ⟨q, hq, h⟩ := Option.bind_eq_some_iff.mp h
      obtain ⟨content, spelled, rest, hrest, rfl, hspelled⟩ := exists_of_findTemplateClosing? hq
      cases h
      have hcloses : (tag.part gap region content spelled).Closes :=
        ⟨hspelled.trans (map_toLower_closingTag htemplate).symm, fun hother => by
          rw [OpenTag.part, htemplate] at hother
          cases hother⟩
      have hwidth : byteSize spelled = "</template>".length :=
        (byteSize_spelled hspelled).trans (by decide)
      rw [← hwidth]
      exact OpenTag.isPart_found (OpenTag.proper_part hregion hempty fun _ => hcloses) hrest p
    · next hother =>
      obtain ⟨q, hq, h⟩ := Option.bind_eq_some_iff.mp h
      obtain ⟨content, spelled, rest, hrest, rfl, hspelled, hfree⟩ := exists_of_findClosing? hq
      cases h
      have hcloses : (tag.part gap region content spelled).Closes := ⟨hspelled, fun _ => hfree⟩
      have hwidth : byteSize spelled = (closingTag tag.name).length :=
        (byteSize_spelled hspelled).trans (byteSize_closingTag hregion.name_chars)
      have hpart :=
        OpenTag.isPart_found (OpenTag.proper_part hregion hempty fun _ => hcloses) hrest p
      rw [hwidth] at hpart
      exact hpart

/-! ### The scan

Each step passes over some text or finds one block; the first is put in front of the next part, the
second becomes a part. -/

/-- A text, read from `p` on, is cut in proper parts, whose blocks are the given ones, and a
rest. -/
def Cut (p : Place) (cs : List Char) (bs : List Block) : Prop :=
  ∃ xs tail, (∀ x ∈ xs, Part.Proper x) ∧ cs = xs.flatMap Part.text ++ tail ∧ bs = placed p xs

/-- Without blocks all of the text is the rest. -/
theorem Cut.nil (p : Place) (cs : List Char) : Cut p cs [] :=
  ⟨[], cs, by simp, rfl, rfl⟩

/-- Text that is passed over is the front of the next gap. -/
theorem Cut.pass {p : Place} {front cs : List Char} {bs : List Block}
    (h : Cut (p.over front) cs bs) :
    Cut p (front ++ cs) bs := by
  obtain ⟨xs, tail, hxs, rfl, rfl⟩ := h
  cases xs with
  | nil => exact ⟨[], front ++ tail, by simp, rfl, rfl⟩
  | cons x xs =>
    have hx := hxs x List.mem_cons_self
    refine ⟨{ x with gap := front ++ x.gap } :: xs, tail, ?_, ?_, ?_⟩
    · intro y hy
      rcases List.mem_cons.mp hy with rfl | hy
      · exact ⟨hx.tag_chars, hx.opening_eq, hx.of_selfClosed,
          fun hopen => ⟨(hx.of_not_selfClosed hopen).spelled, (hx.of_not_selfClosed hopen).first⟩⟩
      · exact hxs y (List.mem_cons_of_mem _ hy)
    · simp [Part.text]
    · rw [placed, placed, Place.over_append]
      rfl

/-- A block that is found is the next part. -/
theorem Cut.found {p : Place} {cs : List Char} {found : Found} {bs : List Block}
    (hfound : Found.read? p cs = some found) (h : Cut found.place found.rest bs) :
    Cut p ('<' :: cs) (found.block :: bs) := by
  obtain ⟨x, hx, hgap, hcs, hblock, hplace⟩ := Found.isPart_of_read? hfound []
  obtain ⟨xs, tail, hxs, hrest, rfl⟩ := h
  refine ⟨x :: xs, tail, ?_, ?_, ?_⟩
  · intro y hy
    rcases List.mem_cons.mp hy with rfl | hy
    · exact hx
    · exact hxs y hy
  · rw [List.flatMap_cons, List.append_assoc, ← hrest, ← hcs, List.nil_append]
  · rw [placed, hgap, hblock, hplace]
    rfl

/-- **The scan cuts a text in parts.** -/
theorem cut_blocksFrom (n : Nat) (p : Place) (cs : List Char) : Cut p cs (blocksFrom n p cs) := by
  induction n generalizing p cs with
  | zero => exact Cut.nil p cs
  | succ n ih =>
    have hsplit := @List.takeWhile_append_dropWhile _ (· != '<') cs
    rw [← hsplit]
    refine Cut.pass ?_
    rw [hsplit, blocksFrom]
    cases hdrop : cs.dropWhile (· != '<') with
    | nil => exact Cut.nil _ _
    | cons c rest =>
      obtain rfl := eq_of_dropWhile_bne hdrop
      dsimp only
      split
      · have hcut := Cut.pass (ih ((p.over (cs.takeWhile (· != '<'))).over
          (splitComment ('<' :: rest)).1)
          (splitComment ('<' :: rest)).2)
        rwa [splitComment_fst_append_snd] at hcut
      · split
        · next found hfound => exact Cut.found hfound (ih _ _)
        · exact @Cut.pass _ ['<'] rest _ (ih _ _)

/-- A whole file is cut in parts. -/
theorem cut_blocks (source : String) : Cut ⟨0, 1, 1⟩ source.toList (blocks source) :=
  cut_blocksFrom _ _ _

/-! ### The scan comes to an end

In each step at least one character is taken. -/

/-- Behind a comment there is less text than from its `<` on. -/
theorem length_splitComment_lt (cs : List Char) :
    (splitComment ('<' :: cs)).2.length < ('<' :: cs).length := by
  have hcomment := splitComment_fst_append_snd ('<' :: cs)
  rw [splitComment_cons (by simp)] at hcomment ⊢
  have hlength := congrArg List.length hcomment
  simp only [List.length_append, List.length_cons] at hlength ⊢
  omega

/-- Behind a block there is less text than from its `<` on. -/
theorem Found.length_rest_lt {p : Place} {cs : List Char} {found : Found}
    (h : Found.read? p cs = some found) : found.rest.length < ('<' :: cs).length := by
  obtain ⟨x, hx, -, hcs, -⟩ := Found.isPart_of_read? h []
  obtain ⟨region, hopening, -⟩ := hx.opening_eq
  have hlength := congrArg List.length hcs
  simp only [Part.text, hopening, List.length_append, List.length_cons, List.nil_append]
    at hlength ⊢
  omega

/-- **The scan comes to its end by itself**: it takes no more steps than there are characters. -/
theorem blocksFrom_eq_of_lt {n m : Nat} {cs : List Char} (hn : cs.length < n) (hm : cs.length < m)
    (p : Place) : blocksFrom n p cs = blocksFrom m p cs := by
  induction n generalizing m p cs with
  | zero => cases hn
  | succ n ih =>
    obtain ⟨m, rfl⟩ := Nat.exists_eq_add_one_of_ne_zero (Nat.ne_zero_of_lt hm)
    have hlength := (List.dropWhile_suffix (l := cs) (· != '<')).length_le
    rw [blocksFrom, blocksFrom]
    cases hdrop : cs.dropWhile (· != '<') with
    | nil => rfl
    | cons c rest =>
      obtain rfl := eq_of_dropWhile_bne hdrop
      rw [hdrop] at hlength
      dsimp only
      split
      · have hcomment := length_splitComment_lt rest
        exact ih (by omega) (by omega) _
      · split
        · next found hfound =>
          have hrest := Found.length_rest_lt hfound
          rw [@ih m _ (by omega) (by omega)]
        · rw [List.length_cons] at hlength
          exact ih (by omega) (by omega) _

end VueSetup.Sfc
