import VueSetup.Proofs.Sfc.Written

/-!
# VueSetup.Proofs.Sfc.Located

Where the blocks of a file stand, whatever the file. Each part of the scan gives back what it has
not read yet, as a part of the text that it was given, and counts the bytes of what it has read. So
the offsets of a block are those of its tag and of its content in the file
(`Block.standsIn_of_mem_blocks`).

Nothing is asked of the file: its tags may be spelled in any case, with any attributes and blanks,
and may be broken.
-/

namespace VueSetup.Sfc

open Text (byteSize)

/-! ### Opening tags

What is left behind an opening tag is a back part of the text, so that the tag is a front part. -/

/-- A text is passed over up to the character looked for. -/
theorem eq_of_dropWhile_bne {c d : Char} {cs rest : List Char}
    (h : cs.dropWhile (· != c) = d :: rest) : d = c := by
  have hhead := List.head?_dropWhile_not (· != c) cs
  rw [h] at hhead
  simpa using hhead

/-- The value is read off the front. -/
theorem attributeValue_suffix (cs : List Char) : (attributeValue cs).2 <:+ cs := by
  cases cs with
  | nil => exact List.suffix_rfl
  | cons c cs =>
    rw [attributeValue]
    split
    · exact ((List.drop_suffix 1 _).trans (List.dropWhile_suffix _)).trans (List.suffix_cons c cs)
    · exact List.dropWhile_suffix _

/-- Attributes are read off the front. -/
theorem readAttributes_suffix (n : Nat) (attrs : Attributes) (cs : List Char) :
    (readAttributes n attrs cs).2 <:+ cs := by
  fun_induction readAttributes n attrs cs with
  | case1 => exact List.suffix_rfl
  | case2 => exact List.nil_suffix
  | case3 n attrs cs c rest hblank =>
    rw [← hblank]
    exact List.dropWhile_suffix _
  | case4 n attrs cs c rest hblank _ _ ih =>
    refine ih.trans ((List.suffix_cons c rest).trans ?_)
    rw [← hblank]
    exact List.dropWhile_suffix _
  | case5 n attrs cs c rest hblank _ _ name behind hname value after hvalue ih =>
    have hbehind : '=' :: behind <:+ cs := by
      rw [← hname]
      refine (List.dropWhile_suffix _).trans ((List.dropWhile_suffix _).trans ?_)
      rw [← hblank]
      exact List.dropWhile_suffix _
    have hafter := attributeValue_suffix (behind.dropWhile isTagSpace)
    rw [hvalue] at hafter
    exact (ih.trans hafter).trans
      ((List.dropWhile_suffix _).trans ((List.suffix_cons '=' behind).trans hbehind))
  | case6 n attrs cs c rest hblank _ _ name _ ih =>
    refine ih.trans ((List.dropWhile_suffix _).trans ((List.dropWhile_suffix _).trans ?_))
    rw [← hblank]
    exact List.dropWhile_suffix _

/-- An opening tag starts with its name. -/
theorem OpenTag.eq_append_of_read? {cs : List Char} {tag : OpenTag}
    (h : OpenTag.read? cs = some tag) :
    (∀ c ∈ tag.name.toList, isNameChar c = true) ∧
      ∃ attributes, cs = tag.name.toList ++ attributes ++ tag.rest := by
  unfold OpenTag.read? at h
  split at h
  · cases h
  · next name hne =>
    have hname : ∀ c ∈ cs.takeWhile isNameChar, isNameChar c = true :=
      List.all_eq_true.mp List.all_takeWhile
    have hread := readAttributes_suffix (cs.length + 1) [] (cs.dropWhile isNameChar)
    -- what follows the attributes ends the tag
    have hrest : ∀ rest : List Char, rest <:+ cs.dropWhile isNameChar →
        ∃ attributes, cs = (String.ofList (cs.takeWhile isNameChar)).toList ++ attributes ++
          rest := by
      rintro rest ⟨attributes, hdrop⟩
      refine ⟨attributes, ?_⟩
      rw [String.toList_ofList, List.append_assoc, hdrop, List.takeWhile_append_dropWhile]
    dsimp only at h
    split at h
    · next rest hrest' =>
      cases h
      rw [hrest'] at hread
      exact ⟨by simpa using hname,
        hrest rest (((List.suffix_cons _ _).trans (List.suffix_cons _ _)).trans hread)⟩
    · next rest hrest' =>
      cases h
      rw [hrest'] at hread
      exact ⟨by simpa using hname, hrest rest ((List.suffix_cons _ _).trans hread)⟩
    · cases h

/-! ### Closing tags

A closing tag can be spelled in any case, and takes as many bytes in each spelling. So the width
that the scan adds for it is that of the tag that stands there. -/

/-- A letter takes as many bytes in lower case. -/
theorem utf8Size_toLower (c : Char) : c.toLower.utf8Size = c.utf8Size := by
  unfold Char.toLower
  split
  · next hc =>
    rw [Text.utf8Size_of_le (show c ≤ 'Z' from hc.2) (by decide)]
    refine Text.utf8Size_of_toNat_lt ?_
    have hlow : 'A'.val.toNat ≤ c.val.toNat := UInt32.le_iff_toNat_le.mp hc.1
    have hhigh : c.val.toNat ≤ 'Z'.val.toNat := UInt32.le_iff_toNat_le.mp hc.2
    show (c.val + ('a'.val - 'A'.val)).toNat < 128
    simp at hlow hhigh ⊢
    omega
  · rfl

/-- A text takes as many bytes in lower case. -/
theorem byteSize_map_toLower (cs : List Char) : byteSize (cs.map Char.toLower) = byteSize cs := by
  induction cs with
  | nil => rfl
  | cons c cs ih => rw [List.map_cons, Text.byteSize_cons, Text.byteSize_cons, utf8Size_toLower, ih]

/-- The case of letters does not change the number of bytes. -/
theorem byteSize_spelled {spelled tag : List Char}
    (h : spelled.map Char.toLower = tag.map Char.toLower) : byteSize spelled = byteSize tag := by
  rw [← byteSize_map_toLower spelled, h, byteSize_map_toLower]

/-- A closing tag has ASCII characters only, so that it is as wide as it is long. -/
theorem byteSize_closingTag {name : List Char} (h : ∀ c ∈ name, isNameChar c = true) :
    byteSize ("</".toList ++ name ++ ['>']) = ("</".toList ++ name ++ ['>']).length := by
  refine Text.byteSize_eq_length fun c hc => ?_
  simp only [List.mem_append, List.mem_singleton] at hc
  rcases hc with (hc | hc) | rfl
  · obtain rfl | rfl : c = '<' ∨ c = '/' := by simpa using hc
    all_goals rfl
  · exact isNameChar_ascii (h c hc)
  · rfl

/-- What starts with a tag in any case starts with a spelling of it. -/
theorem exists_spelled_of_startsWithAnyCase {tag cs : List Char}
    (h : startsWithAnyCase tag cs = true) :
    ∃ spelled rest, cs = spelled ++ rest ∧ spelled.map Char.toLower = tag.map Char.toLower := by
  obtain ⟨rest, hcs⟩ := startsWithAnyCase_iff.mp h
  obtain ⟨spelled, behind, rfl, hspelled, -⟩ := List.map_eq_append_iff.mp hcs.symm
  exact ⟨spelled, behind, rfl, hspelled⟩

/-- The closing tag stands behind the content, and is the first one. -/
theorem exists_of_findClosing? {tag cs : List Char} {p q : Closing}
    (h : findClosing? ('<' :: tag) p cs = some q) :
    ∃ content spelled rest, cs = content ++ spelled ++ rest ∧ q = p.over content ∧
      spelled.map Char.toLower = ('<' :: tag).map Char.toLower ∧
      ¬ HoldsAnyCase ('<' :: tag) content := by
  fun_induction findClosing? ('<' :: tag) p cs with
  | case1 => cases h
  | case2 p c cs hfound =>
    cases h
    rw [Bool.and_eq_true] at hfound
    obtain ⟨spelled, rest, hcs, hspelled⟩ := exists_spelled_of_startsWithAnyCase hfound.2
    exact ⟨[], spelled, rest, hcs, rfl, hspelled, by simp [HoldsAnyCase]⟩
  | case3 p c cs hnot ih =>
    obtain ⟨content, spelled, rest, rfl, rfl, hspelled, hfree⟩ := ih h
    refine ⟨c :: content, spelled, rest, rfl, rfl, hspelled, fun hholds => ?_⟩
    rcases List.infix_cons_iff.mp hholds with hstarts | hholds
    · -- then the tag would have been found right here
      have hc : c = '<' := by
        obtain ⟨rest, hrest⟩ := hstarts
        exact Text.toLower_eq_lt (List.cons.inj hrest).1.symm
      have hhere : startsWithAnyCase ('<' :: tag) (c :: (content ++ spelled ++ rest)) = true := by
        refine startsWithAnyCase_iff.mpr (hstarts.trans ?_)
        rw [← List.cons_append, ← List.cons_append, List.append_assoc, List.map_append]
        exact List.prefix_append _ _
      exact hnot (by rw [hhere, hc]; rfl)
    · exact hfree hholds

/-- The scan for the end of a template comes to a closing tag, at whichever depth. -/
theorem exists_of_findTemplateClosing? {depth : Nat} {cs : List Char} {p q : Closing}
    (h : findTemplateClosing? depth p cs = some q) :
    ∃ content spelled rest, cs = content ++ spelled ++ rest ∧ q = p.over content ∧
      spelled.map Char.toLower = "</template>".toList.map Char.toLower := by
  fun_induction findTemplateClosing? depth p cs with
  | case1 => cases h
  | case2 depth p c cs hfound =>
    cases h
    rw [Bool.and_eq_true] at hfound
    obtain ⟨spelled, rest, hcs, hspelled⟩ := exists_spelled_of_startsWithAnyCase hfound.2
    exact ⟨[], spelled, rest, hcs, rfl, hspelled⟩
  | case3 depth p c cs _ _ ih | case4 depth p c cs _ _ ih | case5 depth p c cs _ _ ih =>
    obtain ⟨content, spelled, rest, rfl, rfl, hspelled⟩ := ih h
    exact ⟨c :: content, spelled, rest, rfl, rfl, hspelled⟩

/-! ### Blocks

One block is read from behind its `<`. What is said of it names every part of the text up to the
rest, in order. -/

/-- What was read of a block: all of the text up to the rest, in order, with its offsets. -/
structure Found.Reads (found : Found) (p : Place) (cs : List Char) : Prop where
  tag_chars : ∀ c ∈ found.block.tag.toList, isNameChar c = true
  exists_eq_append : ∃ attributes closing,
    cs = found.block.tag.toList ++ attributes ++ found.block.content.toList ++ closing ++
      found.rest ∧
    found.block.location.tagStart = p.offset ∧
    found.block.location.start =
      p.offset + byteSize ('<' :: found.block.tag.toList ++ attributes) ∧
    found.block.location.stop =
      found.block.location.start + byteSize found.block.content.toList ∧
    found.place.offset = found.block.location.stop + byteSize closing

/-- A block goes up to its closing tag. -/
theorem OpenTag.reads_found {tag : OpenTag} (hchars : ∀ c ∈ tag.name.toList, isNameChar c = true)
    {attributes content spelled rest : List Char} (hrest : tag.rest = content ++ spelled ++ rest)
    (p : Place) {start : Nat}
    (hstart : start = p.offset + byteSize ('<' :: tag.name.toList ++ attributes))
    {q : Closing} (hq : q.offset = start + byteSize content) {width : Nat}
    (hwidth : byteSize spelled = width) :
    (tag.found p start q width).Reads p (tag.name.toList ++ attributes ++ tag.rest) := by
  have hbetween : Text.between tag.rest 0 (q.offset - start) = content := by
    have hmiddle := Text.between_middle [] content (spelled ++ rest)
    rw [List.nil_append, Text.byteSize_nil, Nat.zero_add, ← List.append_assoc] at hmiddle
    rw [hq, Nat.add_sub_cancel_left, hrest, hmiddle]
  have hsuffix : Text.suffixFrom tag.rest (q.offset - start + width) = rest := by
    rw [hq, Nat.add_sub_cancel_left, hrest, ← hwidth, ← Text.byteSize_append]
    exact Text.suffixFrom_append (content ++ spelled) rest
  refine ⟨hchars, attributes, spelled, ?_, rfl, hstart, ?_, ?_⟩
  · simp only [found, hbetween, hsuffix, String.toList_ofList]
    rw [hrest]
    simp only [List.append_assoc]
  · simp only [found, hbetween, String.toList_ofList]
    exact hq
  · simp only [found, hwidth]

/-- **One block.** What is read of a block is what stands there. -/
theorem Found.reads_of_read? {p : Place} {cs : List Char} {found : Found}
    (h : Found.read? p cs = some found) : found.Reads p cs := by
  unfold Found.read? at h
  obtain ⟨tag, htag, h⟩ := Option.bind_eq_some_iff.mp h
  obtain ⟨hchars, attributes, rfl⟩ := OpenTag.eq_append_of_read? htag
  have hstart : p.offset + 1 +
        (byteSize (tag.name.toList ++ attributes ++ tag.rest) - byteSize tag.rest) =
      p.offset + byteSize ('<' :: tag.name.toList ++ attributes) := by
    rw [Text.byteSize_append _ tag.rest, Nat.add_sub_cancel, List.cons_append, Text.byteSize_cons,
      Nat.add_assoc]
    rfl
  split at h
  · cases h
    have hrest : tag.rest = [] ++ [] ++ tag.rest := rfl
    exact OpenTag.reads_found hchars hrest p hstart rfl rfl
  · split at h
    · obtain ⟨q, hq, h⟩ := Option.bind_eq_some_iff.mp h
      obtain ⟨content, spelled, rest, hrest, rfl, hspelled⟩ := exists_of_findTemplateClosing? hq
      cases h
      exact OpenTag.reads_found hchars hrest p hstart (Closing.offset_over _ _)
        ((byteSize_spelled hspelled).trans (by decide))
    · obtain ⟨q, hq, h⟩ := Option.bind_eq_some_iff.mp h
      obtain ⟨content, spelled, rest, hrest, rfl, hspelled, -⟩ := exists_of_findClosing? hq
      cases h
      exact OpenTag.reads_found hchars hrest p hstart (Closing.offset_over _ _)
        ((byteSize_spelled hspelled).trans (byteSize_closingTag hchars))

/-! ### Files

The scan passes over comments, over text, and over a `<` that starts no tag. Each of these is a
front part whose bytes are counted, and the next block stands behind it. -/

/-- The block stands in the text at its offsets. -/
def Block.StandsIn (b : Block) (cs : List Char) : Prop :=
  ∃ front attributes rest,
    cs = front ++ '<' :: b.tag.toList ++ attributes ++ b.content.toList ++ rest ∧
    b.location.tagStart = byteSize front ∧
    b.location.start = byteSize (front ++ '<' :: b.tag.toList ++ attributes) ∧
    b.location.stop = byteSize (front ++ '<' :: b.tag.toList ++ attributes ++ b.content.toList)

/-- A comment and what follows it are the text that was split. -/
theorem splitComment_fst_append_snd (cs : List Char) :
    (splitComment cs).1 ++ (splitComment cs).2 = cs := by
  fun_induction splitComment cs with
  | case1 => rfl
  | case2 cs => rfl
  | case3 c cs _ comment rest hsplit ih =>
    rw [hsplit] at ih
    rw [List.cons_append, ih]

/-- What is read behind some text stands behind that text. -/
theorem Found.Reads.standsIn {found : Found} {p : Place} {cs front : List Char}
    (h : found.Reads p cs) (hp : p.offset = byteSize front) :
    found.block.StandsIn (front ++ '<' :: cs) ∧
      ∃ read, front ++ '<' :: cs = read ++ found.rest ∧ found.place.offset = byteSize read := by
  obtain ⟨-, attributes, closing, rfl, htagStart, hstart, hstop, hplace⟩ := h
  have hopen : byteSize (front ++ '<' :: found.block.tag.toList ++ attributes) =
      found.block.location.start := by
    rw [hstart, hp, ← Text.byteSize_append]
    simp only [List.cons_append, List.append_assoc]
  constructor
  · refine ⟨front, attributes, closing ++ found.rest, by simp, htagStart.trans hp, hopen.symm, ?_⟩
    rw [Text.byteSize_append, hopen, hstop]
  · refine ⟨front ++ '<' :: found.block.tag.toList ++ attributes ++ found.block.content.toList ++
      closing, by simp, ?_⟩
    rw [Text.byteSize_append, Text.byteSize_append _ found.block.content.toList, hopen, hplace,
      hstop]

/-- The scan keeps count of the bytes that it has passed, and reads each block where the block
stands. -/
theorem exists_found_of_mem_blocksFrom {n : Nat} {p : Place} {front cs : List Char} {b : Block}
    (hp : p.offset = byteSize front) (hb : b ∈ blocksFrom n p cs) :
    ∃ q before behind found, front ++ cs = before ++ '<' :: behind ∧ q.offset = byteSize before ∧
      Found.read? q behind = some found ∧ found.block = b := by
  induction n generalizing p front cs with
  | zero => cases hb
  | succ n ih =>
    -- text without a tag is passed over first
    have hsplit : cs.takeWhile (· != '<') ++ cs.dropWhile (· != '<') = cs :=
      List.takeWhile_append_dropWhile
    rw [blocksFrom] at hb
    have hq : (p.over (cs.takeWhile (· != '<'))).offset =
        byteSize (front ++ cs.takeWhile (· != '<')) := by
      rw [Place.offset_over, hp, Text.byteSize_append]
    rw [← hsplit, ← List.append_assoc]
    generalize front ++ cs.takeWhile (· != '<') = front at hq ⊢
    generalize p.over (cs.takeWhile (· != '<')) = q at hq hb
    dsimp only at hb
    cases hdrop : cs.dropWhile (· != '<') with
    | nil =>
      rw [hdrop] at hb
      cases hb
    | cons c rest =>
      obtain rfl := eq_of_dropWhile_bne hdrop
      rw [hdrop] at hb
      dsimp only at hb
      split at hb
      · have hcomment := splitComment_fst_append_snd ('<' :: rest)
        rw [← hcomment, ← List.append_assoc]
        refine ih ?_ hb
        rw [Place.offset_over, hq, Text.byteSize_append]
      · split at hb
        · next found hfound =>
          rcases List.mem_cons.mp hb with rfl | hb
          · exact ⟨q, front, rest, found, rfl, hq, hfound, rfl⟩
          · obtain ⟨-, read, hread, hplace⟩ := (Found.reads_of_read? hfound).standsIn hq
            rw [hread]
            exact ih hplace hb
        · have hbehind : (q.advance '<').offset = byteSize (front ++ ['<']) := by
            rw [Text.byteSize_append, ← hq]
            rfl
          have hfront : front ++ '<' :: rest = front ++ ['<'] ++ rest := by simp
          rw [hfront]
          exact ih hbehind hb

/-- A block of a file is read where its tag starts. -/
theorem Block.exists_found_of_mem_blocks {source : String} {b : Block} (hb : b ∈ blocks source) :
    ∃ q before behind found, source.toList = before ++ '<' :: behind ∧ q.offset = byteSize before ∧
      Found.read? q behind = some found ∧ found.block = b := by
  have hzero : (⟨0, 1, 1⟩ : Place).offset = byteSize [] := rfl
  exact exists_found_of_mem_blocksFrom hzero hb

/-- **Every block stands where its offsets say.** -/
theorem Block.standsIn_of_mem_blocks {source : String} {b : Block} (hb : b ∈ blocks source) :
    (∀ c ∈ b.tag.toList, isNameChar c = true) ∧ b.StandsIn source.toList := by
  obtain ⟨q, before, behind, found, hsource, hq, hfound, rfl⟩ := exists_found_of_mem_blocks hb
  have hreads := Found.reads_of_read? hfound
  rw [hsource]
  exact ⟨hreads.tag_chars, (hreads.standsIn hq).1⟩

end VueSetup.Sfc
