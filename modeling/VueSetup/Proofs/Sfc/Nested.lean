import VueSetup.Proofs.Sfc.Placement

/-!
# VueSetup.Proofs.Sfc.Nested

Templates inside of templates. The content of a template is text, tags of templates that close
themselves and templates with a content of their own, to any depth (`TemplateContent`).

The scan counts the tags one by one. Whether a tag closes itself it reads off the first `>` behind
the tag's name, be it quoted or not, so that a `>` in the value of an attribute can make it take one
kind of tag for the other. The depth at which it stands behind a content (`TemplateContent.depth?`)
decides all: the template is found as it was written exactly if the scan is back where it started
(`parse_nested`). This is so whenever no value holds a `>`.
-/

namespace VueSetup.Sfc

open Text (byteSize)

/-! ### Tags inside of a template

The scan takes the name of the tag off and asks only whether the text behind it closes itself. A
quoted `>` comes too early for that, and then what stands before it decides. -/

/-- The opening tag of a template inside of a template. -/
structure InnerTag where
  attributes : List WrittenAttribute
  selfClosing : Bool

namespace InnerTag

/-- The text of the tag from behind its name. -/
def behindName (t : InnerTag) : List Char :=
  t.attributes.flatMap WrittenAttribute.text ++ if t.selfClosing then " />".toList else ['>']

/-- The text of the tag. -/
def chars (t : InnerTag) : List Char :=
  '<' :: ("template".toList ++ t.behindName)

/-- The attributes can be told from what stands around them, and start no tag. -/
def Proper (t : InnerTag) : Prop :=
  ∀ a ∈ t.attributes, a.Proper ∧ '<' ∉ a.text

instance (t : InnerTag) : Decidable t.Proper :=
  inferInstanceAs (Decidable (∀ a ∈ _, _))

/-- The depth behind the tag, given the depth before it. -/
def enter (t : InnerTag) (depth : Nat) : Nat :=
  if closesItself t.behindName then depth else depth + 1

/-- No value of an attribute holds a `>`. -/
def IsPlain (t : InnerTag) : Prop :=
  ∀ a ∈ t.attributes, ∀ value ∈ a.value?, '>' ∉ value.toList

instance (t : InnerTag) : Decidable t.IsPlain :=
  inferInstanceAs (Decidable (∀ a ∈ _, ∀ value ∈ _, _))

/-- The tag ends with a `>`. -/
theorem gt_mem_behindName (t : InnerTag) : '>' ∈ t.behindName := by
  cases h : t.selfClosing <;> simp [behindName, h]

/-- No other tag starts in it. -/
theorem lt_notMem_behindName {t : InnerTag} (h : t.Proper) : '<' ∉ t.behindName := by
  intro hmem
  rw [behindName, List.mem_append, List.mem_flatMap] at hmem
  rcases hmem with ⟨a, ha, hmem⟩ | hmem
  · exact (h a ha).2 hmem
  · split at hmem <;> exact absurd hmem (by decide)

/-- The name of the tag ends where it was written to end. -/
theorem exists_behindName (t : InnerTag) (rest : List Char) :
    ∃ c cs, t.behindName ++ rest = c :: cs ∧ (c == '>' || isTagBlank c) = true := by
  unfold behindName
  cases t.attributes with
  | nil => cases t.selfClosing <;> exact ⟨_, _, rfl, rfl⟩
  | cons a as => cases h : a.value? <;> simp [WrittenAttribute.text, h] <;> rfl

end InnerTag

/-- A tag closes itself if a `/` stands right before its first `>`. -/
theorem closesItself_append_gt {cs : List Char} (h : '>' ∉ cs) (rest : List Char) :
    closesItself (cs ++ '>' :: rest) = (cs.getLast? == some '/') := by
  induction cs with
  | nil => rfl
  | cons c cs ih =>
    rw [List.mem_cons, not_or] at h
    cases cs with
    | nil =>
      by_cases hslash : c = '/'
      · rw [hslash]
        rfl
      · rw [List.cons_append, closesItself]
        · simp [closesItself, hslash]
        · exact Ne.symm h.1
        · exact fun _ hc => absurd hc hslash
    | cons d ds =>
      have hd : d ≠ '>' := fun hd => h.2 (by simp [hd])
      rw [List.cons_append, closesItself, ih h.2, List.getLast?_cons_cons]
      · exact Ne.symm h.1
      · exact fun _ _ hcs => absurd (List.cons.inj hcs).1 hd

/-- What follows the first `>` does not matter. -/
theorem closesItself_append {cs : List Char} (h : '>' ∈ cs) (rest : List Char) :
    closesItself (cs ++ rest) = closesItself cs := by
  obtain ⟨front, back, rfl, hfront⟩ := List.eq_append_cons_of_mem h
  rw [List.append_assoc, List.cons_append, closesItself_append_gt hfront,
    closesItself_append_gt hfront]

namespace InnerTag

/-- An attribute whose value holds no `>` holds none, and does not end with a `/`. -/
theorem gt_notMem_text {a : WrittenAttribute} (h : a.Proper)
    (hplain : ∀ value ∈ a.value?, '>' ∉ value.toList) :
    '>' ∉ a.text ∧ a.text.getLast? ≠ some '/' := by
  have hname : ∀ c ∈ a.name.toList, c ≠ '>' ∧ c ≠ '/' := by
    intro c hc
    have hne := isAttributeChar_ne (h.name_chars c hc)
    exact ⟨hne.2.1, hne.2.2.1⟩
  cases hvalue : a.value? with
  | none =>
    have htext : a.text = ' ' :: a.name.toList := by simp [WrittenAttribute.text, hvalue]
    rw [htext]
    constructor
    · intro hgt
      exact (hname '>' ((List.mem_cons.mp hgt).resolve_left (by decide))).1 rfl
    · intro hlast
      have hmem := List.mem_of_getLast? hlast
      exact (hname '/' ((List.mem_cons.mp hmem).resolve_left (by decide))).2 rfl
  | some value =>
    have htext : a.text = ' ' :: (a.name.toList ++ '=' :: '\x22' :: value.toList) ++ ['\x22'] := by
      simp [WrittenAttribute.text, hvalue]
    rw [htext]
    constructor
    · intro hgt
      have hgt : '>' ∈ a.name.toList ∨ '>' ∈ value.toList := by simpa using hgt
      rcases hgt with hgt | hgt
      · exact (hname '>' hgt).1 rfl
      · exact hplain value hvalue hgt
    · rw [List.getLast?_append]
      simp

/-- The same of all attributes of a tag. -/
theorem gt_notMem_flatMap_text {as : List WrittenAttribute} (h : ∀ a ∈ as, a.Proper)
    (hplain : ∀ a ∈ as, ∀ value ∈ a.value?, '>' ∉ value.toList) :
    '>' ∉ as.flatMap WrittenAttribute.text ∧
      (as.flatMap WrittenAttribute.text).getLast? ≠ some '/' := by
  induction as with
  | nil => simp
  | cons a as ih =>
    rw [List.forall_mem_cons] at h hplain
    obtain ⟨hgt, hlast⟩ := gt_notMem_text h.1 hplain.1
    obtain ⟨hgt', hlast'⟩ := ih h.2 hplain.2
    rw [List.flatMap_cons, List.mem_append, List.getLast?_append]
    refine ⟨not_or.mpr ⟨hgt, hgt'⟩, ?_⟩
    cases hbehind : (as.flatMap WrittenAttribute.text).getLast? with
    | none => simpa using hlast
    | some c =>
      rw [hbehind] at hlast'
      simpa using hlast'

/-- A tag none of whose values holds a `>` is taken for what it is. -/
theorem closesItself_behindName {t : InnerTag} (h : t.Proper) (hplain : t.IsPlain) :
    closesItself t.behindName = t.selfClosing := by
  obtain ⟨hgt, hlast⟩ := gt_notMem_flatMap_text (fun a ha => (h a ha).1) hplain
  unfold behindName
  cases t.selfClosing with
  | false =>
    rw [if_neg (by decide), closesItself_append_gt hgt]
    simpa using hlast
  | true =>
    have hslash : '>' ∉ t.attributes.flatMap WrittenAttribute.text ++ [' ', '/'] := by
      simpa using hgt
    have hsplit : t.attributes.flatMap WrittenAttribute.text ++ " />".toList =
        t.attributes.flatMap WrittenAttribute.text ++ [' ', '/'] ++ '>' :: [] := by
      simp
    rw [if_pos rfl, hsplit, closesItself_append_gt hslash]
    simp

/-- The depth behind such a tag. -/
theorem enter_of_isPlain {t : InnerTag} (h : t.Proper) (hplain : t.IsPlain) (depth : Nat) :
    t.enter depth = if t.selfClosing then depth else depth + 1 := by
  rw [enter, closesItself_behindName h hplain]

end InnerTag

/-! ### Contents

A content is a tree, written from left to right. The depth behind it is found by going through the
tree as the scan goes through the text. -/

/-- The content of a template: text, and behind it, if anything, a template and more content. -/
inductive TemplateContent where
  | text (chars : String)
  | closed (chars : String) (attributes : List WrittenAttribute) (behind : TemplateContent)
  | opened (chars : String) (attributes : List WrittenAttribute) (inner behind : TemplateContent)

namespace TemplateContent

/-- How a content is written. -/
def chars : TemplateContent → List Char
  | text chars => chars.toList
  | closed chars attributes behind =>
      chars.toList ++ (InnerTag.chars ⟨attributes, true⟩ ++ behind.chars)
  | opened chars attributes inner behind =>
    chars.toList ++ (InnerTag.chars ⟨attributes, false⟩ ++
      (inner.chars ++ ("</template>".toList ++ behind.chars)))

/-- The texts of a content. -/
def texts : TemplateContent → List String
  | text chars => [chars]
  | closed chars _ behind => chars :: behind.texts
  | opened chars _ inner behind => chars :: (inner.texts ++ behind.texts)

/-- The opening tags of a content. -/
def tags : TemplateContent → List InnerTag
  | text _ => []
  | closed _ attributes behind => ⟨attributes, true⟩ :: behind.tags
  | opened _ attributes inner behind => ⟨attributes, false⟩ :: (inner.tags ++ behind.tags)

/-- The text neither opens nor closes a template. -/
def IsText (chars : String) : Prop :=
  ¬ HoldsAnyCase "<template".toList chars.toList ∧ ¬ HoldsAnyCase "</template".toList chars.toList

instance (chars : String) : Decidable (IsText chars) :=
  inferInstanceAs (Decidable (_ ∧ _))

/-- The tags of templates are those that are meant. -/
structure Proper (c : TemplateContent) : Prop where
  tags_proper : ∀ t ∈ c.tags, t.Proper
  texts_proper : ∀ chars ∈ c.texts, IsText chars

instance (c : TemplateContent) : Decidable c.Proper :=
  decidable_of_iff ((∀ t ∈ c.tags, t.Proper) ∧ ∀ chars ∈ c.texts, IsText chars)
    ⟨fun ⟨htags, htexts⟩ => ⟨htags, htexts⟩, fun h => ⟨h.tags_proper, h.texts_proper⟩⟩

/-- The depth at which the scan stands behind a content; nothing, if it comes to its end in
there. -/
def depth? : TemplateContent → Nat → Option Nat
  | text _, depth => some depth
  | closed _ attributes behind, depth => behind.depth? (InnerTag.enter ⟨attributes, true⟩ depth)
  | opened _ attributes inner behind, depth => do
    let depth ← inner.depth? (InnerTag.enter ⟨attributes, false⟩ depth)
    if depth ≤ 1 then none else behind.depth? (depth - 1)

/-- The scan never comes out below the template that it looks for the end of. -/
theorem one_le_of_depth?_eq_some {c : TemplateContent} {depth depth' : Nat}
    (h : c.depth? depth = some depth') (hdepth : 1 ≤ depth) : 1 ≤ depth' := by
  have henter : ∀ (t : InnerTag) (depth : Nat), depth ≤ t.enter depth := by
    intro t depth
    unfold InnerTag.enter
    split <;> omega
  induction c generalizing depth depth' with
  | text chars =>
    cases h
    exact hdepth
  | closed chars attributes behind ih => exact ih h (Nat.le_trans hdepth (henter _ depth))
  | opened chars attributes inner behind ihInner ihBehind =>
    obtain ⟨mid, hmid, h⟩ := Option.bind_eq_some_iff.mp h
    split at h
    · cases h
    · exact ihBehind h (by omega)

/-- Where no value holds a `>`, the scan is back where it started. -/
theorem depth?_of_isPlain {c : TemplateContent} (h : ∀ t ∈ c.tags, t.Proper)
    (hplain : ∀ t ∈ c.tags, t.IsPlain) {depth : Nat} (hdepth : 1 ≤ depth) :
    c.depth? depth = some depth := by
  induction c generalizing depth with
  | text chars => rfl
  | closed chars attributes behind ih =>
    rw [tags, List.forall_mem_cons] at h hplain
    rw [depth?, InnerTag.enter_of_isPlain h.1 hplain.1, if_pos rfl]
    exact ih h.2 hplain.2 hdepth
  | opened chars attributes inner behind ihInner ihBehind =>
    rw [tags, List.forall_mem_cons, List.forall_mem_append] at h hplain
    rw [depth?, InnerTag.enter_of_isPlain h.1 hplain.1, if_neg Bool.false_ne_true,
      ihInner h.2.1 hplain.2.1 (Nat.le_add_left 1 depth)]
    simp only [Option.bind_eq_bind, Option.bind_some]
    rw [if_neg (by omega), Nat.add_sub_cancel]
    exact ihBehind h.2.2 hplain.2.2 hdepth

end TemplateContent

/-! ### The scan over a content

Over each kind of content the scan changes its depth as `TemplateContent.depth?` does, or comes to
its end in it. -/

/-- The place behind two texts. -/
theorem Closing.over_append (p : Closing) (xs ys : List Char) :
    p.over (xs ++ ys) = (p.over xs).over ys :=
  List.foldl_append

/-- The scan passes over what holds no `<`. -/
theorem findTemplateClosing?_of_lt_notMem {cs : List Char} (h : '<' ∉ cs) (depth : Nat)
    (p : Closing)
    (rest : List Char) :
    findTemplateClosing? depth p (cs ++ rest) = findTemplateClosing? depth (p.over cs) rest := by
  induction cs generalizing p with
  | nil => rfl
  | cons c cs ih =>
    rw [List.mem_cons, not_or] at h
    have hc : (c == '<') = false := beq_eq_false_iff_ne.mpr (Ne.symm h.1)
    rw [List.cons_append, findTemplateClosing?, hc, Bool.false_and, Bool.false_and]
    exact ih h.2 (p.advance c)

/-- The scan over an opening tag. -/
theorem findTemplateClosing?_innerTag {t : InnerTag} (h : t.Proper) (depth : Nat) (p : Closing)
    (rest : List Char) :
    findTemplateClosing? depth p (t.chars ++ rest) =
      findTemplateClosing? (t.enter depth) (p.over t.chars) rest := by
  have hclose : startsWithAnyCase "</template>".toList (t.chars ++ rest) = false := by
    simp [InnerTag.chars, startsWithAnyCase]
  have hopen : opensTemplate ("template".toList ++ t.behindName ++ rest) =
      !closesItself t.behindName := by
    obtain ⟨c, cs, hcs, hc⟩ := t.exists_behindName rest
    have hname : startsWithAnyCase "template".toList
        ("template".toList ++ (t.behindName ++ rest)) = true := by
      rw [startsWithAnyCase_iff, List.map_append]
      exact List.prefix_append _ _
    rw [opensTemplate, List.append_assoc, hname, List.drop_left' (by decide), hcs]
    simp only [hc, Bool.true_and]
    rw [← hcs, closesItself_append t.gt_mem_behindName]
  have hname : '<' ∉ "template".toList ++ t.behindName := by
    rw [List.mem_append]
    exact not_or.mpr ⟨by decide, InnerTag.lt_notMem_behindName h⟩
  rw [InnerTag.chars, List.cons_append] at hclose ⊢
  have hover : p.over ('<' :: ("template".toList ++ t.behindName)) =
      (p.advance '<').over ("template".toList ++ t.behindName) := List.foldl_cons
  rw [findTemplateClosing?, hclose, hopen, InnerTag.enter, hover]
  simp only [findTemplateClosing?_of_lt_notMem hname]
  cases closesItself t.behindName <;> simp

/-- A closing tag starts with a `<`, as every tag does. -/
theorem closingTag_append (rest : List Char) :
    "</template>".toList ++ rest = '<' :: ("/template>".toList ++ rest) := rfl

/-- The scan over a closing tag. -/
theorem findTemplateClosing?_closingTag (depth : Nat) (p : Closing) (rest : List Char) :
    findTemplateClosing? depth p ('<' :: ("/template>".toList ++ rest)) =
      if depth ≤ 1 then some p
      else findTemplateClosing? (depth - 1) (p.over "</template>".toList) rest := by
  have hstart : startsWithAnyCase "</template>".toList ('<' :: ("/template>".toList ++ rest)) =
      true := by
    rw [← closingTag_append, startsWithAnyCase_iff, List.map_append]
    exact List.prefix_append _ _
  have hpass := @findTemplateClosing?_of_lt_notMem "/template>".toList (by decide) (depth - 1)
    (p.advance '<') rest
  rw [findTemplateClosing?, hstart, hpass]
  rfl

namespace TemplateContent

/-- The scan over a text before a tag. -/
theorem findTemplateClosing?_isText {chars : String} (h : IsText chars) (depth : Nat) (p : Closing)
    (rest : List Char) :
    findTemplateClosing? depth p (chars.toList ++ '<' :: rest) =
      findTemplateClosing? depth (p.over chars.toList) ('<' :: rest) := by
  refine findTemplateClosing?_passed (fun hclose => h.2 ?_) h.1 depth p rest
  exact List.IsInfix.trans (List.IsPrefix.isInfix (by decide)) hclose

/-- The scan over a text and the tag behind it. -/
theorem findTemplateClosing?_tagged {chars : String} (h : IsText chars) {t : InnerTag}
    (ht : t.Proper)
    (depth : Nat) (p : Closing) (rest : List Char) :
    findTemplateClosing? depth p (chars.toList ++ (t.chars ++ rest)) =
      findTemplateClosing? (t.enter depth) (p.over (chars.toList ++ t.chars)) rest := by
  rw [InnerTag.chars, List.cons_append, findTemplateClosing?_isText h, ← List.cons_append,
    ← InnerTag.chars, findTemplateClosing?_innerTag ht, Closing.over_append]

/-- A content that the scan comes through. -/
theorem findTemplateClosing?_of_depth?_eq_some {c : TemplateContent}
    (htags : ∀ t ∈ c.tags, t.Proper)
    (htexts : ∀ chars ∈ c.texts, IsText chars) {depth depth' : Nat}
    (hdepth : c.depth? depth = some depth') (p : Closing) (rest : List Char) :
    findTemplateClosing? depth p (c.chars ++ '<' :: rest) =
      findTemplateClosing? depth' (p.over c.chars) ('<' :: rest) := by
  induction c generalizing depth depth' p rest with
  | text chars =>
    cases hdepth
    exact findTemplateClosing?_isText (htexts chars List.mem_cons_self) depth p rest
  | closed chars attributes behind ih =>
    rw [tags, List.forall_mem_cons] at htags
    rw [texts, List.forall_mem_cons] at htexts
    rw [TemplateContent.chars, List.append_assoc, List.append_assoc,
      findTemplateClosing?_tagged htexts.1 htags.1, ih htags.2 htexts.2 hdepth]
    simp only [Closing.over_append]
  | opened chars attributes inner behind ihInner ihBehind =>
    rw [tags, List.forall_mem_cons, List.forall_mem_append] at htags
    rw [texts, List.forall_mem_cons, List.forall_mem_append] at htexts
    obtain ⟨mid, hmid, hdepth⟩ := Option.bind_eq_some_iff.mp hdepth
    split at hdepth
    · cases hdepth
    · next hdeep =>
      simp only [TemplateContent.chars, List.append_assoc, closingTag_append, List.cons_append]
      rw [findTemplateClosing?_tagged htexts.1 htags.1, ihInner htags.2.1 htexts.2.1 hmid,
        findTemplateClosing?_closingTag, if_neg hdeep,
        ihBehind htags.2.2 htexts.2.2 hdepth]
      simp only [← closingTag_append, Closing.over_append]

/-- A content in which the scan comes to its end: it does so at a closing tag in there. -/
theorem exists_of_depth?_eq_none {c : TemplateContent} (htags : ∀ t ∈ c.tags, t.Proper)
    (htexts : ∀ chars ∈ c.texts, IsText chars) {depth : Nat} (hdepth : c.depth? depth = none)
    (p : Closing) (rest : List Char) :
    ∃ front back, c.chars = front ++ '<' :: back ∧
      findTemplateClosing? depth p (c.chars ++ '<' :: rest) = some (p.over front) := by
  induction c generalizing depth p rest with
  | text chars => cases hdepth
  | closed chars attributes behind ih =>
    rw [tags, List.forall_mem_cons] at htags
    rw [texts, List.forall_mem_cons] at htexts
    obtain ⟨front, back, hbehind, hfind⟩ := ih htags.2 htexts.2 hdepth
      (p.over (chars.toList ++ InnerTag.chars ⟨attributes, true⟩)) rest
    refine ⟨chars.toList ++ InnerTag.chars ⟨attributes, true⟩ ++ front, back, ?_, ?_⟩
    · simp only [TemplateContent.chars, hbehind, List.append_assoc]
    · rw [TemplateContent.chars, List.append_assoc, List.append_assoc,
        findTemplateClosing?_tagged htexts.1 htags.1, hfind, Closing.over_append _ _ front]
  | opened chars attributes inner behind ihInner ihBehind =>
    rw [tags, List.forall_mem_cons, List.forall_mem_append] at htags
    rw [texts, List.forall_mem_cons, List.forall_mem_append] at htexts
    -- The scan ends inside of the inner content, at the closing tag behind it, or later.
    simp only [TemplateContent.chars, List.append_assoc, closingTag_append, List.cons_append,
      findTemplateClosing?_tagged htexts.1 htags.1]
    let head := chars.toList ++ InnerTag.chars ⟨attributes, false⟩
    cases hmid : inner.depth? (InnerTag.enter ⟨attributes, false⟩ depth) with
    | none =>
      obtain ⟨front, back, hinner, hfind⟩ := ihInner htags.2.1 htexts.2.1 hmid (p.over head)
        ("/template>".toList ++ (behind.chars ++ '<' :: rest))
      refine ⟨head ++ front, back ++ '<' :: ("/template>".toList ++ behind.chars), ?_, ?_⟩
      · simp only [head, hinner, List.append_assoc, List.cons_append]
      · rw [hfind, Closing.over_append _ head]
    | some mid =>
      rw [findTemplateClosing?_of_depth?_eq_some htags.2.1 htexts.2.1 hmid,
        findTemplateClosing?_closingTag]
      rw [depth?, hmid] at hdepth
      simp only [Option.bind_eq_bind, Option.bind_some] at hdepth
      split
      · -- the closing tag of the inner template ends the outer one
        refine ⟨head ++ inner.chars, "/template>".toList ++ behind.chars, ?_, ?_⟩
        · simp only [head, List.append_assoc]
        · rw [Closing.over_append _ head]
      · next hdeep =>
        rw [if_neg hdeep] at hdepth
        obtain ⟨front, back, hbehind, hfind⟩ := ihBehind htags.2.2 htexts.2.2 hdepth
          (p.over (head ++ inner.chars ++ "</template>".toList)) rest
        refine ⟨head ++ inner.chars ++ "</template>".toList ++ front, back, ?_, ?_⟩
        · simp only [head, hbehind, List.append_assoc, closingTag_append, List.cons_append]
        · rw [Closing.over_append _ _ front, ← hfind]
          simp only [head, Closing.over_append]

/-! ### Files

In a file with nothing but the template, a scan that is back where it started stands before the
closing tag of the template. Else it has ended before, or goes on behind it; then no block of the
file has the content that was written. -/

/-- The text of a file with nothing but a template, and what stands behind it. -/
def file (c : TemplateContent) (tail : List Char) : String :=
  String.ofList ('<' :: ("template>".toList ++ (c.chars ++ '<' :: ("/template>".toList ++ tail))))

/-- The block that is written. -/
def block (c : TemplateContent) : Block :=
  let closing := Closing.over ⟨10, 1, 0⟩ c.chars
  { tag := "template"
    attributes := []
    content := String.ofList c.chars
    location :=
      ⟨0, 10, closing.offset, 1, 1, closing.line, closing.offset - closing.lineFeed + 11⟩ }

end TemplateContent

/-- What is read of a file that starts with a template. -/
theorem Found.read?_template (body : List Char) :
    Found.read? ⟨0, 1, 1⟩ ("template>".toList ++ body) =
      (findTemplateClosing? 1 ⟨10, 1, 0⟩ body).map fun closing =>
        OpenTag.found ⟨"template", [], false, body⟩ ⟨0, 1, 1⟩ 10 closing 11 := by
  have hread : OpenTag.read? ("template>".toList ++ body) = some ⟨"template", [], false, body⟩ :=
    Written.read?_opening (w := ⟨[], "template", [], ""⟩) (by decide) body
  have hsize : byteSize ("template>".toList ++ body) - byteSize body = 9 := by
    rw [Text.byteSize_append, Nat.add_sub_cancel]
    rfl
  have hname : sameName "template" "template" = true := by decide
  simp only [Found.read?, hread, Option.bind_eq_bind, Option.bind_some, hsize, hname, if_true,
    if_false, Bool.false_eq_true]
  cases findTemplateClosing? 1 ⟨10, 1, 0⟩ body <;> rfl

/-- The content goes up to where the scan came to its end. -/
theorem content_found {body front back : List Char} (h : body = front ++ back) :
    (OpenTag.found ⟨"template", [], false, body⟩ ⟨0, 1, 1⟩ 10 (Closing.over ⟨10, 1, 0⟩ front)
      11).block.content = String.ofList front := by
  have hmiddle := Text.between_middle [] front back
  rw [List.nil_append, Text.byteSize_nil, Nat.zero_add, ← h] at hmiddle
  simp only [OpenTag.found, Closing.offset_over, Nat.add_sub_cancel_left, hmiddle]

/-- The blocks of a file that starts with a template. -/
theorem blocks_template (body : List Char) :
    blocks (String.ofList ('<' :: ("template>".toList ++ body))) =
      match findTemplateClosing? 1 ⟨10, 1, 0⟩ body with
      | some closing =>
        let found := OpenTag.found ⟨"template", [], false, body⟩ ⟨0, 1, 1⟩ 10 closing 11
        found.block :: blocksFrom (body.length + 10) found.place found.rest
      | none => blocksFrom (body.length + 10) (Place.over ⟨0, 1, 1⟩ "<template>".toList) body := by
  have hlength : ('<' :: ("template>".toList ++ body)).length = body.length + 10 := by
    rw [List.length_cons, List.length_append, Nat.add_comm _ body.length]
    rfl
  have hcomment : "!--".toList.isPrefixOf ("template>".toList ++ body) = false := by
    simp [List.isPrefixOf]
  rw [blocks, String.toList_ofList, hlength, blocksFrom, List.takeWhile_cons_of_neg (by decide),
    List.dropWhile_cons_of_neg (by decide)]
  simp only [hcomment, if_false, Bool.false_eq_true]
  rw [show Place.over ⟨0, 1, 1⟩ [] = ⟨0, 1, 1⟩ from rfl, Found.read?_template]
  cases findTemplateClosing? 1 ⟨10, 1, 0⟩ body with
  | some closing => rfl
  | none =>
    have hover : Place.over ⟨0, 1, 1⟩ "<template>".toList =
        (Place.advance ⟨0, 1, 1⟩ '<').over "template>".toList := rfl
    rw [hover, ← blocksFrom_passed (by decide)]
    rfl

/-- A block takes two more `<` than its content has, unless it is empty. -/
theorem Part.count_lt {x : Part} (h : x.Proper) (hne : x.content ≠ []) :
    x.content.count '<' + 2 ≤ x.text.count '<' := by
  obtain ⟨region, hopening, -⟩ := h.opening_eq
  have hself : ¬ SelfClosed x.opening := fun hself => hne (h.of_selfClosed hself).1
  have hspelled := (h.of_not_selfClosed hself).spelled
  have hclosing : '<' ∈ x.closing := by
    have hmem : '<' ∈ x.closing.map Char.toLower := by
      rw [hspelled, closingTag]
      simp
    obtain ⟨c, hc, hlower⟩ := List.mem_map.mp hmem
    rwa [Text.toLower_eq_lt hlower] at hc
  have hpos := List.count_pos_iff.mpr hclosing
  simp only [Part.text, List.count_append, hopening, List.cons_append, List.count_cons_self]
  omega

namespace TemplateContent

variable {c : TemplateContent} {tail : List Char}

/-- A template whose tags balance is the only block of its file. -/
theorem blocks_of_depth?_eq_one (h : c.Proper) (htail : '<' ∉ tail) (hdepth : c.depth? 1 = some 1) :
    blocks (c.file tail) = [c.block] := by
  have hclosing : findTemplateClosing? 1 ⟨10, 1, 0⟩ (c.chars ++
      '<' :: ("/template>".toList ++ tail)) =
      some (Closing.over ⟨10, 1, 0⟩ c.chars) := by
    rw [findTemplateClosing?_of_depth?_eq_some h.tags_proper h.texts_proper hdepth,
      findTemplateClosing?_closingTag, if_pos (Nat.le_refl 1)]
  have hrest : Text.suffixFrom (c.chars ++ '<' :: ("/template>".toList ++ tail))
      (byteSize c.chars + 11) = tail := by
    have hsuffix := Text.suffixFrom_append (c.chars ++ "</template>".toList) tail
    have hsize : byteSize "</template>".toList = 11 := by decide
    rwa [Text.byteSize_append, List.append_assoc, hsize, closingTag_append] at hsuffix
  have hnone : ∀ n p, blocksFrom n p tail = [] := by
    intro n p
    have hpass := blocksFrom_passed htail n p []
    rw [List.append_nil] at hpass
    rw [hpass]
    cases n <;> rfl
  have hmiddle := Text.between_middle [] c.chars ('<' :: ("/template>".toList ++ tail))
  rw [List.nil_append, Text.byteSize_nil, Nat.zero_add] at hmiddle
  have hblocks : blocks (c.file tail) = _ := blocks_template _
  rw [hclosing] at hblocks
  rw [hblocks]
  simp only [OpenTag.found, Closing.offset_over, Nat.add_sub_cancel_left, hmiddle, hrest, hnone]
  simp only [block, Closing.offset_over]

/-- Where a template is not found, no other block has its content. -/
theorem content_ne_of_blocksFrom (hne : c.chars ≠ []) (htail : '<' ∉ tail) (n : Nat) (p : Place)
    {b : Block} (hb : b ∈ blocksFrom n p (c.chars ++ '<' :: ("/template>".toList ++ tail))) :
    b.content ≠ String.ofList c.chars := by
  intro hcontent
  obtain ⟨xs, rest, hxs, hsplit, hblocks⟩ :=
    cut_blocksFrom n p (c.chars ++ '<' :: ("/template>".toList ++ tail))
  rw [hblocks] at hb
  obtain ⟨before, behind, hplaced⟩ := List.append_of_mem hb
  obtain ⟨as, x, ys, rfl, -, rfl⟩ := exists_of_placed_eq hplaced
  have hx : x.content = c.chars := String.ofList_injective hcontent
  have hcount := Part.count_lt (hxs x (by simp)) (hx ▸ hne)
  have hle : x.text.count '<' ≤ (c.chars ++ '<' :: ("/template>".toList ++ tail)).count '<' := by
    rw [hsplit]
    simp only [List.flatMap_append, List.flatMap_cons, List.count_append]
    omega
  have htailCount : ("/template>".toList ++ tail).count '<' = 0 := by
    rw [List.count_eq_zero, List.mem_append]
    exact not_or.mpr ⟨by decide, htail⟩
  rw [List.count_append, List.count_cons_self, htailCount, ← hx] at hle
  omega

/-- A content without text has no tags. -/
theorem depth?_of_chars_eq_nil (h : c.chars = []) (depth : Nat) : c.depth? depth = some depth := by
  cases c with
  | text chars => rfl
  | closed chars attributes behind => simp [TemplateContent.chars, InnerTag.chars] at h
  | opened chars attributes inner behind => simp [TemplateContent.chars, InnerTag.chars] at h

/-- **Nested templates.** Let the content of a template be built of text, of templates that close
themselves and of templates with a content of their own, to any depth. The template is found as it
was written, and no other block is, exactly if the scan is back at the depth it started from behind
the content. It is so where no value of an attribute holds a `>`. -/
theorem parse_nested (h : c.Proper) (htail : '<' ∉ tail) :
    ((∃ b, Descriptor.parse (c.file tail) = .ok { template := some b } ∧
        b.content = String.ofList c.chars) ↔ c.depth? 1 = some 1) ∧
    ((∀ t ∈ c.tags, t.IsPlain) →
      Descriptor.parse (c.file tail) = .ok { template := some c.block }) := by
  have hparse : c.depth? 1 = some 1 →
      Descriptor.parse (c.file tail) = .ok { template := some c.block } := by
    intro hdepth
    have hscript : sameName c.block.tag "script" = false := by
      show sameName "template" "script" = false
      decide
    have htemplate : sameName c.block.tag "template" = true := by
      show sameName "template" "template" = true
      decide
    rw [Descriptor.parse, blocks_of_depth?_eq_one h htail hdepth, Descriptor.ofBlocks]
    simp [Descriptor.add, hscript, htemplate]
  refine ⟨⟨fun hfound => ?_, fun hdepth => ⟨c.block, hparse hdepth, rfl⟩⟩, fun hplain =>
    hparse (depth?_of_isPlain h.tags_proper hplain (Nat.le_refl 1))⟩
  obtain ⟨b, hb, hcontent⟩ := hfound
  have hmem : ∀ b', b' ∈ blocks (c.file tail) ↔ b' = b := by
    intro b'
    rw [← Descriptor.mem_blocks_iff hb]
    exact List.mem_singleton
  by_contra hdepth
  have hne : c.chars ≠ [] := fun hnil => hdepth (depth?_of_chars_eq_nil hnil 1)
  have hblocks : blocks (c.file tail) = _ := blocks_template _
  cases hd : c.depth? 1 with
  | none =>
    -- the template ends too early
    obtain ⟨front, back, hchars, hclosing⟩ :=
      exists_of_depth?_eq_none h.tags_proper h.texts_proper hd ⟨10, 1, 0⟩
        ("/template>".toList ++ tail)
    rw [hclosing] at hblocks
    rw [hblocks] at hmem
    have hfirst := (hmem _).mp List.mem_cons_self
    have hbody : c.chars ++ '<' :: ("/template>".toList ++ tail) =
        front ++ ('<' :: back ++ '<' :: ("/template>".toList ++ tail)) := by
      rw [hchars, List.append_assoc]
    have hfront := content_found hbody
    rw [hfirst, hcontent] at hfront
    have hlength := congrArg List.length (String.ofList_injective hfront)
    rw [hchars, List.length_append, List.length_cons] at hlength
    omega
  | some depth =>
    -- the template does not end
    have hle := one_le_of_depth?_eq_some hd (Nat.le_refl 1)
    have hdeep : ¬ depth ≤ 1 := by
      intro hshallow
      rw [hd, Nat.le_antisymm hshallow hle] at hdepth
      exact hdepth rfl
    have hnone : ∀ d p, findTemplateClosing? d p tail = none := by
      intro d p
      have hpass := findTemplateClosing?_of_lt_notMem htail d p []
      rwa [List.append_nil] at hpass
    rw [findTemplateClosing?_of_depth?_eq_some h.tags_proper h.texts_proper hd,
      findTemplateClosing?_closingTag, if_neg hdeep, hnone] at hblocks
    rw [hblocks] at hmem
    exact content_ne_of_blocksFrom hne htail _ _ ((hmem b).mpr rfl) hcontent

/-- A template that closes itself, one with another inside, and a value with a slash. -/
def listed : TemplateContent :=
  .opened "\n <p>" [⟨"v-for", some "i in a/b"⟩, ⟨"#row", none⟩]
    (.closed "é<Temp" [⟨"v-if", some "c"⟩] (.opened "" [] (.text "x") (.text "</p>")))
    (.text "<script>\n")

theorem parse_nested_listed :
    Descriptor.parse (listed.file " \n".toList) = .ok { template := some listed.block } ∧
    listed.block.location = ⟨0, 10, 121, 1, 1, 3, 12⟩ :=
  ⟨(parse_nested (by decide +kernel) (by decide)).2 (by decide +kernel), by decide +kernel⟩

/-- A template that closes itself, with a condition that compares. -/
def compared : TemplateContent :=
  .closed "" [⟨"v-if", some "a > b"⟩] (.text "")

/-- The outer template is lost: what is found is the inner one. -/
theorem parse_compared : compared.Proper ∧
    Descriptor.parse (compared.file "\n".toList) =
      .ok { template := some ⟨"template", [("v-if", "a > b")], "", ⟨10, 35, 35, 1, 11, 1, 25⟩⟩ } ∧
    ¬ ∃ b, Descriptor.parse (compared.file "\n".toList) = .ok { template := some b } ∧
      b.content = String.ofList compared.chars := by
  have hparse : Descriptor.parse (compared.file "\n".toList) =
      .ok { template := some ⟨"template", [("v-if", "a > b")], "", ⟨10, 35, 35, 1, 11, 1, 25⟩⟩
        } := by
    rfl
  refine ⟨by decide +kernel, hparse, ?_⟩
  intro hfound
  obtain ⟨b, hb, hcontent⟩ := hfound
  rw [hparse] at hb
  cases hb
  exact absurd hcontent (by decide +kernel)

end TemplateContent

end VueSetup.Sfc
