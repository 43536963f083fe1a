import VueSetup.Proofs.Pass.Setup
import VueSetup.Proofs.Prop.Table
import VueSetup.Proofs.Text.Tag

/-!
# VueSetup.Proofs.Pass.Sealed

The texts that the passes insert into a script without a closing tag are sealed, so that they can
stand anywhere in it.

Each declaration puts texts of the script and names between characters that no tag has. A name that
is spelled out in the script holds no `<`. The key of a prop may stand in the script with escapes
and is written without them, so that it has to be asked of each key that it holds no tag.
-/

namespace VueSetup

open Script (Laid Node Program)
open Text

/-! ### Joined texts

Sealed texts are sealed in a row, which a text that only has no tag in it is not: the tag may come
about where two of them meet. -/

/-- Nothing is inserted where the text is empty. -/
theorem Text.sealed_nil : Sealed [] :=
  sealed_of_lt_notMem List.not_mem_nil

/-- Sealed texts in a row are sealed. -/
theorem Text.sealed_flatMap {α : Type} {as : List α} {f : α → List Char}
    (h : ∀ a ∈ as, Sealed (f a)) : Sealed (as.flatMap f) := by
  induction as with
  | nil => exact sealed_nil
  | cons a as ih =>
    rw [List.flatMap_cons]
    exact (h a List.mem_cons_self).append (ih fun b hb => h b (List.mem_cons_of_mem _ hb))

/-- Joined strings are sealed if each of them is. -/
theorem Text.sealed_join {texts : List String} (h : ∀ text ∈ texts, Sealed text.toList) :
    Sealed (String.join texts).toList := by
  rw [String.toList_join]
  exact sealed_flatMap h

/-- A line feed is not in the tag, so that none comes about where lines are joined. -/
theorem Text.tagFree_joinLines {ls : List (List Char)} (h : ∀ l ∈ ls, TagFree l) :
    TagFree (joinLines ls) := by
  fun_induction joinLines ls with
  | case1 => exact sealed_nil.free
  | case2 l => exact h l List.mem_cons_self
  | case3 l ls _ ih =>
    have hline := (h l List.mem_cons_self).append_sealed (by decide) (by decide : Sealed ['\n'])
    simpa using hline.append_tagFree (ih fun l hl => h l (List.mem_cons_of_mem _ hl))

/-- Every line is a part of the lines joined. -/
theorem Text.infix_joinLines {l : List Char} {ls : List (List Char)} (h : l ∈ ls) :
    l <:+: joinLines ls := by
  fun_induction joinLines ls with
  | case1 => cases h
  | case2 l => exact List.mem_singleton.mp h ▸ List.infix_rfl
  | case3 first ls _ ih =>
    rcases List.mem_cons.mp h with rfl | h
    · exact (List.prefix_append _ _).isInfix
    · exact (ih h).trans ((List.suffix_cons _ _).trans (List.suffix_append _ _)).isInfix

/-- None of the texts of a prop holds a closing tag. -/
structure PropRecord.IsTagFree (r : PropRecord) : Prop where
  key : TagFree r.key.toList
  type : TagFree r.type.render.toList
  default : ∀ d, r.default = some d → TagFree d.text.toList

namespace Declaration

/-! ### Keys

A quoted key is the key with backslashes before some of its characters, none of which the tag has.
-/

/-- A plain name has letters, digits, `_` and `$` only. -/
theorem lt_notMem_of_isPlainName {s : String} (h : isPlainName s = true) : '<' ∉ s.toList := by
  unfold isPlainName at h
  split at h
  · cases h
  · next c cs hs =>
    rw [hs]
    simp only [Bool.and_eq_true, List.all_eq_true] at h
    rintro (_ | ⟨_, hmem⟩)
    · exact absurd h.1 (by decide)
    · exact absurd (h.2 _ hmem) (by decide)

/-- Backslashes before characters that no tag has do not make one. -/
theorem tagFree_escapeQuoted (front : List Char) {key : List Char} (h : TagFree (front ++ key)) :
    TagFree (front ++ key.flatMap escapeQuoted) := by
  induction key generalizing front with
  | nil => exact h
  | cons k key ih =>
    rw [List.flatMap_cons, escapeQuoted]
    split
    · next hk =>
      have hpair : Sealed ['\\', k] := by
        simp only [Bool.or_eq_true, beq_iff_eq] at hk
        rcases hk with rfl | rfl <;> decide
      have hfront := (h.of_infix (List.prefix_append _ _).isInfix).append_sealed (by decide) hpair
      have hkey : TagFree ([] ++ key.flatMap escapeQuoted) :=
        ih [] (h.of_infix ((List.suffix_cons k key).trans (List.suffix_append _ _)).isInfix)
      simpa using hfront.append_tagFree hkey
    · simpa using ih (front ++ [k]) (by simpa using h)

/-- A quoted key holds a tag only if the key does. -/
theorem tagFree_quoteKey {key : String} (h : TagFree key.toList) :
    TagFree (quoteKey key).toList := by
  unfold quoteKey
  split
  · exact h
  · have hquote : Sealed ['\''] := by decide
    have hkey : TagFree (key.toList.flatMap escapeQuoted) := tagFree_escapeQuoted [] h
    simpa using (hquote.enclose hkey (by decide) hquote).free

/-! ### Declarations

Each declaration starts and ends with characters of its own, so that the texts in it need only be
free of tags for the whole to be sealed. -/

/-- The member of a prop in the type of all props. -/
theorem sealed_propsTypeMember {r : PropRecord} (h : r.IsTagFree) :
    Sealed (propsTypeMember r).toList := by
  have hindent : Sealed [' ', ' '] := by decide
  have hfeed : Sealed ['\n'] := by decide
  have hkey := tagFree_quoteKey h.key
  unfold propsTypeMember
  split
  · have hmark : Sealed ['?', ':', ' '] := by decide
    simpa using (hindent.enclose hkey (by decide) hmark).enclose h.type (by decide) hfeed
  · have hmark : Sealed [':', ' '] := by decide
    simpa using (hindent.enclose hkey (by decide) hmark).enclose h.type (by decide) hfeed

/-- The type of all props, member by member. -/
theorem sealed_propsType {records : List PropRecord} (h : ∀ r ∈ records, r.IsTagFree) :
    Sealed (propsType records).toList := by
  have hmembers : Sealed (String.join (records.map propsTypeMember)).toList := by
    refine sealed_join fun text htext => ?_
    obtain ⟨r, hr, rfl⟩ := List.mem_map.mp htext
    exact sealed_propsTypeMember (h r hr)
  have hopen : Sealed "type Props = \x7b\n".toList := sealed_of_lt_notMem (by simp)
  have hclose : Sealed "\x7d\n".toList := sealed_of_lt_notMem (by simp)
  show Sealed ("type Props = \x7b\n" ++ String.join (records.map propsTypeMember) ++
    "\x7d\n").toList
  simpa only [String.toList_append] using (hopen.append hmembers).append hclose

/-- The default of a prop stands between its key and a comma. -/
theorem sealed_defaultMember {r : PropRecord} (h : r.IsTagFree) {text : String}
    (htext : defaultMember r = some text) : Sealed text.toList := by
  obtain ⟨d, hd, rfl⟩ := Option.map_eq_some_iff.mp htext
  have hindent : Sealed [' ', ' '] := by decide
  have hcolon : Sealed [':', ' '] := by decide
  have hcomma : Sealed [',', '\n'] := by decide
  simpa using (hindent.enclose (tagFree_quoteKey h.key) (by decide) hcolon).enclose
    (h.default d hd) (by decide) hcomma

/-- The declaration of the props by a type, with or without defaults. -/
theorem sealed_typedProps {binding : String} (hbinding : '<' ∉ binding.toList)
    {records : List PropRecord} (h : ∀ r ∈ records, r.IsTagFree) (withDefaults : Bool) :
    Sealed (typedProps binding records withDefaults).toList := by
  have hconst : Sealed "const ".toList := sealed_of_lt_notMem (by simp)
  have hname := hconst.append (sealed_of_lt_notMem hbinding)
  have hdefaults : Sealed (String.join (records.filterMap defaultMember)).toList := by
    refine sealed_join fun text htext => ?_
    obtain ⟨r, hr, htext⟩ := List.mem_filterMap.mp htext
    exact sealed_defaultMember (h r hr) htext
  have hcall : Sealed "defineProps<Props>()".toList := by
    have hword : Sealed "defineProps".toList := sealed_of_lt_notMem (by simp)
    have htype : Sealed ['<', 'P', 'r', 'o', 'p', 's', '>', '(', ')'] := by decide
    simpa using hword.append htype
  simp only [typedProps]
  split
  · have hopen : Sealed " = withDefaults(".toList := sealed_of_lt_notMem (by simp)
    have hbrace : Sealed ", \x7b\n".toList := sealed_of_lt_notMem (by simp)
    have hclose : Sealed "\x7d)\n".toList := sealed_of_lt_notMem (by simp)
    have hcode := ((((hname.append hopen).append hcall).append hbrace).append hdefaults).append
      hclose
    simpa only [String.toList_append] using hcode
  · have hopen : Sealed " = ".toList := sealed_of_lt_notMem (by simp)
    have hfeed : Sealed "\n".toList := sealed_of_lt_notMem (by simp)
    simpa only [String.toList_append] using ((hname.append hopen).append hcall).append hfeed

/-- The declaration of the props by the value of the option. -/
theorem sealed_runtimeProps {binding expr : String} (hbinding : '<' ∉ binding.toList)
    (h : TagFree expr.toList) : Sealed (runtimeProps binding expr).toList := by
  have hconst : Sealed "const ".toList := sealed_of_lt_notMem (by simp)
  have hcall : Sealed " = defineProps(".toList := sealed_of_lt_notMem (by simp)
  have hclose : Sealed [')', '\n'] := by decide
  simpa [runtimeProps] using ((hconst.append (sealed_of_lt_notMem hbinding)).append hcall).enclose h
    (by decide) hclose

/-- The declaration of the events. -/
theorem sealed_emits {expr : String} (h : TagFree expr.toList) : Sealed (emits expr).toList := by
  have hcall : Sealed ("const " ++ emitBinding ++ " = defineEmits(").toList :=
    sealed_of_lt_notMem (by simp [emitBinding])
  have hclose : Sealed [')', '\n'] := by decide
  simpa [emits] using hcall.enclose h (by decide) hclose

/-- The binding of a registered component holds no tag. It is not sealed, as it ends with the value
of the component. -/
theorem tagFree_component {key expr : String} (hkey : '<' ∉ key.toList) (h : TagFree expr.toList) :
    TagFree (component key expr).toList := by
  have hconst : Sealed "const ".toList := sealed_of_lt_notMem (by simp)
  have heq : Sealed " = ".toList := sealed_of_lt_notMem (by simp)
  have hname := (hconst.append (sealed_of_lt_notMem hkey)).append heq
  simpa [component] using hname.append_tagFree h

/-! ### Statements of `setup`

A statement is moved without its indentation. What is taken off is blank, and stands behind a line
feed. -/

/-- Only the front of a line is taken off. -/
theorem outdentLine_suffix (indent : Nat) (line : List Char) :
    outdentLine indent line <:+ line := by
  fun_induction outdentLine indent line with
  | case1 n c cs _ ih => exact ih.trans (List.suffix_cons c cs)
  | case2 => exact List.suffix_rfl
  | case3 => exact List.suffix_rfl

/-- Taking indentation off makes no tag: it stands behind line feeds. -/
theorem tagFree_outdent {text : String} (h : TagFree text.toList) (indent : Nat)
    (verbatim : List Nat) : TagFree (outdent text indent verbatim).toList := by
  have hlines : ∀ l ∈ Text.splitLines text.toList, TagFree l := by
    intro l hl
    have hpart := infix_joinLines hl
    rw [joinLines_splitLines] at hpart
    exact h.of_infix hpart
  rw [outdent, String.toList_ofList]
  refine tagFree_joinLines fun l hl => ?_
  cases hsplit : Text.splitLines text.toList with
  | nil => exact absurd hsplit (splitLines_ne_nil _)
  | cons first others =>
    rw [hsplit] at hl hlines
    rcases List.mem_cons.mp hl with rfl | hl
    · exact hlines _ List.mem_cons_self
    · obtain ⟨i, hi, rfl⟩ := List.mem_mapIdx.mp hl
      have hline := hlines _ (List.mem_cons_of_mem first (List.getElem_mem hi))
      split
      · exact hline
      · exact hline.of_infix (outdentLine_suffix indent _).isInfix

end Declaration

/-! ### Types and defaults

The types of a prop are names, or texts of the script as they stand there. -/

/-- The types that stand for constructors have no `<`, whatever the name of the constructor is. -/
theorem lt_notMem_ofConstructor {name : String} (h : '<' ∉ name.toList) :
    '<' ∉ (PropType.ofConstructor name).render.toList := by
  unfold PropType.ofConstructor
  split
  · next k _ => cases k <;> simp [PropType.render, TypeKeyword.render]
  · simpa [PropType.render] using h

theorem lt_notMem_union {ts : List PropType} (h : ∀ t ∈ ts, '<' ∉ t.render.toList) :
    '<' ∉ (PropType.union ts).render.toList := by
  rw [PropType.render]
  induction ts with
  | nil => simp [PropType.renderAll]
  | cons t ts ih =>
    have ht := h t List.mem_cons_self
    have hts := ih fun t ht => h t (List.mem_cons_of_mem _ ht)
    rw [PropType.renderAll]
    by_cases hnil : PropType.renderAll ts = []
    · simpa [hnil] using ht
    · rw [String.intercalate_cons_of_ne_nil hnil, String.toList_append, String.toList_append]
      simpa [ht] using hts

theorem tagFree_constructors {names : List String} (h : ∀ name ∈ names, '<' ∉ name.toList) :
    TagFree (TypeHint.constructors names).resolve.render.toList := by
  refine (sealed_of_lt_notMem ?_).free
  rcases names with _ | ⟨name, _ | ⟨second, others⟩⟩
  · simp [TypeHint.resolve, PropType.render, TypeKeyword.render]
  · exact lt_notMem_ofConstructor (h name List.mem_cons_self)
  · refine lt_notMem_union fun t ht => ?_
    obtain ⟨name, hname, rfl⟩ := List.mem_map.mp ht
    exact lt_notMem_ofConstructor (h name hname)

theorem tagFree_constructor {name : String} (h : '<' ∉ name.toList) :
    TagFree (TypeHint.constructor name).resolve.render.toList :=
  (sealed_of_lt_notMem (lt_notMem_ofConstructor h)).free

namespace PropTable

variable {src : List Char}

theorem tagFree_textOf (h : TagFree src) (n : Node) : TagFree (textOf src n).toList := by
  rw [textOf, String.toList_ofList]
  exact h.between _ _

/-- The type that a value is cast to stands in the script. -/
theorem tagFree_castHint? (h : TagFree src) {n : Node} {hint : TypeHint}
    (hhint : castHint? src n = some hint) : TagFree hint.resolve.render.toList := by
  unfold castHint? at hhint
  split at hhint
  · obtain ⟨argument, -, rfl⟩ := Option.map_eq_some_iff.mp hhint
    rw [TypeHint.resolve, PropType.render]
    exact tagFree_textOf h argument
  · cases hhint
    rw [TypeHint.resolve, PropType.render]
    exact tagFree_textOf h _
  · cases hhint

theorem lt_notMem_elementNames {lo hi : Nat} {span : Span} {elements : List Node}
    (h : Laid src lo hi [.array span elements]) :
    ∀ name ∈ elementNames elements, '<' ∉ name.toList := by
  intro name hname
  obtain ⟨element, hmem, hname⟩ := List.mem_filterMap.mp hname
  have hlaid : Laid src lo hi [element] := h.part_within hmem
  cases element
  case reference span name' =>
    cases hname
    exact hlaid.sits.proper
  all_goals cases hname

/-- The type that is found for a prop holds no tag. -/
theorem tagFree_typeHint (h : TagFree src) {lo hi : Nat} {n : Node} (hn : Laid src lo hi [n]) :
    TagFree (typeHint src n).resolve.render.toList := by
  have habsent : TagFree TypeHint.absent.resolve.render.toList :=
    (sealed_of_lt_notMem (by simp [TypeHint.resolve, PropType.render, TypeKeyword.render])).free
  fun_cases typeHint src n with
  | case1 span name => exact tagFree_constructor hn.sits.proper
  | case2 span elements => exact tagFree_constructors (lt_notMem_elementNames hn)
  | case3 span operand target hint hhint => exact tagFree_castHint? h hhint
  | case4 span target _ span' name =>
    have hoperand : Laid src lo hi [.reference span' name] := hn.part_within (by simp [Node.parts])
    exact tagFree_constructor hoperand.sits.proper
  | case5 => exact habsent
  | case6 => exact habsent

/-- Of the records of a component only the key has to be asked about, as it may be written with
escapes. -/
theorem isTagFree_of_mem_ofComponent (h : TagFree src) {c : Component} (hlies : c.LiesIn src)
    {r : PropRecord} (hr : r ∈ ofComponent src c) (hkey : TagFree r.key.toList) : r.IsTagFree := by
  unfold ofComponent at hr
  split at hr
  · next span members hvalue =>
    obtain ⟨p, hp, hobject⟩ := Option.map_eq_some_iff.mp hvalue
    have hlaid := hlies.property hp
    rw [hobject] at hlaid
    obtain ⟨key, -, hr⟩ := List.mem_filterMap.mp hr
    obtain ⟨prop, hprop, hr⟩ := Option.bind_eq_some_iff.mp hr
    have hvalue := Component.laid_of_findProperty? hlaid hprop
    unfold record? at hr
    split at hr
    · next heq =>
      cases hr
      rw [heq] at hvalue
      exact ⟨hkey, tagFree_constructor hvalue.sits.proper, nofun⟩
    · next heq =>
      cases hr
      rw [heq] at hvalue
      exact ⟨hkey, tagFree_constructors (lt_notMem_elementNames hvalue), nofun⟩
    · next heq =>
      obtain ⟨type, htype, hr⟩ := Option.bind_eq_some_iff.mp hr
      cases hr
      rw [heq] at hvalue
      refine ⟨hkey, tagFree_typeHint h (Component.laid_of_findProperty? hvalue htype), fun d hd =>
        ?_⟩
      obtain ⟨default, -, hd⟩ := Option.bind_eq_some_iff.mp hd
      rw [text_of_defaultOf? hd]
      exact tagFree_textOf h default.value
    · cases hr
  · cases hr

end PropTable

/-! ### Slices

A slice of the draft is a text of the script in which callees have become the name of a binding. A
tag in it would have to lie in what is kept, or to hold the name. -/

namespace Draft

/-- What is kept of a text with calls of `emit` rewritten in it: a tag has no `e`. -/
theorem tagFree_layout {src : List Char} (h : TagFree src) {stop pos : Nat} {rs : List Replacement}
    (hrs : ∀ r ∈ rs, r.text = Declaration.emitBinding) {out : List Char}
    (hout : assemble? src (layout stop pos [] rs) = some out) : TagFree out := by
  induction rs generalizing pos out with
  | nil =>
    simp [layout, layInsertions, endOfInsertions, assemble?] at hout
    exact h.slice? hout
  | cons r rs ih =>
    have hothers : ∀ q ∈ rs, q.text = Declaration.emitBinding :=
      fun q hq => hrs q (List.mem_cons_of_mem _ hq)
    rw [layout] at hout
    split at hout
    · exact ih hothers hout
    · obtain ⟨kept, hkept, hout⟩ := Option.bind_eq_some_iff.mp hout
      obtain ⟨written, hwritten, hout⟩ := Option.bind_eq_some_iff.mp hout
      obtain ⟨rest, hrest, hwritten⟩ := Option.bind_eq_some_iff.mp hwritten
      cases hwritten
      cases hout
      have hemit : Sealed ['e', 'm', 'i', 't'] := by decide
      have hfront := (h.slice? hkept).append_sealed (by decide) hemit
      rw [hrs r List.mem_cons_self]
      simpa [Declaration.emitBinding] using hfront.append_tagFree (ih hothers hrest)

/-- All that the draft inserts is sealed and stands at the start of the component's export, and all
that it replaces becomes the name of the binding for events. -/
structure Declares (source : String) (c : Component) (d : Draft) : Prop where
  source_eq : d.source = source
  insertion : ∀ i ∈ d.insertions, i.offset = c.wrapper.start ∧ Sealed i.text.toList
  replacement : ∀ r ∈ d.replacements, r.text = Declaration.emitBinding

variable {source : String} {c : Component} {d : Draft}

/-- Nothing is inserted and nothing is replaced yet. -/
theorem declares_fresh (source : String) (c : Component) : Declares source c { source } :=
  ⟨rfl, by simp [insertions], by simp [replacements]⟩

namespace Declares

theorem insertBefore (h : d.Declares source c) {text : String} (htext : Sealed text.toList) :
    (d.insertBefore c.wrapper text).Declares source c where
  source_eq := h.source_eq
  insertion := by
    intro i hi
    simp only [Draft.insertBefore, insert, insertions, edits_record, List.filterMap_append,
      List.mem_append] at hi
    rcases hi with hi | hi
    · exact h.insertion i hi
    · obtain rfl := List.mem_singleton.mp hi
      exact ⟨rfl, htext⟩
  replacement := by
    intro r hr
    simp only [Draft.insertBefore, insert, replacements, edits_record, List.filterMap_append,
      List.mem_append] at hr
    rcases hr with hr | hr
    · exact h.replacement r hr
    · cases hr

theorem foldl_overwrite (h : d.Declares source c) (spans : List Span) :
    (spans.foldl (fun d span => d.overwrite span Declaration.emitBinding) d).Declares source c := by
  rw [Pass.foldl_overwrite]
  refine ⟨h.source_eq, fun i hi => ?_, fun r hr => ?_⟩
  · rw [insertions_recordAll, filterMap_insertion?_replace, List.append_nil] at hi
    exact h.insertion i hi
  · rw [replacements_recordAll, filterMap_replacement?_replace, List.mem_append] at hr
    rcases hr with hr | hr
    · exact h.replacement r hr
    · obtain ⟨span, -, rfl⟩ := List.mem_map.mp hr
      rfl

/-- No insertion stands inside of the export. -/
theorem tagFree_slice? (h : d.Declares source c) (hfree : TagFree source.toList) {span : Span}
    (hstart : c.wrapper.start ≤ span.start) {text : String} (hslice : d.slice? span = some text) :
    TagFree text.toList := by
  have hnone : d.insertionsIn span .interior = [] := by
    rw [List.eq_nil_iff_forall_not_mem]
    intro i hi
    obtain ⟨hi, hadmits⟩ := mem_insertionsIn.mp hi
    have hoffset := (h.insertion i hi).1
    simp [Extent.admits] at hadmits
    omega
  rw [slice?, renderRange?, hnone, h.source_eq] at hslice
  split at hslice
  · obtain ⟨out, hout, rfl⟩ := Option.map_eq_some_iff.mp hslice
    rw [String.toList_ofList]
    exact tagFree_layout hfree (fun r hr => h.replacement r (mem_replacementsIn.mp hr).1) hout
  · cases hslice

end Declares

end Draft

/-! ### Passes

Each pass keeps that all insertions are sealed. The binding of a registered component is the
exception: it ends with the value of the component, and is shown to hold no tag only. -/

namespace Pass

variable {source : String} {program : Program} {c : Component} {options : Options} {d : Draft}
  {r : PassResult}

theorem lt_notMem_propsBindingName {src : List Char} (h : c.LiesIn src) :
    '<' ∉ (propsBindingName c).toList := by
  unfold propsBindingName
  cases hname : c.setup?.bind (·.paramName? 0) with
  | none => simp [Declaration.propsBinding]
  | some name =>
    obtain ⟨s, hs, hname⟩ := Option.bind_eq_some_iff.mp hname
    unfold Setup.paramName? at hname
    split at hname
    · next hparam =>
      cases hname
      exact (h.param hs (List.mem_of_getElem? hparam)).sits.proper
    · cases hname

/-- The value of an option stands behind the start of the export. -/
theorem tagFree_value (h : c.InScript source program) (hfree : TagFree source.toList)
    (hd : d.Declares source c) {name : String} {p : Property} (hp : c.property? name = some p)
    {value : String} (hvalue : d.slice? p.value.span = some value) : TagFree value.toList :=
  hd.tagFree_slice? hfree (Nat.le_of_succ_le (h.liesIn.property hp).sits.lo_le) hvalue

/-- The pass for the props, as long as the keys that it writes hold no tag. -/
theorem declares_props (h : c.InScript source program) (hfree : TagFree source.toList)
    (hkeys : declaresTypes program options = true →
      ∀ r ∈ PropTable.ofComponent source.toList c, TagFree r.key.toList)
    (hd : d.Declares source c) (hr : props program options d = some r) :
    r.draft.Declares source c := by
  have hname := lt_notMem_propsBindingName h.liesIn
  simp only [props, h.located, hd.source_eq] at hr
  cases hp : c.property? "props" with
  | none =>
    rw [hp] at hr
    cases hr
    exact hd
  | some property =>
    rw [hp] at hr
    dsimp only at hr
    split at hr
    · next htyped =>
      have hall : ∀ r ∈ PropTable.ofComponent source.toList c, r.IsTagFree := fun r hmem =>
        PropTable.isTagFree_of_mem_ofComponent hfree h.liesIn hmem
          (hkeys (by simp [declaresTypes, h.located, hp, htyped]) r hmem)
      split at hr
      · cases hr
        exact hd
      · cases hr
        refine hd.insertBefore ?_
        rw [String.toList_append]
        exact (Declaration.sealed_propsType hall).append
          (Declaration.sealed_typedProps hname hall options.withDefaults)
    · obtain ⟨value, hvalue, hr⟩ := Option.bind_eq_some_iff.mp hr
      cases hr
      exact hd.insertBefore
        (Declaration.sealed_runtimeProps hname (tagFree_value h hfree hd hp hvalue))

/-- The pass for the events. -/
theorem declares_emits (h : c.InScript source program) (hfree : TagFree source.toList)
    (hd : d.Declares source c) (hr : emits program options d = some r) :
    r.draft.Declares source c := by
  simp only [emits, h.located] at hr
  cases hp : c.property? "emits" with
  | none =>
    rw [hp] at hr
    cases hr
    exact hd
  | some property =>
    rw [hp] at hr
    dsimp only at hr
    split at hr
    · obtain ⟨value, hvalue, hr⟩ := Option.bind_eq_some_iff.mp hr
      cases hr
      have hvalue := Declaration.sealed_emits (tagFree_value h hfree hd hp hvalue)
      exact (hd.insertBefore hvalue).foldl_overwrite _
    · cases hr
      exact hd

/-- A statement that is moved ends with a line feed. -/
theorem sealed_text? (hfree : TagFree source.toList) (hd : d.Declares source c) {g : Segment}
    (hstart : c.wrapper.start ≤ g.span.start) {literals : List Span} {text : String}
    (htext : g.text? d literals = some text) : Sealed text.toList := by
  obtain ⟨slice, hslice, htext⟩ := Option.bind_eq_some_iff.mp htext
  cases htext
  have hslice := hd.tagFree_slice? hfree hstart hslice
  have hblank : Sealed (if g.blankBefore then "\n" else "").toList := by
    split
    · exact sealed_of_lt_notMem (by simp)
    · exact sealed_of_lt_notMem (by simp)
  have hcode := hblank.enclose (Declaration.tagFree_outdent hslice g.indent
    (literalLines d.source.toList literals g.span)) (by decide) (by decide : Sealed ['\n'])
  simpa using hcode

/-- The pass that moves the statements of `setup`. -/
theorem declares_setup (h : c.InScript source program) (hfree : TagFree source.toList)
    (hd : d.Declares source c) (hr : setup program options d = some r) :
    r.draft.Declares source c := by
  simp only [setup, h.located] at hr
  cases hs : c.setup? with
  | none =>
    rw [hs] at hr
    cases hr
    exact hd
  | some s =>
    rw [hs] at hr
    obtain ⟨segments, hsegments, hr⟩ := Option.bind_eq_some_iff.mp hr
    rw [hd.source_eq] at hsegments
    have hlies := h.liesIn.setup_within hs
    have hstart : ∀ g ∈ segments, c.wrapper.start ≤ g.span.start := by
      intro g hg
      have hbody := hlies.lo_le
      have hinside := (setupSegments?_within hlies hsegments g hg).lo_le
      omega
    split at hr
    · cases hr
      exact hd
    · obtain ⟨texts, htexts, hr⟩ := Option.bind_eq_some_iff.mp hr
      cases hr
      refine hd.insertBefore (sealed_join fun text htext => ?_)
      obtain ⟨g, hg, htext⟩ := exists_of_mem_mapM_text? htexts htext
      exact sealed_text? hfree hd (hstart g hg) htext

/-- The binding of a registered component holds no tag, but it may end inside of one. -/
theorem tagFree_of_mem_componentBindings (hfree : TagFree source.toList) {binding : String}
    (h : binding ∈ componentBindings source c) : TagFree binding.toList := by
  obtain ⟨entry, hentry, rfl⟩ := List.mem_map.mp h
  have hname := isPlainName_of_mem_componentEntries hentry
  refine Declaration.tagFree_component (Declaration.lt_notMem_of_isPlainName hname) ?_
  rw [textOf, String.toList_ofList]
  exact hfree.between _ _

end Pass

end VueSetup
