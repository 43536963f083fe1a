import VueSetup.Proofs.Draft.Apart
import VueSetup.Proofs.Transform.Rendered

/-!
# VueSetup.Proofs.Transform.Independence

The passes run on one draft in any order, and any of them more than once (`runPasses_independent`).

What holds of every draft that passes leave behind is `Edited`: texts were inserted outside of the
export only, and either all callees of `emit` were sent to the declared binding or none was. A pass
reads slices inside of the export, and in these it sees at most the callees. From one step
(`Inserts.pass_eq`, `Edited.record`) the run lemma `Inserts.runPasses` follows by induction on the
passes.
-/

namespace VueSetup

open Script (Dialect Laid Node Program)
open Text (IsBoundary)

/-- The passes by name. -/
inductive PassName where
  | components
  | props
  | emits
  | setup
  deriving DecidableEq, Repr

namespace PassName

/-- The pass of a name. -/
def pass : PassName → Pass
  | .components => Pass.components
  | .props => Pass.props
  | .emits => Pass.emits
  | .setup => Pass.setup

/-- Where a pass inserts: bindings of registered components behind the last import, if there is one,
all else before the export. -/
def offset (program : Program) (c : Component) : PassName → Nat
  | .components =>
    match Pass.lastImport? program with
    | some span => span.stop
    | none => c.wrapper.start
  | _ => c.wrapper.start

/-- What a pass records that inserts the given texts. The one for events rewrites callees too. -/
def edits (program : Program) (c : Component) (k : PassName) (texts : List String) : List Edit :=
  texts.map (.insert (k.offset program c)) ++
    if k = .emits ∧ texts ≠ [] then (Pass.callees c).map (.replace · Declaration.emitBinding) else
      []

end PassName

namespace Transformation

/-- The draft after passes have run on a fresh one. -/
def draftAfter? (program : Program) (options : Options) (source : String) (ks : List PassName) :
    Option Draft :=
  runPasses program options (ks.map PassName.pass) { source }

/-- One of the passes declared events and said so. -/
def EventsDeclared (program : Program) (options : Options) (source : String) (ks : List PassName) :
    Prop :=
  ∃ before behind d r, ks = before ++ .emits :: behind ∧
    draftAfter? program options source before = some d ∧
    Pass.emits program options d = some r ∧ r.produced = true

/-- The text that each pass inserts, in the order of calls. -/
def insertedBy (program : Program) (options : Options) (c : Component) (d : Draft) :
    List PassName → List Draft.Insertion
  | [] => []
  | k :: ks =>
    match k.pass program options d with
    | none => []
    | some r =>
      ⟨k.offset program c, (Pass.insertion? k.pass program options d).getD ""⟩ ::
        insertedBy program options c r.draft ks

variable {source : String} {program : Program} {c : Component} {options : Options}

/-! ### Drafts that passes leave behind

Whatever passes have run, all that they can have done to the export is to rewrite callees. The
slices that a pass reads show of this only whether it was done. -/

/-- A draft with texts outside of the export, and with all callees of `emit` rewritten or none. -/
structure Edited (source : String) (c : Component) (declared : Bool) (d : Draft) : Prop where
  source_eq : d.source = source
  insertion : ∀ i ∈ d.insertions, IsBoundary source.toList i.offset ∧
    (i.offset ≤ c.wrapper.start ∨ c.wrapper.stop ≤ i.offset)
  replacement : ∀ r, r ∈ d.replacements ↔
    declared = true ∧ ∃ span ∈ Pass.callees c, r = ⟨span, Declaration.emitBinding⟩

/-- A fresh draft has no edits. -/
theorem edited_fresh (source : String) (c : Component) : Edited source c false { source } where
  source_eq := rfl
  insertion := fun i hi => by cases hi
  replacement := fun r => by simp [Draft.replacements]

namespace Edited

variable {declared : Bool} {d d' : Draft} {span : Span}

/-- A slice inside of the export sees no insertion. -/
theorem insertionsIn_eq_nil (he : Edited source c declared d) (hlo : c.wrapper.start ≤ span.start)
    (hhi : span.stop ≤ c.wrapper.stop) : d.insertionsIn span .interior = [] := by
  rw [List.eq_nil_iff_forall_not_mem]
  intro i hi
  obtain ⟨hmem, hadmits⟩ := Draft.mem_insertionsIn.mp hi
  have houtside := (he.insertion i hmem).2
  simp only [Draft.Extent.admits, Bool.and_eq_true, decide_eq_true_eq] at hadmits
  omega

/-- The replaced callees lie apart. -/
theorem apart (he : Edited source c declared d) (h : c.InScript source program) :
    Draft.Apart d.replacements where
  start_lt_stop := by
    intro r hr
    obtain ⟨-, span, hspan, rfl⟩ := (he.replacement r).mp hr
    exact (Pass.calleeLiesIn h.liesIn hspan).start_lt_stop
  same_or_apart := by
    intro a ha b hb
    obtain ⟨-, span, hspan, rfl⟩ := (he.replacement a).mp ha
    obtain ⟨-, span', hspan', rfl⟩ := (he.replacement b).mp hb
    rcases Pass.callees_apart h.liesIn hspan hspan' with rfl | happart
    · exact .inl rfl
    · exact .inr happart

/-- Two such drafts have the same slices inside of the export. -/
theorem slice?_eq (he : Edited source c declared d) (he' : Edited source c declared d')
    (h : c.InScript source program) (hlo : c.wrapper.start ≤ span.start)
    (hhi : span.stop ≤ c.wrapper.stop) : d.slice? span = d'.slice? span := by
  refine Draft.slice?_congr_of_apart (he.source_eq.trans he'.source_eq.symm) ?_
    (he.apart h) fun r => ?_
  · rw [he.insertionsIn_eq_nil hlo hhi, he'.insertionsIn_eq_nil hlo hhi]
  · rw [Draft.mem_replacementsIn, Draft.mem_replacementsIn, he.replacement, he'.replacement]

/-- No edit lies in an option other than `setup`. -/
theorem untouched (he : Edited source c declared d) (h : c.InScript source program) {name : String}
    {p : Property} (hp : c.property? name = some p) (hne : name ≠ "setup") {n : Node}
    (hlaid : Laid source.toList p.span.start p.span.stop [n]) : d.Untouched n.span := by
  have hlo := hlaid.sits.lo_le
  have hhi := hlaid.sits.le_hi
  have hwithin := h.liesIn.within hp
  intro e hmem
  cases e with
  | insert offset text =>
    have hi : Draft.Insertion.mk offset text ∈ d.insertions :=
      List.mem_filterMap.mpr ⟨_, hmem, rfl⟩
    exact Pass.isIn_insert_of_outside text (by omega) (by omega) (he.insertion _ hi).2
  | replace s text =>
    have hr : Draft.Replacement.mk s text ∈ d.replacements :=
      List.mem_filterMap.mpr ⟨_, hmem, rfl⟩
    obtain ⟨-, callee, hcallee, heq⟩ := (he.replacement _).mp hr
    cases heq
    obtain ⟨hlt, -, -, q, hq, hstart, hstop⟩ := Pass.calleeLiesIn h.liesIn hcallee
    have happart := h.liesIn.apart hp hq hne
    simp only [Edit.isIn, Bool.and_eq_false_iff, decide_eq_false_iff_not]
    omega

/-- Callees cover whole characters. -/
theorem boundaries (he : Edited source c declared d) (h : c.InScript source program) :
    ∀ r ∈ d.replacements, IsBoundary source.toList r.span.start ∧
      IsBoundary source.toList r.span.stop := by
  intro r hr
  obtain ⟨-, callee, hcallee, rfl⟩ := (he.replacement r).mp hr
  have hlies := Pass.calleeLiesIn h.liesIn hcallee
  exact ⟨hlies.start_isBoundary, hlies.stop_isBoundary⟩

/-- In a stretch inside of the export only callees are replaced. -/
theorem settled (he : Edited source c declared d) (h : c.InScript source program)
    (hlo : c.wrapper.start ≤ span.start) (hhi : span.stop ≤ c.wrapper.stop)
    (hle : span.start ≤ span.stop) (hstart : IsBoundary source.toList span.start)
    (hstop : IsBoundary source.toList span.stop) : d.Settled span := by
  have hsource := he.source_eq
  subst hsource
  exact ⟨hstart, hstop, hle, he.insertionsIn_eq_nil hlo hhi, he.apart h, he.boundaries h⟩

/-- In the whole text the rewritten callees are replaced. -/
theorem mem_keptIn_whole (he : Edited source c declared d) (h : c.InScript source program)
    {r : Draft.Replacement} : r ∈ d.keptIn ⟨0, source.utf8ByteSize⟩ ↔
      declared = true ∧ ∃ span ∈ Pass.callees c, r = ⟨span, Declaration.emitBinding⟩ := by
  rw [Draft.mem_keptIn (he.apart h), he.replacement]
  refine ⟨And.left, fun hr => ⟨hr, Nat.zero_le _, ?_⟩⟩
  obtain ⟨-, span, hspan, rfl⟩ := hr
  rw [Text.utf8ByteSize_eq]
  exact (Pass.calleeLiesIn h.liesIn hspan).stop_isBoundary.le_byteSize

/-- What is replaced in a stretch is known by where it stands, as it all becomes the same text. -/
theorem map_span_keptIn (he : Edited source c declared d) (h : c.InScript source program)
    (span : Span) : ((d.keptIn span).map Draft.Replacement.span).map
      (Draft.Replacement.mk · Declaration.emitBinding) = d.keptIn span := by
  rw [List.map_map]
  refine (List.map_congr_left fun r hr => ?_).trans (List.map_id _)
  obtain ⟨-, callee, -, rfl⟩ := (he.replacement r).mp ((Draft.mem_keptIn (he.apart h)).mp hr).1
  rfl

/-- Such a draft is rendered with its texts inserted, and with each rewritten callee replaced
once. -/
theorem exists_render? (he : Edited source c declared d) (h : c.InScript source program) :
    ∃ callees : List Span, callees.Pairwise (fun a b => a.stop ≤ b.start) ∧
      (∀ span, span ∈ callees ↔ declared = true ∧ span ∈ Pass.callees c) ∧
      ∃ text, d.render? = some text ∧ Text.bytes text.toList =
        (Draft.walk ⟨0, source.utf8ByteSize⟩ d.insertions
          (callees.map (Draft.Replacement.mk · Declaration.emitBinding))).flatMap
            (Draft.Emission.bytes (Text.bytes source.toList)) := by
  have hsource := he.source_eq
  subst hsource
  have hend : IsBoundary d.source.toList d.source.utf8ByteSize := by
    rw [Text.utf8ByteSize_eq]
    exact Text.isBoundary_byteSize _
  have hins : ∀ i ∈ d.insertionsIn ⟨0, d.source.utf8ByteSize⟩ .closed,
      IsBoundary d.source.toList i.offset := by
    intro i hi
    exact (he.insertion i (Draft.mem_insertionsIn.mp hi).1).1
  have hrep : ∀ r ∈ d.replacementsIn ⟨0, d.source.utf8ByteSize⟩, r.span.start ≤ r.span.stop ∧
      IsBoundary d.source.toList r.span.start ∧ IsBoundary d.source.toList r.span.stop := by
    intro r hr
    have hr := (Draft.mem_replacementsIn.mp hr).1
    exact ⟨(he.apart h).start_le_stop r hr, he.boundaries h r hr⟩
  obtain ⟨text, htext, hbytes⟩ := Draft.renderRange?_eq_walk (Nat.zero_le _)
    (Text.isBoundary_zero _) hend hins hrep
  refine ⟨(d.keptIn ⟨0, d.source.utf8ByteSize⟩).map Draft.Replacement.span, ?_, ?_, text, htext, ?_⟩
  · rw [List.pairwise_map]
    exact Draft.pairwise_keptIn (he.apart h)
  · intro span
    rw [List.mem_map]
    constructor
    · rintro ⟨r, hr, rfl⟩
      obtain ⟨hdeclared, callee, hcallee, rfl⟩ := (he.mem_keptIn_whole h).mp hr
      exact ⟨hdeclared, hcallee⟩
    · rintro ⟨hdeclared, hspan⟩
      exact ⟨_, (he.mem_keptIn_whole h).mpr ⟨hdeclared, span, hspan, rfl⟩, rfl⟩
  · rw [he.map_span_keptIn h, hbytes, Draft.walkOf,
      Draft.filter_admits_whole fun i hi => (he.insertion i hi).1]

end Edited

/-! ### One pass

A pass is put down by the texts that it inserts. They depend on the draft through one bit, and for
all passes but one not at all. -/

/-- A pass inserts between characters, and outside of the export. -/
theorem isBoundary_offset (h : c.InScript source program) (k : PassName) :
    IsBoundary source.toList (k.offset program c) ∧
      (k.offset program c ≤ c.wrapper.start ∨ c.wrapper.stop ≤ k.offset program c) := by
  have hbefore : IsBoundary source.toList c.wrapper.start ∧
      (c.wrapper.start ≤ c.wrapper.start ∨ c.wrapper.stop ≤ c.wrapper.start) :=
    ⟨h.liesIn.start_isBoundary, .inl (Nat.le_refl _)⟩
  cases k with
  | components =>
    simp only [PassName.offset]
    split
    · next span hspan =>
      obtain ⟨hboundary, happart⟩ := h.lastImport span hspan
      exact ⟨hboundary, by omega⟩
    · exact hbefore
  | props => exact hbefore
  | emits => exact hbefore
  | setup => exact hbefore

/-- The insertions of a pass are its texts at its offset. -/
theorem filterMap_insertion?_edits (k : PassName) (texts : List String) :
    (k.edits program c texts).filterMap Edit.insertion? =
      texts.map (Draft.Insertion.mk (k.offset program c)) := by
  rw [PassName.edits, List.filterMap_append, Draft.filterMap_insertion?_insert]
  split
  · rw [Draft.filterMap_insertion?_replace, List.append_nil]
  · exact List.append_nil _

/-- The replacements of a pass are those of the callees, if it declares events. -/
theorem filterMap_replacement?_edits (k : PassName) (texts : List String) :
    (k.edits program c texts).filterMap Edit.replacement? =
      if k = .emits ∧ texts ≠ [] then
        (Pass.callees c).map (Draft.Replacement.mk · Declaration.emitBinding) else [] := by
  rw [PassName.edits, List.filterMap_append, Draft.filterMap_replacement?_insert, List.nil_append]
  split
  · rw [Draft.filterMap_replacement?_replace]
  · rfl

/-- A pass records something if it has a text. -/
theorem edits_eq_nil_iff (k : PassName) (texts : List String) :
    k.edits program c texts = [] ↔ texts = [] := by
  constructor
  · intro h
    simpa using (List.append_eq_nil_iff.mp h).1
  · rintro rfl
    simp [PassName.edits]

/-- What a pass records leaves a draft of the same kind. -/
theorem Edited.record {declared : Bool} {d : Draft} (he : Edited source c declared d)
    (h : c.InScript source program) (k : PassName) (texts : List String) :
    Edited source c (declared || decide (k = .emits ∧ texts ≠ []))
      (d.recordAll (k.edits program c texts)) where
  source_eq := he.source_eq
  insertion := by
    intro i hi
    rw [Draft.insertions_recordAll, filterMap_insertion?_edits, List.mem_append] at hi
    rcases hi with hi | hi
    · exact he.insertion i hi
    · obtain ⟨text, -, rfl⟩ := List.mem_map.mp hi
      exact isBoundary_offset h k
  replacement := by
    intro r
    rw [Draft.replacements_recordAll, filterMap_replacement?_edits, List.mem_append, he.replacement,
      Bool.or_eq_true, decide_eq_true_eq, or_and_right]
    refine or_congr Iff.rfl ?_
    by_cases hk : k = .emits ∧ texts ≠ []
    · rw [if_pos hk, List.mem_map]
      exact ⟨fun ⟨span, hspan, heq⟩ => ⟨hk, span, hspan, heq.symm⟩,
        fun ⟨_, span, hspan, heq⟩ => ⟨span, hspan, heq.symm⟩⟩
    · rw [if_neg hk]
      simp [hk]

/-- The texts of the passes: they depend on a draft only through whether the events are declared,
and only that of `setup` does so. -/
structure Inserts (source : String) (program : Program) (c : Component) (options : Options)
    (texts : Bool → PassName → List String) : Prop where
  same : ∀ k ≠ .setup, ∀ declared, texts declared k = texts false k
  pass_eq : ∀ {declared : Bool} {d : Draft} (k : PassName), Edited source c declared d →
    k.pass program options d = some
      ⟨d.recordAll (k.edits program c (texts declared k)), !(texts declared k).isEmpty⟩

/-- Statements that are cut into segments have texts on every such draft: the cuts fall between
characters. -/
theorem Edited.exists_texts {declared : Bool} {d : Draft} (he : Edited source c declared d)
    (h : c.InScript source program) {s : Setup} (hs : c.setup? = some s)
    {segments : List Pass.Segment} (hsegments : Pass.setupSegments? source.toList s = some segments)
    (literals : List Span) {gs : List Pass.Segment} (hgs : ∀ g ∈ gs, g ∈ segments) :
    ∃ texts, gs.mapM (Pass.Segment.text? d literals) = some texts := by
  have hlies := h.liesIn.setup_within hs
  refine Pass.exists_mapM_text? literals fun g hg => ?_
  have hwithin := Pass.setupSegments?_within hlies hsegments g (hgs g hg)
  have hlo := Nat.le_trans hlies.lo_le (Nat.le_of_succ_le hwithin.lo_le)
  have hhi := Nat.le_trans hwithin.le_hi (Nat.le_trans (Nat.sub_le _ _) hlies.le_hi)
  exact ⟨_, (he.settled h (Nat.le_of_succ_le hlo) hhi hwithin.start_le_stop
    hwithin.start_isBoundary hwithin.stop_isBoundary).slice?_eq⟩

/-- The statements of `setup` can be cut into segments. -/
def CanCut (source : String) (c : Component) : Prop :=
  ∀ s, c.setup? = some s → (Pass.setupSegments? source.toList s).isSome = true

/-- The statements can be cut if the pass for them gives a result on a fresh draft. -/
theorem canCut_of_setup (h : c.InScript source program)
    (hsetup : (Pass.setup program options { source }).isSome = true) : CanCut source c := by
  intro s hs
  cases hsegments : Pass.setupSegments? source.toList s with
  | none => simp [Pass.setup, h.located, hs, hsegments] at hsetup
  | some segments => rfl

/-- The pass for `setup` then gives a result on every such draft. -/
theorem exists_setup (h : c.InScript source program) (hcut : CanCut source c) {declared : Bool}
    {d : Draft} (he : Edited source c declared d) : ∃ r, Pass.setup program options d = some r := by
  have hsource := he.source_eq
  subst hsource
  cases hs : c.setup? with
  | none => exact ⟨.idle d, by simp [Pass.setup, h.located, hs]⟩
  | some s =>
    obtain ⟨segments, hsegments⟩ := Option.isSome_iff_exists.mp (hcut s hs)
    obtain ⟨texts, htexts⟩ := he.exists_texts h hs hsegments
      (Script.multilineLiterals program d.source.toList) (fun _ hg => hg)
    cases segments with
    | nil => exact ⟨.idle d, by simp [Pass.setup, h.located, hs, hsegments]⟩
    | cons g segments =>
      exact ⟨_, by
        simp only [Pass.setup, h.located, hs, hsegments, htexts, Option.bind_eq_bind,
          Option.bind_some]
        rfl⟩

/-- A binding of a registered component with the line break that sets it off. -/
def bindingLine (program : Program) (binding : String) : String :=
  match Pass.lastImport? program with
  | some _ => "\n" ++ binding
  | none => binding ++ "\n"

/-- The bindings of registered components, as edits. -/
theorem edits_components (bindings : List String) :
    PassName.components.edits program c (bindings.map (bindingLine program)) =
      bindings.map (Pass.bindingEdit program c) := by
  have hedit : ∀ binding, Pass.bindingEdit program c binding =
      .insert (PassName.components.offset program c) (bindingLine program binding) := by
    intro binding
    simp only [Pass.bindingEdit, PassName.offset, bindingLine]
    cases Pass.lastImport? program <;> rfl
  simp [PassName.edits, hedit, Function.comp_def]

/-- The passes have such texts. -/
theorem exists_inserts (h : c.InScript source program) (options : Options)
    (hcut : CanCut source c) :
    ∃ texts, Inserts source program c options texts := by
  obtain ⟨props, hprops⟩ := Pass.props_records h options
  obtain ⟨events, spans, rfl, hemits⟩ := Pass.emits_records h options
  -- the statements of `setup`, with and without callees rewritten
  have hsetups : ∀ declared : Bool, ∃ texts : List String, ∀ d, Edited source c declared d →
      Pass.setup program options d = some
        ⟨d.recordAll (texts.map (.insert c.wrapper.start)), !texts.isEmpty⟩ := by
    intro declared
    obtain ⟨d₀, he₀⟩ : ∃ d₀, Edited source c declared d₀ := by
      cases declared with
      | false => exact ⟨_, edited_fresh source c⟩
      | true => exact ⟨_, (edited_fresh source c).record h .emits [""]⟩
    obtain ⟨texts?, htexts⟩ := Pass.setup_records h options he₀.source_eq
    obtain ⟨r, hr⟩ := exists_setup h hcut he₀
    cases texts? with
    | none =>
      rw [htexts d₀ he₀.source_eq fun _ _ _ => rfl] at hr
      cases hr
    | some texts =>
      exact ⟨texts, fun d he => htexts d he.source_eq fun span hlo hhi =>
        he₀.slice?_eq he h hlo hhi⟩
  obtain ⟨setups, hsetups⟩ := Classical.axiom_of_choice hsetups
  let texts : Bool → PassName → List String := fun declared k =>
    match k with
    | .components => (Pass.componentBindings source c).map (bindingLine program)
    | .props => props
    | .emits => events
    | .setup => setups declared
  refine ⟨texts, ?_, ?_⟩
  · intro k hk declared
    cases k with
    | setup => exact absurd rfl hk
    | _ => rfl
  · intro declared d k he
    have hsource := he.source_eq
    cases k with
    | components =>
      subst hsource
      have hd : ∀ entry ∈ Pass.componentEntries c, d.Untouched entry.2.span := by
        intro entry hentry
        obtain ⟨p, hp, hlaid⟩ := Pass.exists_of_mem_componentEntries h.liesIn hentry
        exact he.untouched h hp (by decide) hlaid
      simp only [texts, edits_components, List.isEmpty_map]
      exact Pass.components_records h options hd
    | props =>
      have hd := hprops d hsource fun p hp => he.untouched h hp (by decide) (h.liesIn.value hp)
      simpa [PassName.pass, PassName.edits, PassName.offset] using hd
    | emits =>
      have hd := hemits d hsource fun p hp => he.untouched h hp (by decide) (h.liesIn.value hp)
      simp only [texts, PassName.pass, PassName.edits, PassName.offset, true_and, hd]
      cases events <;> rfl
    | setup =>
      have hd := hsetups declared d he
      simpa [PassName.pass, PassName.edits, PassName.offset] using hd

/-- A pass adds edits to a draft, and says that it did so exactly if it did. -/
theorem Inserts.records {texts : Bool → PassName → List String}
    (hi : Inserts source program c options texts) {declared : Bool} {d : Draft}
    (he : Edited source c declared d) (k : PassName) :
    ∃ es produced, k.pass program options d = some ⟨d.recordAll es, produced⟩ ∧
      (produced = true ↔ es ≠ []) ∧ (produced = false → d.recordAll es = d) := by
  refine ⟨_, _, hi.pass_eq k he, ?_, fun hproduced => ?_⟩
  · rw [ne_eq, edits_eq_nil_iff]
    simp
  · have hnil : texts declared k = [] := by simpa using hproduced
    rw [hnil, (edits_eq_nil_iff k []).mpr rfl, Draft.recordAll_nil]

/-! ### A run of passes

The run lemma says what a run leaves behind, from any draft of the kind. -/

/-- What a pass inserts. -/
theorem Inserts.insertion? {texts : Bool → PassName → List String}
    (hi : Inserts source program c options texts) {declared : Bool} {d : Draft}
    (he : Edited source c declared d) (k : PassName) :
    Pass.insertion? k.pass program options d = some (String.join (texts declared k)) := by
  rw [insertion?_of_recordAll (hi.pass_eq k he), filterMap_insertion?_edits,
    Draft.map_text_insertion]

/-- Passes run to the end on every draft of their kind. They leave one of that kind, with their
texts behind those that were there. -/
theorem Inserts.runPasses {texts : Bool → PassName → List String}
    (hi : Inserts source program c options texts) (h : c.InScript source program)
    (ks : List PassName) {declared : Bool} {d : Draft} (he : Edited source c declared d) :
    ∃ d', runPasses program options (ks.map PassName.pass) d = some d' ∧
      Edited source c (declared || decide (.emits ∈ ks ∧ texts false .emits ≠ [])) d' ∧
      ∀ p, Draft.insertedAt d'.insertions p =
        Draft.insertedAt d.insertions p ++
          Draft.insertedAt (insertedBy program options c d ks) p := by
  induction ks generalizing declared d with
  | nil => exact ⟨d, rfl, by simpa using he, fun p => by simp [insertedBy, Draft.insertedAt]⟩
  | cons k ks ih =>
    have hk := hi.pass_eq k he
    obtain ⟨d', hrun, he', hinserted⟩ := ih (he.record h k (texts declared k))
    refine ⟨d', ?_, ?_, fun p => ?_⟩
    · simp only [Transformation.runPasses, List.map_cons, List.foldlM_cons, hk, Option.map_some,
        Option.bind_eq_bind, Option.bind_some] at hrun ⊢
      exact hrun
    · have hdeclared : (declared || decide (k = .emits ∧ texts declared k ≠ []) ||
          decide (.emits ∈ ks ∧ texts false .emits ≠ [])) =
          (declared || decide (.emits ∈ k :: ks ∧ texts false .emits ≠ [])) := by
        by_cases hemits : k = .emits
        · subst hemits
          rw [hi.same .emits (by decide) declared]
          by_cases hne : texts false .emits = [] <;> simp [hne]
        · simp [hemits, Ne.symm hemits]
      rwa [hdeclared] at he'
    · rw [hinserted p, insertedBy, hk, hi.insertion? he k, Draft.insertions_recordAll,
        filterMap_insertion?_edits, Draft.insertedAt_append, Draft.insertedAt_group,
          List.append_assoc,
        ← Draft.insertedAt_append]
      rfl

/-- The draft after passes have run on a fresh one. -/
theorem Inserts.draftAfter? {texts : Bool → PassName → List String}
    (hi : Inserts source program c options texts) (h : c.InScript source program)
    (ks : List PassName) : ∃ d, draftAfter? program options source ks = some d ∧
      Edited source c (decide (.emits ∈ ks ∧ texts false .emits ≠ [])) d ∧
      ∀ p, Draft.insertedAt d.insertions p =
        Draft.insertedAt (insertedBy program options c { source } ks) p := by
  obtain ⟨d, hrun, he, hinserted⟩ := hi.runPasses h ks (edited_fresh source c)
  refine ⟨d, hrun, by simpa using he, fun p => ?_⟩
  rw [hinserted p]
  rfl

/-- Events are declared by each run of their pass or by none. -/
theorem Inserts.eventsDeclared_iff {texts : Bool → PassName → List String}
    (hi : Inserts source program c options texts) (h : c.InScript source program)
    (ks : List PassName) : EventsDeclared program options source ks ↔
      .emits ∈ ks ∧ texts false .emits ≠ [] := by
  constructor
  · rintro ⟨before, behind, d, r, rfl, hd, hr, hproduced⟩
    obtain ⟨d', hd', he, -⟩ := hi.draftAfter? h before
    obtain rfl : d' = d := Option.some.inj (hd'.symm.trans hd)
    have heq := hi.pass_eq .emits he
    rw [hi.same .emits (by decide)] at heq
    obtain rfl := Option.some.inj (hr.symm.trans heq)
    exact ⟨by simp, by simpa using hproduced⟩
  · rintro ⟨hmem, hne⟩
    obtain ⟨before, behind, rfl⟩ := List.append_of_mem hmem
    obtain ⟨d, hd, he, -⟩ := hi.draftAfter? h before
    have heq := hi.pass_eq .emits he
    rw [hi.same .emits (by decide)] at heq
    exact ⟨before, behind, d, _, rfl, hd, heq, by simpa using hne⟩

/-- **The passes do not depend on each other.** Let a script be read and define a component, and let
its statements of `setup` be such that the pass for them gives a result on a fresh draft. Then after
passes in any order, and each any number of times:

* every pass gives a result. It adds edits to the draft, and says that it did so exactly if it did;
* what the passes for registered components, props and events insert is what they insert on a fresh
  draft;
* what the pass for `setup` inserts is the same on any two drafts if events were declared before
  both or before neither;
* the draft is rendered to the script with the inserted texts, in the order of calls, at the end of
  the last import and at the start of the export, and with each callee of `emit` replaced once if
  events were declared. -/
theorem runPasses_independent {dialect : Dialect} {source : String} {program : Program}
    {c : Component} (hprogram : Program.parse? dialect source = some program)
    (hc : Component.locate? program = some c) (options : Options)
    (hsetup : (Pass.setup program options { source }).isSome = true) (ks : List PassName) :
    ∃ d, draftAfter? program options source ks = some d ∧
      (∀ k : PassName, ∃ es produced,
        k.pass program options d = some ⟨d.recordAll es, produced⟩ ∧
        (produced = true ↔ es ≠ []) ∧ (produced = false → d.recordAll es = d)) ∧
      (∀ k : PassName, k ≠ .setup → ∃ text,
        Pass.insertion? k.pass program options d = some text ∧
        Pass.insertion? k.pass program options { source } = some text) ∧
      (∀ ks' d', draftAfter? program options source ks' = some d' →
        (EventsDeclared program options source ks ↔ EventsDeclared program options source ks') →
        ∃ text, Pass.insertion? Pass.setup program options d = some text ∧
          Pass.insertion? Pass.setup program options d' = some text) ∧
      ∃ callees : List Span, callees.Pairwise (fun a b => a.stop ≤ b.start) ∧
        (∀ span, span ∈ callees ↔
          EventsDeclared program options source ks ∧ span ∈ Pass.callees c) ∧
        ∃ text, d.render? = some text ∧ Text.bytes text.toList =
          (Draft.walk ⟨0, source.utf8ByteSize⟩ (insertedBy program options c { source } ks)
            (callees.map (Draft.Replacement.mk · Declaration.emitBinding))).flatMap
              (Draft.Emission.bytes (Text.bytes source.toList)) := by
  have h := Component.inScript_of_parse? hprogram hc
  obtain ⟨texts, hi⟩ := exists_inserts h options (canCut_of_setup h hsetup)
  obtain ⟨d, hd, he, hinserted⟩ := hi.draftAfter? h ks
  -- All four parts are read off the draft, which is of the kind that passes leave behind.
  refine ⟨d, hd, fun k => ?_, fun k hk => ?_, fun ks' d' hd' hiff => ?_, ?_⟩
  · exact hi.records he k
  · have hsame := hi.insertion? he k
    rw [hi.same k hk] at hsame
    exact ⟨_, hsame, hi.insertion? (edited_fresh source c) k⟩
  · obtain ⟨d'', hd'', he', -⟩ := hi.draftAfter? h ks'
    obtain rfl : d'' = d' := Option.some.inj (hd''.symm.trans hd')
    rw [hi.eventsDeclared_iff h, hi.eventsDeclared_iff h] at hiff
    refine ⟨_, hi.insertion? he .setup, ?_⟩
    rw [decide_eq_decide.mpr hiff]
    exact hi.insertion? he' .setup
  · obtain ⟨callees, hpairwise, hmem, text, htext, hbytes⟩ := he.exists_render? h
    refine ⟨callees, hpairwise, fun span => ?_, text, htext, ?_⟩
    · rw [hmem span, decide_eq_true_eq, hi.eventsDeclared_iff h]
    · rw [hbytes]
      exact Draft.flatMap_walk_congr _ _ hinserted

theorem runPasses_independent_lateImport : ∃ program c d text,
    Program.parse? ⟨false, false⟩ lateImport = some program ∧
    Component.locate? program = some c ∧
    (Pass.setup program {} { source := lateImport }).isSome = true ∧
    draftAfter? program {} lateImport [.setup, .emits, .components, .emits, .setup] = some d ∧
    d.render? = some text := by
  have hlocated : ((Program.parse? ⟨false, false⟩ lateImport).bind fun program =>
      if (Pass.setup program {} { source := lateImport }).isSome then Component.locate? program
      else none).isSome = true := by
    decide +kernel
  obtain ⟨c, hc⟩ := Option.isSome_iff_exists.mp hlocated
  obtain ⟨program, hprogram, hc⟩ := Option.bind_eq_some_iff.mp hc
  split at hc
  · next hsetup =>
    obtain ⟨d, hd, -, -, -, callees, -, -, text, htext, -⟩ := runPasses_independent hprogram hc {}
      hsetup [.setup, .emits, .components, .emits, .setup]
    exact ⟨program, c, d, text, hprogram, hc, hsetup, hd, htext⟩
  · cases hc

/-- A comment between two statements that a carriage return ends. -/
def returnedComment : String :=
  "export default defineComponent(\x7b\n  setup() \x7b\n    a() // x\r    b()\n  \x7d,\n\x7d)\n"

/-- The pass for `setup` carries a comment up to the next line feed, and so past the statement
behind the carriage return: the gap before that statement cannot be cut out, and the pass gives no
result. -/
theorem draftAfter?_returnedComment : ∃ program c,
    Program.parse? ⟨false, false⟩ returnedComment = some program ∧
    Component.locate? program = some c ∧
    draftAfter? program {} returnedComment [.setup] = none := by
  have hnone : ((Program.parse? ⟨false, false⟩ returnedComment).bind fun program =>
      if (draftAfter? program {} returnedComment [.setup]).isNone then Component.locate? program
      else none).isSome = true := by
    decide +kernel
  obtain ⟨c, hc⟩ := Option.isSome_iff_exists.mp hnone
  obtain ⟨program, hprogram, hc⟩ := Option.bind_eq_some_iff.mp hc
  split at hc
  · next hdraft => exact ⟨program, c, hprogram, hc, Option.isNone_iff_eq_none.mp hdraft⟩
  · cases hc

end Transformation

end VueSetup
