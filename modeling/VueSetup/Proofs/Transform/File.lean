import VueSetup.Proofs.Pass.Declare
import VueSetup.Proofs.Sfc.Located
import VueSetup.Transform.File

/-!
# VueSetup.Proofs.Transform.File

A transformed file. Its script is replaced in place and attributes are put into the script's tag;
nothing else of the file changes. A written file becomes a written file by this, so that it can be
split again into the blocks it had, with a setup script in the place of the script, and a second run
finds nothing to do.
-/

namespace VueSetup

open Sfc (Block Descriptor Role Separator Written WrittenAttribute HoldsAnyCase fileText writtenAs)
open Script (Dialect Program)
open Text (byteSize)

namespace Transformation

variable {t : Transformation} {options : Options} {filename source : String}

/-! ### Types

The outcome says of a script that it needs types if a pass has declared props by a type. What the
pass looks at is the options and the value of `props`. -/

/-- Props are declared by a type: they are asked for as types, and some can be read from an
object. -/
def DeclaresTypedProps (dialect : Dialect) (options : Options) (source : String) : Prop :=
  ∃ program c property, Program.parse? dialect source = some program ∧
    Component.locate? program = some c ∧ c.property? "props" = some property ∧
    Pass.isTyped options property.value = true ∧ PropTable.ofComponent source.toList c ≠ []

/-- The pass for props makes a declaration that needs types. -/
theorem produced_and_declaresTypes {program : Program} {c : Component} {d : Draft}
    {result : PassResult} (hc : Component.locate? program = some c)
    (h : Pass.props program options d = some result) :
    (result.produced && Pass.declaresTypes program options) = true ↔
      ∃ property, c.property? "props" = some property ∧
        Pass.isTyped options property.value = true ∧
        PropTable.ofComponent d.source.toList c ≠ [] := by
  simp only [Pass.props, hc] at h
  cases hp : c.property? "props" with
  | none => simp [Pass.declaresTypes, hc, hp]
  | some property =>
    simp only [hp] at h
    by_cases htyped : Pass.isTyped options property.value = true
    · rw [if_pos htyped] at h
      split at h
      · next hrecords =>
        cases h
        simp [PassResult.idle, hrecords]
      · next hrecords =>
        cases h
        simpa [PassResult.made, Pass.declaresTypes, hc, hp, htyped] using hrecords
    · simp [Pass.declaresTypes, hc, hp, htyped]

/-- The draft needs types if props are declared by a type. -/
theorem usesTypes_draft? {program : Program} {c : Component} (h : c.InScript source program)
    {d : Draft} {usesTypes : Bool}
    (hdraft : scriptSetup.draft? program options source = some (d, usesTypes)) :
    usesTypes = true ↔ ∃ property, c.property? "props" = some property ∧
      Pass.isTyped options property.value = true ∧
      PropTable.ofComponent source.toList c ≠ [] := by
  -- the components are bound first, which leaves the source of the draft
  have hbefore := Pass.components_records (d := { source }) h options
    (fun entry _ => Draft.untouched_fresh source _)
  simp only [draft?, passesBefore, runPasses, List.foldlM_cons, List.foldlM_nil, hbefore,
    Option.map_some, Option.bind_eq_bind, Option.bind_some, Option.pure_def] at hdraft
  obtain ⟨props, hprops, hdraft⟩ := Option.bind_eq_some_iff.mp hdraft
  obtain ⟨_, -, hdraft⟩ := Option.bind_eq_some_iff.mp hdraft
  rw [Option.some.injEq, Prod.mk.injEq] at hdraft
  have hiff := produced_and_declaresTypes h.located hprops
  rwa [hdraft.2, Draft.source_recordAll] at hiff

/-- A setup script is in the language with types exactly when props are declared by a type. -/
theorem usesTypes_iff {dialect : Dialect} {rewritten : ScriptOutcome}
    (h : scriptSetup.runScript dialect options source = .ok rewritten)
    (hchanged : rewritten.changed = true) :
    rewritten.usesTypes = true ↔ DeclaresTypedProps dialect options source := by
  have hsame : rewritten ≠ .unchanged source := by
    rintro rfl
    cases hchanged
  delta runScript at h
  split at h
  · cases h
  · next program hprogram =>
    split at h
    · exact absurd (Except.ok.inj h).symm hsame
    · next c hc =>
      split at h
      · cases h
      · next r hrendered =>
        split at h
        · obtain ⟨⟨d, usesTypes⟩, hdraft, hr⟩ := Option.bind_eq_some_iff.mp hrendered
          obtain ⟨code, -, hr⟩ := Option.bind_eq_some_iff.mp hr
          cases hr
          cases h
          have hiff := usesTypes_draft? (Component.inScript_of_parse? hprogram hc) hdraft
          constructor
          · intro htypes
            obtain ⟨property, hp⟩ := hiff.mp htypes
            exact ⟨program, c, property, hprogram, hc, hp⟩
          · rintro ⟨program', c', property, hprogram', hc', hp⟩
            rw [hprogram, Option.some.injEq] at hprogram'
            subst hprogram'
            rw [hc, Option.some.injEq] at hc'
            subst hc'
            exact hiff.mpr ⟨property, hp⟩
        · exact absurd (Except.ok.inj h).symm hsame

/-! ### One run

A file is changed by two edits at most: the script's content is replaced, and new attributes are put
into its tag. Their places are offsets of the script's block. -/

/-- What must have happened when a file changed. -/
theorem runFile_changed {outcome : FileOutcome} (h : t.runFile options filename source =
      .ok outcome)
    (hchanged : outcome.changed = true) :
    ∃ sfc script rewritten, Path.extension? filename = some "vue" ∧
      Descriptor.parse source = .ok sfc ∧ sfc.scriptSetup = none ∧ sfc.script = some script ∧
      t.runScript (Dialect.ofLang script.lang?) options script.content = .ok rewritten ∧
      rewritten.changed = true ∧
      (t.spliceScript options source script rewritten).render? = some outcome.code := by
  have hsame : outcome ≠ .unchanged source := by
    rintro rfl
    cases hchanged
  unfold runFile at h
  split at h
  · next hname =>
    split at h
    · cases h
    · next sfc hsfc =>
      split at h
      · next script hsetup hscript =>
        split at h
        · delta runBlock at h
          split at h
          · cases h
          · next rewritten hrun =>
            split at h
            · next hrewritten =>
              split at h
              · next code hcode =>
                cases h
                exact ⟨sfc, script, rewritten, hname, hsfc, hsetup, hscript, hrun, hrewritten,
                  hcode⟩
              · cases h
            · exact absurd (Except.ok.inj h).symm hsame
        · exact absurd (Except.ok.inj h).symm hsame
      · exact absurd (Except.ok.inj h).symm hsame
  · exact absurd (Except.ok.inj h).symm hsame

/-- A file with a setup script is left as it is. -/
theorem runFile_of_scriptSetup {sfc : Descriptor} (h : Descriptor.parse source = .ok sfc)
    (hsetup : sfc.scriptSetup.isSome = true) :
    t.runFile options filename source = .ok (.unchanged source) := by
  obtain ⟨setup, hsetup⟩ := Option.isSome_iff_exists.mp hsetup
  unfold runFile
  rw [h]
  simp only [hsetup]
  exact ite_self _

/-- The script's content is replaced, and attributes are put in. -/
theorem render?_spliceScript {script : Block} {rewritten : ScriptOutcome} {name attributes content
    rest : List Char} (hsource : source.toList = name ++ attributes ++ content ++ rest)
    (hname : script.attributeOffset = byteSize name)
    (hstart : script.location.start = byteSize (name ++ attributes))
    (hstop : script.location.stop = byteSize (name ++ attributes ++ content)) :
    (t.spliceScript options source script rewritten).render? = some (String.ofList (name ++
      (t.newAttributes options rewritten.usesTypes script.lang?).toList ++ attributes ++
      rewritten.code.toList ++ rest)) := by
  let d := Draft.overwrite { source } ⟨script.location.start, script.location.stop⟩ rewritten.code
  let text := t.newAttributes options rewritten.usesTypes script.lang?
  have hrep : ∀ texts : List String,
      (d.recordAll (texts.map (.insert (byteSize name)))).replacements =
      [⟨⟨byteSize (name ++ attributes), byteSize (name ++ attributes ++ content)⟩,
        rewritten.code⟩] := by
    intro texts
    rw [← hstart, ← hstop, Draft.replacements_recordAll, Draft.filterMap_replacement?_insert]
    rfl
  have hrender : ∀ texts : List String,
      (d.recordAll (texts.map (.insert (byteSize name)))).render? =
      some (String.ofList (name ++ texts.flatMap String.toList ++ attributes ++
        rewritten.code.toList ++ rest)) := by
    intro texts
    refine Draft.render?_of_split hsource ?_ (hrep texts)
    rw [Draft.insertions_recordAll, Draft.filterMap_insertion?_insert]
    rfl
  unfold spliceScript
  dsimp only
  split
  · next hempty =>
    rw [String.isEmpty_iff.mp hempty]
    exact hrender []
  · rw [hname]
    exact List.append_nil text.toList ▸ hrender [text]

/-- The attributes that are put in, as text. -/
theorem newAttributes_eq (usesTypes : Bool) (lang : Option String) :
    t.newAttributes options usesTypes lang =
      (if t = .scriptSetup ∧ options.addSetupAttribute = true then " setup" else "") ++
        (if usesTypes = true ∧ lang = none then " lang=\"ts\"" else "") := by
  simp [newAttributes]

/-- The script of a file is one of its blocks. -/
theorem mem_blocks_of_script {sfc : Descriptor} {script : Block}
    (hparse : Descriptor.parse source = .ok sfc) (hscript : sfc.script = some script) :
    script ∈ Sfc.blocks source ∧ script.role = .script := by
  have hmem : script ∈ (Sfc.blocks source).filter (·.role == .script) := by
    rw [← Descriptor.ofRole_ofBlocks hparse, Descriptor.ofRole, hscript]
    exact List.mem_singleton_self script
  obtain ⟨hmem, hrole⟩ := List.mem_filter.mp hmem
  exact ⟨hmem, eq_of_beq hrole⟩

/-- A script that is found is spelled `<script`, in whatever case. -/
theorem map_toLower_script {sfc : Descriptor} {script : Block}
    (hparse : Descriptor.parse source = .ok sfc) (hscript : sfc.script = some script) :
    ('<' :: script.tag.toList).map Char.toLower = "<script".toList ∧
      script.StandsIn source.toList := by
  obtain ⟨hmem, hrole⟩ := mem_blocks_of_script hparse hscript
  have hname := Sfc.sameName_iff.mp (Block.sameName_of_role_script hrole).1
  refine ⟨?_, (Block.standsIn_of_mem_blocks hmem).2⟩
  rw [List.map_cons, hname]
  decide

/-- New attributes go behind the name of the script's tag. -/
theorem attributeOffset_eq {sfc : Descriptor} {script : Block}
    (hparse : Descriptor.parse source = .ok sfc) (hscript : sfc.script = some script)
    {front : List Char} (hfront : script.location.tagStart = byteSize front) :
    script.attributeOffset = byteSize (front ++ '<' :: script.tag.toList) := by
  have hseven : byteSize ('<' :: script.tag.toList) = 7 := by
    rw [← Sfc.byteSize_map_toLower, (map_toLower_script hparse hscript).1]
    decide
  rw [Text.byteSize_append, hseven, ← hfront]
  rfl

/-- **The frame of a transformation.** When a file changes, its script is cut out at its offsets and
transformed. The file is put together again with the new script in the place of the old one, and
with the new attributes behind the name of the script's tag; every other byte stays. -/
theorem runFile_eq_splice {outcome : FileOutcome}
    (h : t.runFile options filename source = .ok outcome) (hchanged : outcome.changed = true) :
    ∃ sfc script rewritten, ∃ front name attributes content rest : List Char,
      Descriptor.parse source = .ok sfc ∧ sfc.script = some script ∧
      script.location.tagStart + 7 ≤ script.location.start ∧
      script.location.start ≤ script.location.stop ∧
      Text.slice? source.toList 0 script.location.tagStart = some front ∧
      Text.slice? source.toList script.location.tagStart (script.location.tagStart + 7) =
        some name ∧
      name.map Char.toLower = "<script".toList ∧
      Text.slice? source.toList (script.location.tagStart + 7) script.location.start =
        some attributes ∧
      Text.slice? source.toList script.location.start script.location.stop = some content ∧
      Text.slice? source.toList script.location.stop (byteSize source.toList) = some rest ∧
      t.runScript (Dialect.ofLang script.lang?) options (String.ofList content) = .ok rewritten ∧
      outcome.code = String.ofList (front ++ name ++
        ((if t = .scriptSetup ∧ options.addSetupAttribute = true then " setup" else "") ++
          (if rewritten.usesTypes = true ∧
            script.lang? = none then " lang=\"ts\"" else "")).toList ++
        attributes ++ rewritten.code.toList ++ rest) := by
  obtain ⟨sfc, script, rewritten, -, hparse, -, hscript, hrewritten, -, hrender⟩ :=
    runFile_changed h hchanged
  obtain ⟨hname, front, attributes, rest, hsource, htagStart, hstart, hstop⟩ :=
    map_toLower_script hparse hscript
  have hseven : byteSize ('<' :: script.tag.toList) = 7 := by
    rw [← Sfc.byteSize_map_toLower, hname]
    decide
  have hbehind : script.location.tagStart + 7 = byteSize (front ++ '<' :: script.tag.toList) := by
    rw [Text.byteSize_append, hseven, htagStart]
  -- the source is cut at five places
  have hcut : ∀ {as bs cs : List Char} {a b : Nat}, source.toList = as ++ bs ++ cs →
      a = byteSize as → b = byteSize (as ++ bs) → Text.slice? source.toList a b = some bs := by
    rintro as bs cs a b hs rfl rfl
    rw [hs, Text.byteSize_append]
    exact Text.slice?_append as bs cs
  refine ⟨sfc, script, rewritten, front, '<' :: script.tag.toList, attributes,
    script.content.toList, rest, hparse, hscript, ?_, ?_, ?_, ?_, hname, ?_, ?_, ?_, ?_, ?_⟩
  · rw [hbehind, hstart, Text.byteSize_append _ attributes]
    exact Nat.le_add_right _ _
  · rw [hstart, hstop, Text.byteSize_append _ script.content.toList]
    exact Nat.le_add_right _ _
  · have hsplit : source.toList = [] ++ front ++
        ('<' :: script.tag.toList ++ attributes ++ script.content.toList ++ rest) := by
      simpa using hsource
    exact hcut hsplit rfl htagStart
  · have hsplit : source.toList = front ++ '<' :: script.tag.toList ++
        (attributes ++ script.content.toList ++ rest) := by
      simpa using hsource
    exact hcut hsplit htagStart hbehind
  · have hsplit : source.toList = front ++ '<' :: script.tag.toList ++ attributes ++
        (script.content.toList ++ rest) := by
      simpa using hsource
    exact hcut hsplit hbehind hstart
  · exact hcut hsource hstart hstop
  · have hsplit : source.toList = front ++ '<' :: script.tag.toList ++ attributes ++
        script.content.toList ++ rest ++ [] := by
      simpa using hsource
    exact hcut hsplit hstop (by rw [hsource])
  · rwa [String.ofList_toList]
  · rw [render?_spliceScript hsource hbehind hstart hstop, Option.some.injEq] at hrender
    rw [← hrender, newAttributes_eq]

/-! ### Written files

Rewriting the script of a written file gives a written file, since new code that could be read holds
no closing tag, and new attributes are spelled as attributes are. So all that is known of written
files is known of the result. -/

/-- The attributes that the tag of a setup script gets, as they are written. -/
def addedAttributes (usesTypes : Bool) (lang : Option String) : List WrittenAttribute :=
  ⟨"setup", none⟩ :: if usesTypes && lang.isNone then [⟨"lang", some "ts"⟩] else []

/-- They are written as attributes are. -/
theorem toList_newAttributes (h : options.addSetupAttribute = true) (usesTypes : Bool)
    (lang : Option String) : (scriptSetup.newAttributes options usesTypes lang).toList =
      (addedAttributes usesTypes lang).flatMap WrittenAttribute.text := by
  unfold newAttributes addedAttributes
  rw [h, if_pos (by decide)]
  cases usesTypes && lang.isNone <;> rfl

/-- A script as it is written after a transformation. -/
def rewrite (w : Written) (rewritten : ScriptOutcome) : Written :=
  { w with
    attributes := addedAttributes rewritten.usesTypes w.block.lang? ++ w.attributes
    content := rewritten.code }

/-- They can be told from what stands around them. -/
theorem proper_addedAttributes (usesTypes : Bool) (lang : Option String) :
    ∀ a ∈ addedAttributes usesTypes lang, a.Proper := by
  have hsetup : (⟨"setup", none⟩ : WrittenAttribute).Proper := by decide
  have hlang : (⟨"lang", some "ts"⟩ : WrittenAttribute).Proper := by decide
  intro a ha
  unfold addedAttributes at ha
  split at ha
  · rcases List.mem_pair.mp ha with rfl | rfl
    · exact hsetup
    · exact hlang
  · rw [List.mem_singleton.mp ha]
    exact hsetup

/-- An attribute that is not read was not written. -/
theorem notMem_names {w : Written} {name : String} (h : w.block.attribute? name = none) :
    name ∉ w.attributes.map WrittenAttribute.name := by
  intro hmem
  obtain ⟨a, ha, rfl⟩ := List.mem_map.mp hmem
  have hlookup := List.lookup_eq_none_iff.mp h a.entry (List.mem_map_of_mem ha)
  simp [WrittenAttribute.entry] at hlookup

/-- A script stays told from what stands around it. -/
theorem proper_rewrite {w : Written} (h : w.Proper) (hrole : w.block.role = .script)
    {rewritten : ScriptOutcome}
    (hfree : ¬ HoldsAnyCase "</script>".toList rewritten.code.toList) :
    (rewrite w rewritten).Proper := by
  obtain ⟨hname, hsetup⟩ := Block.sameName_of_role_script hrole
  refine { h with attributes_proper := ?_, attributes_nodup := ?_, content_free := ?_ }
  · intro a ha
    rcases List.mem_append.mp ha with ha | ha
    · exact proper_addedAttributes _ _ a ha
    · exact h.attributes_proper a ha
  · have hnew : "setup" ∉ w.attributes.map WrittenAttribute.name :=
      notMem_names (Option.isNone_iff_eq_none.mp (by simpa [Block.isSetup] using hsetup))
    unfold rewrite addedAttributes
    split
    · next htyped =>
      have hlang : "lang" ∉ w.attributes.map WrittenAttribute.name := by
        rw [Bool.and_eq_true] at htyped
        exact notMem_names (Option.isNone_iff_eq_none.mp htyped.2)
      simp only [List.cons_append, List.nil_append, List.map_cons, List.nodup_cons, List.mem_cons,
        not_or]
      exact ⟨⟨by decide, hnew⟩, hlang, h.attributes_nodup⟩
    · simp only [List.cons_append, List.nil_append, List.map_cons, List.nodup_cons]
      exact ⟨hnew, h.attributes_nodup⟩
  · have hclosing : ('<' :: w.closing).map Char.toLower = "</script>".toList.map Char.toLower := by
      rw [List.map_cons, Written.map_toLower_closing hname]
      decide
    exact fun h => hfree ((Sfc.holdsAnyCase_congr hclosing).mp h)

/-- A script is no template. -/
theorem isFlat_rewrite {w : Written} (hrole : w.block.role = .script) (rewritten : ScriptOutcome) :
    (rewrite w rewritten).IsFlat := by
  intro htemplate
  have hscript := Sfc.sameName_iff.mp (Block.sameName_of_role_script hrole).1
  rw [Sfc.sameName_iff] at htemplate
  exact absurd (hscript.symm.trans htemplate) (by decide)

/-- **A written file stays a written file.** The script is written anew in its place. -/
theorem render?_spliceScript_written {before after : List Written} {w : Written}
    {tail : List Separator}
    (hw : w.Proper) (hrole : w.block.role = .script) (hoptions : options.addSetupAttribute = true)
    {q : Sfc.Place} (hq : q.offset = byteSize (before.flatMap Written.text ++ Sfc.gapText w.gap))
    (rewritten : ScriptOutcome) :
    (scriptSetup.spliceScript options (fileText (before ++ w :: after) tail) (w.blockAt q)
      rewritten).render? = some (fileText (before ++ rewrite w rewritten :: after) tail) := by
  have hname := (Block.sameName_of_role_script hrole).1
  have htag : byteSize w.tag.toList = 6 := by
    rw [Text.byteSize_eq_length fun c hc => Sfc.isNameChar_ascii (hw.tag_chars c hc)]
    have hlength := congrArg List.length (Sfc.sameName_iff.mp hname)
    rw [List.length_map, List.length_map] at hlength
    exact hlength
  let name := before.flatMap Written.text ++ Sfc.gapText w.gap ++ '<' :: w.tag.toList
  let rest := '<' :: w.closing ++ (after.flatMap Written.text ++ Sfc.gapText tail)
  have hsource : (fileText (before ++ w :: after) tail).toList =
      name ++ Sfc.tagText w.attributes [] ++ w.content.toList ++ rest := by
    simp [fileText, name, rest, Written.text, Written.opening]
  have hbefore : byteSize name = q.offset + 7 := by
    rw [Text.byteSize_append, Text.byteSize_cons, ← hq, htag]
    rfl
  rw [render?_spliceScript hsource]
  · refine congrArg (fun cs => some (String.ofList cs)) ?_
    rw [toList_newAttributes hoptions]
    simp [name, rest, rewrite, Written.text, Written.opening, Written.closing, Sfc.tagText]
    rfl
  · rw [hbefore]
    rfl
  · rw [Text.byteSize_append, hbefore]
    simp only [Written.blockAt, Written.opening, Text.byteSize_append, htag]
    omega
  · rw [Text.byteSize_append, Text.byteSize_append, hbefore]
    simp only [Written.blockAt, Written.closed, Sfc.Closing.offset_over, Written.opening,
      Text.byteSize_append, htag]
    omega

/-- The new attributes come before the old ones. -/
theorem entries_rewrite (w : Written) (rewritten : ScriptOutcome) :
    (rewrite w rewritten).entries = ("setup", "") ::
      ((if rewritten.usesTypes && w.block.lang?.isNone then [("lang", "ts")] else []) ++
        w.entries) := by
  unfold Written.entries rewrite addedAttributes
  cases rewritten.usesTypes && w.block.lang?.isNone <;> rfl

/-- A script with the new attributes is a setup script. -/
theorem role_rewrite {w : Written} (hrole : w.block.role = .script) (rewritten : ScriptOutcome) :
    (rewrite w rewritten).block.role = .scriptSetup := by
  have hname : Sfc.sameName (rewrite w rewritten).block.tag "script" = true :=
    (Block.sameName_of_role_script hrole).1
  have hsetup : (rewrite w rewritten).block.isSetup = true := rfl
  rw [Block.role, if_pos hname, if_pos hsetup]

/-- When a script is the only one, it becomes the only setup script. -/
theorem writtenAs_rewrite {before after : List Written} {w : Written}
    (hrole : w.block.role = .script) (rewritten : ScriptOutcome)
    (hscript : (writtenAs .script (before ++ w :: after)).length = 1)
    (hsetup : writtenAs .scriptSetup (before ++ w :: after) = []) :
    writtenAs .script (before ++ rewrite w rewritten :: after) = [] ∧
      writtenAs .scriptSetup (before ++ rewrite w rewritten :: after) =
        [(rewrite w rewritten).block] ∧
      ∀ r, r ≠ .script → r ≠ .scriptSetup →
        writtenAs r (before ++ rewrite w rewritten :: after) =
          writtenAs r (before ++ w :: after) := by
  have hnew := role_rewrite hrole rewritten
  simp only [Sfc.writtenAs_append] at hscript hsetup ⊢
  rw [List.filter_cons_of_pos (by simp [hrole])] at hscript
  rw [List.append_eq_nil_iff, List.append_eq_nil_iff] at hsetup
  obtain ⟨hbefore, -, hafter⟩ := hsetup
  simp only [List.filter_nil, List.length_append, List.length_cons, List.length_nil] at hscript
  refine ⟨?_, ?_, fun r hscript hsetup => ?_⟩
  · rw [List.length_eq_zero_iff.mp (show (writtenAs .script before).length = 0 by omega),
      List.length_eq_zero_iff.mp (show (writtenAs .script after).length = 0 by omega)]
    simp [hnew]
  · rw [hbefore, hafter]
    simp [hnew]
  · simp [hnew, hrole, Ne.symm hscript, Ne.symm hsetup]

/-- **Splitting a transformed file again.** Of a written file that becomes a setup script, the
template, the styles and the other blocks are found again as they were; in the place of the script
there is a setup script with the new code and with the new attributes before the old ones. So
another run leaves the file as it is. -/
theorem runFile_resplits {ws : List Written} (hws : ∀ w ∈ ws, w.Proper ∧ w.IsFlat)
    {tail : List Separator}
    (htail : ∀ s ∈ tail, s.Proper) (hoptions : options.addSetupAttribute = true)
    {outcome : FileOutcome}
    (hrun : scriptSetup.runFile options filename (fileText ws tail) = .ok outcome)
    (hchanged : outcome.changed = true) :
    ∃ sfc script rewritten,
      Descriptor.parse (fileText ws tail) = .ok sfc ∧ sfc.script = some script ∧
      scriptSetup.runScript (Dialect.ofLang script.lang?) options script.content = .ok rewritten ∧
      (rewritten.usesTypes = true ↔
        DeclaresTypedProps (Dialect.ofLang script.lang?) options script.content) ∧
      (¬ HoldsAnyCase "</script>".toList rewritten.code.toList →
        ∃ sfc' setup, Descriptor.parse outcome.code = .ok sfc' ∧
          sfc'.template.map Block.unplaced = sfc.template.map Block.unplaced ∧
          sfc'.styles.map Block.unplaced = sfc.styles.map Block.unplaced ∧
          sfc'.customBlocks.map Block.unplaced = sfc.customBlocks.map Block.unplaced ∧
          sfc'.script = none ∧ sfc'.scriptSetup = some setup ∧
          setup.tag = script.tag ∧ setup.content = rewritten.code ∧
          setup.attributes = ("setup", "") :: ((if rewritten.usesTypes && script.lang?.isNone then
            [("lang", "ts")] else []) ++ script.attributes) ∧
          ∀ (t : Transformation) (options : Options),
            t.runFile options filename outcome.code = .ok (.unchanged outcome.code)) := by
  obtain ⟨sfc, script, rewritten, -, hparse, hnosetup, hscript, hrewritten, hnew, hrender⟩ :=
    runFile_changed hrun hchanged
  have hroles := Sfc.ofRole_parse_fileText hws htail hparse
  -- the script is one of the blocks that were written
  have hmem : script ∈ (Sfc.blocksAt ⟨0, 1, 1⟩ ws).filter (·.role == .script) := by
    rw [Descriptor.parse, Sfc.blocks_fileText hws htail] at hparse
    rw [← Descriptor.ofRole_ofBlocks hparse, Descriptor.ofRole, hscript]
    exact List.mem_singleton_self script
  obtain ⟨hmem, hrole⟩ := List.mem_filter.mp hmem
  obtain ⟨bs, cs, hbs⟩ := List.append_of_mem hmem
  obtain ⟨before, w, after, q, rfl, -, rfl, hq⟩ :=
    Sfc.exists_of_blocksAt_eq (fun w hw => (hws w hw).1) hbs
  replace hrole : w.block.role = .script := eq_of_beq hrole
  have hw : w.Proper := (hws w (by simp)).1
  refine ⟨sfc, w.blockAt q, rewritten, hparse, hscript, hrewritten, usesTypes_iff hrewritten hnew,
    fun hfree => ?_⟩
  rw [render?_spliceScript_written hw hrole hoptions (by rw [hq, Nat.zero_add])] at hrender
  obtain ⟨hnone, hone, hsame⟩ := writtenAs_rewrite hrole rewritten
    (by rw [← hroles, Descriptor.ofRole, hscript]; rfl)
    (by rw [← hroles, Descriptor.ofRole, hnosetup]; rfl)
  have hws' : ∀ v ∈ before ++ rewrite w rewritten :: after, v.Proper ∧ v.IsFlat := by
    intro v hv
    rcases List.mem_append.mp hv with hv | hv
    · exact hws v (List.mem_append_left _ hv)
    · rcases List.mem_cons.mp hv with rfl | hv
      · exact ⟨proper_rewrite hw hrole hfree, isFlat_rewrite hrole rewritten⟩
      · exact hws v (List.mem_append_right _ (List.mem_cons_of_mem w hv))
  -- no unique role is written twice: the template is the one there was, the setup script is new
  obtain ⟨sfc', hparse'⟩ := Sfc.exists_parse_fileText hws' htail (by
    intro r hr
    cases r with
    | script => simp [hnone]
    | scriptSetup => simp [hone]
    | template =>
      rw [hsame .template (by decide) (by decide), ← hroles, List.length_map]
      exact sfc.length_ofRole hr
    | style => cases hr
    | custom => cases hr)
  have hroles' := Sfc.ofRole_parse_fileText hws' htail hparse'
  have hkept : ∀ r, r ≠ .script → r ≠ .scriptSetup →
      (sfc'.ofRole r).map Block.unplaced = (sfc.ofRole r).map Block.unplaced := by
    intro r hscript hsetup
    rw [hroles', hsame r hscript hsetup, ← hroles]
  have hnone' := hroles' .script
  have hone' := hroles' .scriptSetup
  rw [hnone, Descriptor.ofRole, List.map_eq_nil_iff, Option.toList_eq_nil_iff] at hnone'
  rw [hone, Descriptor.ofRole] at hone'
  obtain ⟨setup, hsetup, hblock⟩ := List.map_eq_singleton_iff.mp hone'
  rw [Option.toList_eq_singleton_iff] at hsetup
  rw [Option.some.injEq] at hrender
  rw [← hrender]
  refine ⟨sfc', setup, hparse', ?_, hkept .style (by decide) (by decide),
    hkept .custom (by decide) (by decide), hnone', hsetup, ?_, ?_, ?_, fun t options => ?_⟩
  · exact Descriptor.map_eq_of_toList (hkept .template (by decide) (by decide))
  · show setup.unplaced.tag = (rewrite w rewritten).block.tag
    rw [hblock]
  · show setup.unplaced.content = (rewrite w rewritten).block.content
    rw [hblock]
  · show setup.unplaced.attributes = _
    rw [hblock]
    exact entries_rewrite w rewritten
  · exact runFile_of_scriptSetup hparse' (by rw [hsetup]; rfl)

/-- A file is transformed when its script is. -/
theorem runFile_written {before after : List Written} {w : Written} {tail : List Separator}
    (hname : Path.extension? filename = some "vue") {sfc : Descriptor}
    (hparse : Descriptor.parse (fileText (before ++ w :: after) tail) = .ok sfc)
    (hsetup : sfc.scriptSetup = none) {q : Sfc.Place} (hscript : sfc.script = some (w.blockAt q))
    (hq : q.offset = byteSize (before.flatMap Written.text ++ Sfc.gapText w.gap)) (hw : w.Proper)
    (hrole : w.block.role = .script) (hsrc : w.block.src? = none)
    (hoptions : options.addSetupAttribute = true) {rewritten : ScriptOutcome}
    (hrun : scriptSetup.runScript (Dialect.ofLang w.block.lang?) options w.content = .ok rewritten)
    (hchanged : rewritten.changed = true) :
    scriptSetup.runFile options filename (fileText (before ++ w :: after) tail) =
      .ok ⟨fileText (before ++ rewrite w rewritten :: after) tail, true, rewritten.dropped⟩ := by
  have hsrc' : (w.blockAt q).src?.isNone = true := Option.isNone_iff_eq_none.mpr hsrc
  have hrun' : scriptSetup.runScript (Dialect.ofLang (w.blockAt q).lang?) options
      (w.blockAt q).content = .ok rewritten := hrun
  unfold runFile
  rw [if_pos hname, hparse]
  simp only [hsetup, hscript, hsrc', if_true]
  delta runBlock
  simp only [hrun', hchanged, if_true, render?_spliceScript_written hw hrole hoptions hq]

/-- Where no pass finds anything to do, only the component's definition goes. -/
theorem runScript_of_fresh {dialect : Dialect} {program : Program} {c : Component}
    (hprogram : Program.parse? dialect source = some program)
    (hc : Component.locate? program = some c)
    (hdraft : scriptSetup.draft? program options source = some ({ source }, false))
    {before wrapper rest : List Char} (hsource : source.toList = before ++ wrapper ++ rest)
    (hline : wrapperLine source.toList c.wrapper =
      ⟨byteSize before, byteSize (before ++ wrapper)⟩) :
    scriptSetup.runScript dialect options source = .ok
      ⟨tidy dialect (LineBreak.ofText source.toList) (dropImports dialect options.cleanupBindings
        (String.ofList (before ++ rest))), true, false, c.unhandledOptions⟩ := by
  have hsplit : source.toList = [] ++ before ++ wrapper ++ rest := hsource
  have hrender := Draft.render?_of_split (d := Draft.remove { source }
    ⟨byteSize before, byteSize (before ++ wrapper)⟩) hsplit (show _ = [].map _ from rfl) rfl
  have hrendered : scriptSetup.rendered? program c options source =
      some ⟨String.ofList (before ++ rest), true, false⟩ := by
    simp only [rendered?, hdraft, Option.bind_eq_bind, Option.bind_some, dropWrapper,
      removesWrapper, if_true, hline, hrender]
    simp [Draft.remove, Draft.overwrite]
  delta runScript
  simp only [hprogram, hc, hrendered, if_true, removesWrapper, if_false, Bool.false_eq_true]

/-- A component with a name only, in a script that goes on behind it. -/
def namedScript : Written :=
  ⟨[.text "\n"], "script", [],
    "export default defineComponent(\x7b name: '<template>' \x7d)\nlet s = '</template><script>'"⟩

theorem runScript_namedScript : scriptSetup.runScript ⟨false, false⟩ {} namedScript.content =
    .ok ⟨"let s = '</template><script>'\n", true, false, ["name"]⟩ := by
  have hparsed : ((Program.parse? ⟨false, false⟩ namedScript.content).bind fun program =>
      (Component.locate? program).bind fun c =>
        (scriptSetup.draft? program {} namedScript.content).map fun d =>
          (c.wrapper, c.unhandledOptions, d.1.source, d.1.edits, d.2)) =
        some (⟨0, 54⟩, ["name"], namedScript.content, [], false) := by
    decide +kernel
  have htidy : tidy ⟨false, false⟩ (LineBreak.ofText namedScript.content.toList)
      (dropImports ⟨false, false⟩ ["defineComponent"]
        (String.ofList "let s = '</template><script>'".toList)) =
        "let s = '</template><script>'\n" := by
    delta namedScript
    rw [String.toList_ofList, String.toList_ofList]
    decide +kernel
  have htext : wrapperLine namedScript.content.toList ⟨0, 54⟩ = ⟨0, 55⟩ ∧
      namedScript.content.toList = [] ++ namedScript.content.toList.take 55 ++
        "let s = '</template><script>'".toList ∧
      byteSize ([] ++ namedScript.content.toList.take 55) = 55 := by
    delta namedScript
    rw [String.toList_ofList, String.toList_ofList]
    decide +kernel
  obtain ⟨hline, hsource, hsize⟩ := htext
  -- from here on the text itself does not matter
  generalize namedScript.content = source at *
  generalize source.toList.take 55 = wrapper at *
  obtain ⟨program, hprogram, hparsed⟩ := Option.bind_eq_some_iff.mp hparsed
  obtain ⟨c, hc, hparsed⟩ := Option.bind_eq_some_iff.mp hparsed
  obtain ⟨⟨⟨text, edits⟩, usesTypes⟩, hdraft, hparsed⟩ := Option.map_eq_some_iff.mp hparsed
  simp only [Prod.mk.injEq] at hparsed
  obtain ⟨hwrapper, hdropped, rfl, rfl, rfl⟩ := hparsed
  rw [runScript_of_fresh hprogram hc hdraft hsource (by rw [hwrapper, hsize]; exact hline),
    hdropped, List.nil_append, show ({} : Options).cleanupBindings = ["defineComponent"] from rfl,
    htidy]

/-- A file with a template and a style around that script. -/
def styledFile : List Written :=
  [⟨[], "template", [⟨"lang", some "html"⟩], "<p>></p>"⟩] ++ namedScript ::
    [⟨[.text "\n\n"], "style", [⟨"scoped", none⟩], "a \x7b color: red \x7d"⟩]

theorem proper_styledFile : ∀ w ∈ styledFile, w.Proper ∧ w.IsFlat := by
  decide +kernel

theorem parse_styledFile : ∃ sfc, Descriptor.parse (fileText styledFile [.text "\n"]) = .ok sfc ∧
    sfc.script = some (namedScript.blockAt ⟨42, 2, 1⟩) ∧ sfc.scriptSetup = none := by
  have hblocks : (Descriptor.ofBlocks (Sfc.blocksAt ⟨0, 1, 1⟩ styledFile)).toOption.map
      (fun sfc => (sfc.script, sfc.scriptSetup)) =
        some (some (namedScript.blockAt ⟨42, 2, 1⟩), none) := by
    decide +kernel
  have htail : ∀ s ∈ [Separator.text "\n"], s.Proper := by decide +kernel
  rw [← Sfc.blocks_fileText proper_styledFile htail, ← Descriptor.parse] at hblocks
  cases hparse : Descriptor.parse (fileText styledFile [.text "\n"]) with
  | error e =>
    rw [hparse] at hblocks
    cases hblocks
  | ok sfc =>
    rw [hparse] at hblocks
    simp only [Except.toOption, Option.map_some, Option.some.injEq, Prod.mk.injEq] at hblocks
    exact ⟨sfc, rfl, hblocks⟩

theorem script_styledFile {sfc : Descriptor} {script : Block}
    (hparse : Descriptor.parse (fileText styledFile [.text "\n"]) = .ok sfc)
    (hscript : sfc.script = some script) : script = namedScript.blockAt ⟨42, 2, 1⟩ := by
  obtain ⟨sfc₁, hparse₁, hscript₁, -⟩ := parse_styledFile
  rw [hparse, Except.ok.injEq] at hparse₁
  rw [← hparse₁, hscript, Option.some.injEq] at hscript₁
  exact hscript₁

theorem runFile_styledFile : ∃ code, scriptSetup.runFile {} "A.vue"
    (fileText styledFile [.text "\n"]) = .ok ⟨code, true, ["name"]⟩ := by
  obtain ⟨sfc, hparse, hscript, hnosetup⟩ := parse_styledFile
  have hname : Path.extension? "A.vue" = some "vue" := by decide +kernel
  exact ⟨_, runFile_written hname hparse hnosetup hscript (by decide +kernel) (by decide +kernel)
    (by decide +kernel) (by decide +kernel) rfl runScript_namedScript rfl⟩

theorem runFile_resplits_styledFile : ∃ outcome sfc' setup,
    scriptSetup.runFile {} "A.vue" (fileText styledFile [.text "\n"]) = .ok outcome ∧
    outcome.changed = true ∧ Descriptor.parse outcome.code = .ok sfc' ∧
    sfc'.script = none ∧ sfc'.scriptSetup = some setup ∧
    setup.content = "let s = '</template><script>'\n" ∧ setup.attributes = [("setup", "")] ∧
    scriptSetup.runFile {} "A.vue" outcome.code = .ok (.unchanged outcome.code) := by
  obtain ⟨code, hrun⟩ := runFile_styledFile
  obtain ⟨sfc, script, rewritten, hsfc, hscript, hrewritten, -, hresplit⟩ :=
    runFile_resplits proper_styledFile (by decide +kernel) rfl hrun rfl
  -- the script that was found is the one that was written
  obtain rfl : script = namedScript.blockAt ⟨42, 2, 1⟩ := script_styledFile hsfc hscript
  have hsame := hrewritten.symm.trans runScript_namedScript
  rw [Except.ok.injEq] at hsame
  rw [hsame] at hresplit
  obtain ⟨sfc', setup, hparse', -, -, -, hnone, hsetup, -, hcontent, hattributes, hagain⟩ :=
    hresplit (by decide +kernel)
  exact ⟨_, sfc', setup, hrun, rfl, hparse', hnone, hsetup, hcontent, hattributes,
    hagain scriptSetup {}⟩

theorem runFile_eq_splice_styledFile : ∃ outcome, ∃ front rest : List Char,
    scriptSetup.runFile {} "A.vue" (fileText styledFile [.text "\n"]) = .ok outcome ∧
    outcome.changed = true ∧
    Text.slice? (fileText styledFile [.text "\n"]).toList 0 42 = some front ∧
    Text.slice? (fileText styledFile [.text "\n"]).toList 134
      (byteSize (fileText styledFile [.text "\n"]).toList) = some rest ∧
    outcome.code = String.ofList (front ++
      "<script setup>let s = '</template><script>'\n".toList ++ rest) := by
  obtain ⟨code, hrun⟩ := runFile_styledFile
  obtain ⟨sfc, script, rewritten, front, name, attributes, content, rest, hsfc, hscript, -, -,
    hfront, hname, -, hattributes, hcontent, hrest, hrewritten, hcode⟩ := runFile_eq_splice hrun rfl
  obtain rfl : script = namedScript.blockAt ⟨42, 2, 1⟩ := script_styledFile hsfc hscript
  let script := namedScript.blockAt ⟨42, 2, 1⟩
  have hplaces : Text.slice? (fileText styledFile [.text "\n"]).toList script.location.tagStart
          (script.location.tagStart + 7) = some "<script".toList ∧
      Text.slice? (fileText styledFile [.text "\n"]).toList (script.location.tagStart + 7)
          script.location.start = some ['>'] ∧
      Text.slice? (fileText styledFile [.text "\n"]).toList script.location.start
          script.location.stop = some namedScript.content.toList ∧ script.location.stop = 134 := by
    delta fileText
    rw [String.toList_ofList]
    decide +kernel
  rw [hplaces.1, Option.some.injEq] at hname
  rw [hplaces.2.1, Option.some.injEq] at hattributes
  rw [hplaces.2.2.1, Option.some.injEq] at hcontent
  rw [hplaces.2.2.2] at hrest
  rw [← hcontent, String.ofList_toList] at hrewritten
  have hsame := hrewritten.symm.trans runScript_namedScript
  rw [Except.ok.injEq] at hsame
  refine ⟨_, front, rest, hrun, rfl, hfront, hrest, ?_⟩
  rw [hcode, ← hname, ← hattributes, hsame]
  have hlang : (namedScript.blockAt ⟨42, 2, 1⟩).lang? = none := by decide +kernel
  simp [hlang]

end Transformation

end VueSetup
