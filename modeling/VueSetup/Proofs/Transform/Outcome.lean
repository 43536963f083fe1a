import VueSetup.Proofs.Transform.File
import VueSetup.Proofs.Transform.Independence

/-!
# VueSetup.Proofs.Transform.Outcome

When the transformation of a file fails, when it changes the file, and when it gives the file back
as it was (`runFile_outcome`).

What decides is read off the file's own script (`OwnScript`): whether it can be read, and, if it
defines a component, whether there is something to do. To become a setup script is always something
to do. The one thing that the conditions take for granted is that the statements of `setup` can be
cut out of the script; `runFile_returnedComment` is a file where they cannot.
-/

namespace VueSetup

open Sfc (Block Descriptor)
open Script (Dialect Program)

namespace Transformation

variable {t : Transformation} {options : Options} {filename source : String}

/-- The file is a component with a script of its own, that is no setup script already. -/
structure OwnScript (filename source : String) (script : Block) : Prop where
  isComponent : Path.extension? filename = some "vue"
  inFile : ∃ sfc, Descriptor.parse source = .ok sfc ∧ sfc.scriptSetup = none ∧
    sfc.script = some script
  src_none : script.src? = none

/-- The pass for props makes a declaration. -/
def DeclaresProps (program : Program) (options : Options) (source : String) : Prop :=
  ∃ r, Pass.props program options { source } = some r ∧ r.produced = true

/-- The pass for `setup` gives a result. -/
def CanMoveSetup (program : Program) (options : Options) (source : String) : Prop :=
  (Pass.setup program options { source }).isSome = true

/-- The file is a component, but its blocks cannot be told apart or its own script cannot be read in
the language that the script's tag gives. -/
def Unreadable (filename source : String) : Prop :=
  Path.extension? filename = some "vue" ∧ ((∃ d, Descriptor.parse source = .error d) ∨
    ∃ script, OwnScript filename source script ∧
      Program.parse? (Dialect.ofLang script.lang?) script.content = none)

/-- The file's own script defines a component, and it is to be a setup script or props are
declared. -/
def HasWork (t : Transformation) (options : Options) (filename source : String) : Prop :=
  ∃ script program, OwnScript filename source script ∧
    Program.parse? (Dialect.ofLang script.lang?) script.content = some program ∧
    (Component.locate? program).isSome = true ∧
    (t = .scriptSetup ∨ DeclaresProps program options script.content)

/-! ### Scripts

A script that is read and defines a component is rendered if its statements can be cut. Whether it
changes is told by whether a pass made something, or the export went. -/

section

variable {dialect : Dialect} {program : Program} {c : Component}

/-- Behind the pass for events the pass for `setup` has a text, if it has a result at all. -/
theorem exists_setupText? (h : c.InScript source program)
    (hsetup : CanMoveSetup program options source) :
    ∃ text, setupText? program options source = some text := by
  obtain ⟨texts, hi⟩ := exists_inserts h options (canCut_of_setup h hsetup)
  have hedited := (edited_fresh source c).record h .emits (texts false .emits)
  have hemits : Pass.emits program options { source } = _ :=
    hi.pass_eq .emits (edited_fresh source c)
  rw [setupText?, hemits, Option.bind_eq_bind, Option.bind_some]
  exact ⟨_, hi.insertion? hedited .setup⟩

/-- The script is rendered. -/
theorem exists_rendered? (hprogram : Program.parse? dialect source = some program)
    (hc : Component.locate? program = some c)
    (hsetup : t = .scriptSetup → CanMoveSetup program options source) :
    ∃ r, t.rendered? program c options source = some r := by
  have h := Component.inScript_of_parse? hprogram hc
  obtain ⟨props, events, callees, setup?, hrecorded⟩ := exists_recorded h options
  cases t with
  | scriptSetup =>
    obtain ⟨text, htext⟩ := exists_setupText? h (hsetup rfl)
    have hcode := code_scriptSetup h hrecorded
    rw [hrecorded.setup_behind_emits] at htext
    obtain ⟨setup, rfl, -⟩ := Option.map_eq_some_iff.mp htext
    obtain ⟨r, hr, -⟩ := Option.map_eq_some_iff.mp hcode
    exact ⟨r, hr⟩
  | defineProps =>
    obtain ⟨r, hr, -⟩ := Option.map_eq_some_iff.mp (code_defineProps h hrecorded)
    exact ⟨r, hr⟩

/-- Some edit was made exactly if the export goes or props are declared. -/
theorem changed_rendered? (h : c.InScript source program) {r : Rendered}
    (hr : t.rendered? program c options source = some r) :
    r.changed = true ↔ t = .scriptSetup ∨ DeclaresProps program options source := by
  obtain ⟨⟨d, usesTypes⟩, hdraft, hr⟩ := Option.bind_eq_some_iff.mp hr
  obtain ⟨code, -, hr⟩ := Option.bind_eq_some_iff.mp hr
  cases hr
  cases t with
  | scriptSetup => simp [dropWrapper, removesWrapper, Draft.remove, Draft.overwrite]
  | defineProps =>
    obtain ⟨texts, htexts⟩ := Pass.props_records h options
    have hprops := htexts { source } rfl fun _ _ => Draft.untouched_fresh source _
    simp only [draft?, runPasses, passesBefore, passesAfter, List.foldlM_nil, hprops,
      Option.bind_eq_bind, Option.bind_some, pure, Option.some.injEq, Prod.mk.injEq] at hdraft
    simp [dropWrapper, removesWrapper, ← hdraft.1, Draft.isModified, DeclaresProps, hprops]

/-- A script that can be read is transformed. It changes if it defines a component and there is
something to do, and is given back otherwise. -/
theorem runScript_outcome (hprogram : Program.parse? dialect source = some program)
    (hsetup : t = .scriptSetup → CanMoveSetup program options source) :
    ∃ outcome, t.runScript dialect options source = .ok outcome ∧
      (outcome.changed = true ↔ (Component.locate? program).isSome = true ∧
        (t = .scriptSetup ∨ DeclaresProps program options source)) := by
  delta runScript
  cases hc : Component.locate? program with
  | none =>
    simp only [hprogram, hc]
    exact ⟨_, rfl, by simp [ScriptOutcome.unchanged]⟩
  | some c =>
    obtain ⟨r, hr⟩ := exists_rendered? hprogram hc hsetup
    have hchanged := changed_rendered? (Component.inScript_of_parse? hprogram hc) hr
    simp only [hprogram, hc, hr]
    by_cases h : r.changed = true
    · rw [if_pos h]
      exact ⟨_, rfl, by simpa using hchanged.mp h⟩
    · rw [if_neg h]
      refine ⟨_, rfl, ?_⟩
      simpa [ScriptOutcome.unchanged] using mt hchanged.mpr h

end

/-! ### Files

What becomes of a file is what becomes of its own script, if it has one. The file cannot fail
otherwise: the places where the script is put back are offsets between characters. -/

/-- A file with a script of its own is what becomes of that script. -/
theorem runFile_of_ownScript {script : Block} (h : OwnScript filename source script) :
    t.runFile options filename source = t.runBlock options source script := by
  obtain ⟨hname, ⟨sfc, hsfc, hsetup, hscript⟩, hsrc⟩ := h
  unfold runFile
  rw [if_pos hname, hsfc]
  simp [hsetup, hscript, hsrc]

/-- A file without one is left as it is, if its blocks can be told apart. -/
theorem runFile_of_not_ownScript (h : ∀ script, ¬ OwnScript filename source script)
    (hsfc : ∀ d, Path.extension? filename = some "vue" → Descriptor.parse source ≠ .error d) :
    t.runFile options filename source = .ok (.unchanged source) := by
  unfold runFile
  by_cases hname : Path.extension? filename = some "vue"
  · rw [if_pos hname]
    cases hparse : Descriptor.parse source with
    | error d => exact absurd hparse (hsfc d hname)
    | ok sfc =>
      dsimp only
      split
      · next script hsetup hscript =>
        by_cases hsrc : script.src? = none
        · exact absurd ⟨hname, ⟨sfc, hparse, hsetup, hscript⟩, hsrc⟩ (h script)
        · simp [hsrc]
      · rfl
  · rw [if_neg hname]

/-- A file has one script at most. -/
theorem ownScript_unique {script script' : Block} (h : OwnScript filename source script)
    (h' : OwnScript filename source script') : script' = script := by
  obtain ⟨sfc, hsfc, -, hscript⟩ := h.inFile
  obtain ⟨sfc', hsfc', -, hscript'⟩ := h'.inFile
  rw [hsfc, Except.ok.injEq] at hsfc'
  subst hsfc'
  rw [hscript, Option.some.injEq] at hscript'
  exact hscript'.symm

/-- A script that was transformed can be put back. -/
theorem exists_render?_spliceScript {script : Block} (h : OwnScript filename source script)
    (rewritten : ScriptOutcome) :
    ∃ code, (t.spliceScript options source script rewritten).render? = some code := by
  obtain ⟨sfc, hsfc, -, hscript⟩ := h.inFile
  obtain ⟨-, front, attributes, rest, hsource, htagStart, hstart, hstop⟩ :=
    map_toLower_script hsfc hscript
  exact ⟨_, render?_spliceScript hsource (attributeOffset_eq hsfc hscript htagStart) hstart hstop⟩

/-- A file changes when its own script does. -/
theorem exists_runFile {script : Block} (h : OwnScript filename source script)
    {rewritten : ScriptOutcome} (hrun : t.runScript (Dialect.ofLang script.lang?) options
      script.content = .ok rewritten) (hchanged : rewritten.changed = true) :
    ∃ outcome, t.runFile options filename source = .ok outcome ∧ outcome.changed = true := by
  obtain ⟨code, hcode⟩ := @exists_render?_spliceScript t options _ _ _ h rewritten
  rw [runFile_of_ownScript h]
  delta runBlock
  simp only [hrun, hchanged, if_true, hcode]
  exact ⟨_, rfl, rfl⟩

/-- A script that can be read is transformed in its file. -/
theorem runBlock_outcome {script : Block} (h : OwnScript filename source script) {program : Program}
    (hprogram : Program.parse? (Dialect.ofLang script.lang?) script.content = some program)
    (hsetup : t = .scriptSetup → CanMoveSetup program options script.content) :
    (∃ outcome, t.runBlock options source script = .ok outcome ∧ outcome.changed = true) ∧
        (Component.locate? program).isSome = true ∧
        (t = .scriptSetup ∨ DeclaresProps program options script.content) ∨
      t.runBlock options source script = .ok (.unchanged source) ∧
        ¬ ((Component.locate? program).isSome = true ∧
          (t = .scriptSetup ∨ DeclaresProps program options script.content)) := by
  obtain ⟨rewritten, hrun, hiff⟩ := runScript_outcome hprogram hsetup
  by_cases hchanged : rewritten.changed = true
  · rw [← runFile_of_ownScript h]
    exact .inl ⟨exists_runFile h hrun hchanged, hiff.mp hchanged⟩
  · delta runBlock
    simp only [hrun, hchanged]
    exact .inr ⟨rfl, mt hiff.mpr hchanged⟩

/-- The three ways a transformation can end, each with what decides it. -/
theorem runFile_cases (hsetup : t = .scriptSetup → ∀ script program,
    OwnScript filename source script →
    Program.parse? (Dialect.ofLang script.lang?) script.content = some program →
    CanMoveSetup program options script.content) :
    (Unreadable filename source ∧ ¬ HasWork t options filename source ∧
        ∃ e, t.runFile options filename source = .error e) ∨
      (¬ Unreadable filename source ∧ HasWork t options filename source ∧
        ∃ outcome, t.runFile options filename source = .ok outcome ∧ outcome.changed = true) ∨
      (¬ Unreadable filename source ∧ ¬ HasWork t options filename source ∧
        t.runFile options filename source = .ok (.unchanged source)) := by
  by_cases hown : ∃ script, OwnScript filename source script
  · obtain ⟨script, hown⟩ := hown
    obtain ⟨sfc, hsfc, -⟩ := hown.inFile
    rw [runFile_of_ownScript hown]
    cases hprogram : Program.parse? (Dialect.ofLang script.lang?) script.content with
    | none =>
      refine .inl ⟨⟨hown.isComponent, .inr ⟨script, hown, hprogram⟩⟩, ?_, .script .unreadable, ?_⟩
      · rintro ⟨script', program, hown', hprogram', -⟩
        rw [ownScript_unique hown hown', hprogram] at hprogram'
        cases hprogram'
      · delta runBlock runScript
        simp only [hprogram]
    | some program =>
      -- A file has one script of its own, so that what is known of this one decides.
      have hreadable : ¬ Unreadable filename source := by
        rintro ⟨-, ⟨d, hd⟩ | ⟨script', hown', hprogram'⟩⟩
        · rw [hsfc] at hd
          cases hd
        · rw [ownScript_unique hown hown', hprogram] at hprogram'
          cases hprogram'
      rcases runBlock_outcome hown hprogram fun ht => hsetup ht script program hown hprogram with
        ⟨hrun, hcause⟩ | ⟨hrun, hidle⟩
      · exact .inr (.inl ⟨hreadable, ⟨script, program, hown, hprogram, hcause⟩, hrun⟩)
      · refine .inr (.inr ⟨hreadable, ?_, hrun⟩)
        rintro ⟨script', program', hown', hprogram', hcause⟩
        obtain rfl := ownScript_unique hown hown'
        rw [hprogram, Option.some.injEq] at hprogram'
        subst hprogram'
        exact hidle hcause
  · have hidle : ¬ HasWork t options filename source := by
      rintro ⟨script, program, hown', -⟩
      exact hown ⟨script, hown'⟩
    -- Without a script of its own only the blocks can be at fault.
    by_cases hduplicate : Path.extension? filename = some "vue" ∧
        ∃ d, Descriptor.parse source = .error d
    · obtain ⟨hname, d, hd⟩ := hduplicate
      refine .inl ⟨⟨hname, .inl ⟨d, hd⟩⟩, hidle, .duplicate d, ?_⟩
      simp only [runFile, hname, if_true, hd]
    · refine .inr (.inr ⟨?_, hidle, ?_⟩)
      · rintro ⟨hname, hd | ⟨script, hown', -⟩⟩
        · exact hduplicate ⟨hname, hd⟩
        · exact hown ⟨script, hown'⟩
      · exact runFile_of_not_ownScript (fun script hown' => hown ⟨script, hown'⟩)
          fun d hname hd => hduplicate ⟨hname, d, hd⟩

/-- **What becomes of a file.** Suppose that the statements of `setup` can be cut out of its script,
where they are to be. Then the transformation fails exactly if the file is a component whose blocks
cannot be told apart, or whose own script cannot be read in its language. It changes the file
exactly if the file's own script can be read and defines a component, and the script becomes a setup
script or props are declared. In every other case it gives back the file as it was, with nothing
dropped. -/
theorem runFile_outcome (t : Transformation) (options : Options) (filename source : String)
    (hsetup : t = .scriptSetup → ∀ script program, OwnScript filename source script →
      Program.parse? (Dialect.ofLang script.lang?) script.content = some program →
      CanMoveSetup program options script.content) :
    ((∃ e, t.runFile options filename source = .error e) ↔ Unreadable filename source) ∧
      ((∃ outcome, t.runFile options filename source = .ok outcome ∧ outcome.changed = true) ↔
        HasWork t options filename source) ∧
      (¬ Unreadable filename source → ¬ HasWork t options filename source →
        t.runFile options filename source = .ok ⟨source, false, []⟩) := by
  rcases runFile_cases hsetup with ⟨hbad, hidle, e, hrun⟩ |
    ⟨hgood, hwork, outcome, hrun, hchanged⟩ | ⟨hgood, hidle, hrun⟩
  · simp [hrun, hbad, hidle]
  · simp [hrun, hgood, hwork, hchanged]
  · simp [hrun, hgood, hidle, FileOutcome.unchanged]

/-- The own script of a file, from the blocks of the file. -/
theorem exists_ownScript {lang? : Option String} {content : String}
    (hname : Path.extension? filename = some "vue")
    (h : (Descriptor.parse source).toOption.map (fun sfc => (sfc.scriptSetup.isNone,
      sfc.script.map fun script => (script.lang?, script.src?, script.content))) =
        some (true, some (lang?, none, content))) :
    ∃ script, OwnScript filename source script ∧ script.lang? = lang? ∧
      script.content = content := by
  obtain ⟨sfc, hsfc, h⟩ := Option.map_eq_some_iff.mp h
  simp only [Prod.mk.injEq, Option.isNone_iff_eq_none, Option.map_eq_some_iff] at h
  obtain ⟨hsetup, script, hscript, hlang, hsrc, hcontent⟩ := h
  exact ⟨script, ⟨hname, ⟨sfc, eq_ok_of_toOption hsfc, hsetup, hscript⟩, hsrc⟩, hlang, hcontent⟩

/-- A statement in `setup` with a comment behind it. -/
def commentedScript : String :=
  "export default defineComponent(\x7b\n  setup() \x7b\n    a() // x\n    b()\n  \x7d,\n\x7d)\n"

theorem runFile_outcome_commentedScript :
    (∀ script program, OwnScript "A.vue" ("<script>" ++ commentedScript ++ "</script>") script →
      Program.parse? (Dialect.ofLang script.lang?) script.content = some program →
      CanMoveSetup program {} script.content) ∧
    ∃ outcome, scriptSetup.runFile {} "A.vue" ("<script>" ++ commentedScript ++ "</script>") =
      .ok outcome ∧ outcome.changed = true := by
  obtain ⟨script, hown, hlang, hcontent⟩ := @exists_ownScript "A.vue"
    ("<script>" ++ commentedScript ++ "</script>") none commentedScript (by decide +kernel)
    (by decide +kernel)
  have hprogram : (Program.parse? (Dialect.ofLang none) commentedScript).any (fun program =>
      (Component.locate? program).isSome &&
        (Pass.setup program {} { source := commentedScript }).isSome) = true := by
    decide +kernel
  obtain ⟨program, hprogram, hboth⟩ := (Option.any_eq_true _ _).mp hprogram
  rw [Bool.and_eq_true] at hboth
  rw [← hlang, ← hcontent] at hprogram
  have hsetup : ∀ script' program', OwnScript "A.vue" ("<script>" ++ commentedScript ++ "</script>")
      script' → Program.parse? (Dialect.ofLang script'.lang?) script'.content = some program' →
      CanMoveSetup program' {} script'.content := by
    intro script' program' hown' hprogram'
    obtain rfl := ownScript_unique hown hown'
    rw [hprogram, Option.some.injEq] at hprogram'
    rw [← hprogram', hcontent]
    exact hboth.2
  exact ⟨hsetup, (runFile_outcome scriptSetup {} "A.vue" _ fun _ => hsetup).2.1.mpr
    ⟨script, program, hown, hprogram, hboth.1, .inl rfl⟩⟩

/-! ### A file that breaks off

Without the hypothesis on `setup` there is a third way for a run to end. -/

/-- The script of `returnedComment` is read and defines a component, but not all of it can be
cut. -/
theorem rendered?_returnedComment : ∃ program c,
    Program.parse? (Dialect.ofLang none) returnedComment = some program ∧
      Component.locate? program = some c ∧
      scriptSetup.rendered? program c {} returnedComment = none := by
  have hprogram : (Program.parse? (Dialect.ofLang none) returnedComment).any (fun program =>
      (Component.locate? program).any fun c =>
        (scriptSetup.rendered? program c {} returnedComment).isNone) = true := by
    decide +kernel
  obtain ⟨program, hprogram, hlocated⟩ := (Option.any_eq_true _ _).mp hprogram
  obtain ⟨c, hc, hnone⟩ := (Option.any_eq_true _ _).mp hlocated
  exact ⟨program, c, hprogram, hc, Option.isNone_iff_eq_none.mp hnone⟩

/-- The file has a script of its own, with that content. -/
theorem ownScript_returnedComment (hname : Path.extension? filename = some "vue") :
    ∃ script, OwnScript filename ("<script>" ++ returnedComment ++ "</script>") script ∧
      script.lang? = none ∧ script.content = returnedComment :=
  exists_ownScript hname (by decide +kernel)

/-- A component file of that script gives neither a result nor an error that could be told. -/
theorem runFile_brokenOff (hname : Path.extension? filename = some "vue") :
    scriptSetup.runFile {} filename ("<script>" ++ returnedComment ++ "</script>") =
      .error (.script .brokenSpan) := by
  obtain ⟨script, hown, hlang, hcontent⟩ := ownScript_returnedComment hname
  obtain ⟨program, c, hprogram, hc, hnone⟩ := rendered?_returnedComment
  rw [← hlang, ← hcontent] at hprogram
  rw [← hcontent] at hnone
  rw [runFile_of_ownScript hown]
  delta runBlock runScript
  simp only [hprogram, hc, hnone]

/-- Where a carriage return ends the comment, the file has the same work to do and nothing in it is
unreadable; but there is no result, because the statement behind the comment cannot be cut out. -/
theorem runFile_returnedComment :
    HasWork scriptSetup {} "A.vue" ("<script>" ++ returnedComment ++ "</script>") ∧
      ¬ Unreadable "A.vue" ("<script>" ++ returnedComment ++ "</script>") ∧
      scriptSetup.runFile {} "A.vue" ("<script>" ++ returnedComment ++ "</script>") =
        .error (.script .brokenSpan) := by
  have hname : Path.extension? "A.vue" = some "vue" := by decide +kernel
  obtain ⟨script, hown, hlang, hcontent⟩ := ownScript_returnedComment hname
  obtain ⟨program, c, hprogram, hc, -⟩ := rendered?_returnedComment
  rw [← hlang, ← hcontent] at hprogram
  obtain ⟨sfc, hsfc, -⟩ := hown.inFile
  refine ⟨⟨script, program, hown, hprogram, by rw [hc]; rfl, .inl rfl⟩, ?_,
    runFile_brokenOff hname⟩
  rintro ⟨-, ⟨d, hd⟩ | ⟨script', hown', hprogram'⟩⟩
  · rw [hsfc] at hd
    cases hd
  · rw [ownScript_unique hown hown', hprogram] at hprogram'
    cases hprogram'

end Transformation

end VueSetup
