import VueSetup.Proofs.Sfc.Tag
import VueSetup.Proofs.Transform.Outcome

/-!
# VueSetup.Proofs.Transform.Language

The language of a transformed script. A script that is in the language with types only is said to be
so in its tag, if the tag named no language; a language that it named stays (`runFile_lang`). So a
script that was declared to be in another language is declared to be in that one still, whatever it
needs now (`runFile_lang_declared`).

The tag is read where it stood: what is put in stands behind the tag's name, and nothing before the
tag changes.

A lone `=` right behind the name of the tag is taken for the mark between an attribute and its value
by the attribute that is put in there. This is why the statement leaves such tags out.
-/

namespace VueSetup

open Sfc (Block Descriptor OpenTag)
open Script (Dialect Program)
open Text (byteSize)

namespace Transformation

variable {t : Transformation} {options : Options} {filename source : String}

/-- Behind the name of the script's tag a lone `=` stands, which gives a value to an attribute that
is put before it. -/
def LoneEquals (source : String) (script : Block) : Prop :=
  ((Text.suffixFrom source.toList script.attributeOffset).dropWhile Sfc.isTagSpace).head? = some '='

/-- A language has types if it is the one with types, with or without markup, or if none is named.
-/
theorem types_ofLang_getD (lang : Option String) :
    (Dialect.ofLang (some (lang.getD "ts"))).types = true ↔
      lang = none ∨ lang = some "ts" ∨ lang = some "tsx" := by
  cases lang with
  | none => simp [Dialect.ofLang]
  | some lang =>
    simp only [Option.getD_some, Option.some.injEq, reduceCtorEq, false_or, Dialect.ofLang]
    split
    · next h => simp_all
    · next h => simp_all
    · next h => simp_all
    · next hts htsx _ =>
      constructor
      · intro h
        cases h
      · rintro (rfl | rfl)
        · exact absurd rfl hts
        · exact absurd rfl htsx

/-- **The language of a transformed script.** When a file changes and its script needs types now,
the tag of the script is read, where it stood, with the language that it named before, or with the
language with types if it named none. So it names a language with types exactly if it named one
before or named none. A tag with a lone `=` behind its name is left out, unless it named no
language. -/
theorem runFile_lang {outcome : FileOutcome} (h : t.runFile options filename source = .ok outcome)
    (hchanged : outcome.changed = true) :
    ∃ sfc script rewritten, Descriptor.parse source = .ok sfc ∧ sfc.script = some script ∧
      t.runScript (Dialect.ofLang script.lang?) options script.content = .ok rewritten ∧
      (rewritten.usesTypes = true → script.lang? = none ∨ ¬ LoneEquals source script →
        ∃ tag, OpenTag.read? (Text.suffixFrom outcome.code.toList (script.location.tagStart + 1)) =
            some tag ∧
          tag.name = script.tag ∧ tag.attributes.lookup "lang" = some (script.lang?.getD "ts") ∧
          ((Dialect.ofLang (tag.attributes.lookup "lang")).types = true ↔
            script.lang? = none ∨ script.lang? = some "ts" ∨ script.lang? = some "tsx")) := by
  obtain ⟨sfc, script, rewritten, -, hparse, -, hscript, hrewritten, -, hrender⟩ :=
    runFile_changed h hchanged
  refine ⟨sfc, script, rewritten, hparse, hscript, hrewritten, fun htypes hlone => ?_⟩
  obtain ⟨front, attributes, rest, tag, hsource, htagStart, hstart, hstop, hread, hname, hattrs,
    hrest⟩ := Block.exists_openTag (mem_blocks_of_script hparse hscript).1
  have hoffset : script.attributeOffset = byteSize (front ++ '<' :: script.tag.toList) :=
    attributeOffset_eq hparse hscript htagStart
  rw [render?_spliceScript hsource hoffset hstart hstop, Option.some.injEq] at hrender
  -- what is read from the new tag on
  have hbehind : Text.suffixFrom outcome.code.toList (script.location.tagStart + 1) =
      tag.name.toList ++ (t.newAttributes options rewritten.usesTypes script.lang?).toList ++
        attributes ++ (rewritten.code.toList ++ rest) := by
    have hsize : script.location.tagStart + 1 = byteSize (front ++ ['<']) := by
      rw [htagStart, Text.byteSize_append]
      rfl
    rw [← hrender, String.toList_ofList, hsize, hname]
    have hsplit := Text.suffixFrom_append (front ++ ['<']) (script.tag.toList ++
      (t.newAttributes options rewritten.usesTypes script.lang?).toList ++ attributes ++
      (rewritten.code.toList ++ rest))
    simpa using hsplit
  have hlang : tag.attributes.lookup "lang" = script.lang? := by rw [hattrs]; rfl
  obtain ⟨tag', hread', hname', hlang'⟩ : ∃ tag', OpenTag.read? (tag.name.toList ++
      (t.newAttributes options rewritten.usesTypes script.lang?).toList ++ attributes ++
      (rewritten.code.toList ++ rest)) = some tag' ∧ tag'.name = tag.name ∧
      tag'.attributes.lookup "lang" = some (script.lang?.getD "ts") := by
    rw [newAttributes_eq, htypes]
    cases hscriptLang : script.lang? with
    | none =>
      rw [hscriptLang] at hlang
      have hadded := OpenTag.lang_added hread rfl hlang
        (decide (t = .scriptSetup ∧ options.addSetupAttribute = true))
        (rewritten.code.toList ++ rest)
      simpa using hadded
    | some lang =>
      rw [hscriptLang] at hlang hlone
      by_cases hsetup : t = .scriptSetup ∧ options.addSetupAttribute = true
      · have hplain : ((attributes ++ tag.rest).dropWhile Sfc.isTagSpace).head? ≠ some '=' := by
          have hlone := hlone.resolve_left (by simp)
          have hsplit : source.toList = front ++ '<' :: script.tag.toList ++
              (attributes ++ tag.rest) := by
            rw [hsource, hrest]
            simp
          rwa [LoneEquals, hoffset, hsplit, Text.suffixFrom_append] at hlone
        have hkept := OpenTag.lang_kept hread rfl hlang hplain (rewritten.code.toList ++ rest)
        simpa [hsetup] using hkept
      · have hsame := OpenTag.lang_same hread rfl hlang (rewritten.code.toList ++ rest)
        simpa [hsetup] using hsame
  refine ⟨tag', by rw [hbehind, hread'], hname'.trans hname, hlang', ?_⟩
  rw [hlang']
  exact types_ofLang_getD script.lang?

/-- A component whose props are declared by a type. -/
def typedScript : String :=
  "export default defineComponent(\x7b props: \x7b a: Number \x7d \x7d)\n"

/-- What becomes of it. -/
def typedCode : String :=
  "type Props = \x7b\n  a?: number\n\x7d\nconst props = defineProps<Props>()\n"

theorem runFile_lang_typedScript :
    ∃ outcome, scriptSetup.runFile {} "A.vue" ("<script>" ++ typedScript ++ "</script>") =
        .ok outcome ∧ outcome.changed = true ∧
      ∃ tag, OpenTag.read? (Text.suffixFrom outcome.code.toList 1) = some tag ∧
        tag.name = "script" ∧ tag.attributes.lookup "lang" = some "ts" := by
  have hrun : (scriptSetup.runFile {} "A.vue" ("<script>" ++ typedScript ++
      "</script>")).toOption.map FileOutcome.changed = some true := by
    decide +kernel
  obtain ⟨outcome, hok, hchanged⟩ := Option.map_eq_some_iff.mp hrun
  have hfile := eq_ok_of_toOption hok
  refine ⟨outcome, hfile, hchanged, ?_⟩
  obtain ⟨sfc, script, rewritten, hsfc, hscript, hrewritten, hlang⟩ := runFile_lang hfile hchanged
  -- the script that was found
  have hfound : (Descriptor.parse ("<script>" ++ typedScript ++ "</script>")).toOption.map
      (fun sfc => sfc.script.map fun script =>
        (script.lang?, script.content, script.tag, script.location.tagStart)) =
        some (some (none, typedScript, "script", 0)) := by
    decide +kernel
  rw [hsfc] at hfound
  simp only [Except.toOption, Option.map_some, hscript, Option.some.injEq, Prod.mk.injEq] at hfound
  obtain ⟨hnone, hcontent, htag, hstart⟩ := hfound
  have htypes : (scriptSetup.runScript (Dialect.ofLang none) {} typedScript).toOption.map
      ScriptOutcome.usesTypes = some true := by
    decide +kernel
  rw [← hnone, ← hcontent, hrewritten] at htypes
  obtain ⟨tag, hread, hname, hvalue, -⟩ := hlang (Option.some.inj htypes) (.inl hnone)
  rw [hstart] at hread
  rw [hnone] at hvalue
  exact ⟨tag, hread, hname.trans htag, hvalue⟩

/-- A script that is declared to be in another language stays so, though its props are declared by a
type now, which that language does not have. -/
theorem runFile_lang_declared : ∃ outcome sfc' setup,
    scriptSetup.runFile {} "A.vue" ("<script lang=\"js\">" ++ typedScript ++ "</script>") =
        .ok outcome ∧ outcome.changed = true ∧
      (scriptSetup.runScript (Dialect.ofLang (some "js")) {} typedScript).toOption.map
        ScriptOutcome.usesTypes = some true ∧
      Descriptor.parse outcome.code = .ok sfc' ∧ sfc'.scriptSetup = some setup ∧
      setup.content = typedCode ∧ setup.lang? = some "js" ∧
      (Dialect.ofLang setup.lang?).types = false := by
  have hrun : (scriptSetup.runFile {} "A.vue"
      ("<script lang=\"js\">" ++ typedScript ++ "</script>")).toOption =
        some ⟨"<script setup lang=\"js\">" ++ typedCode ++ "</script>", true, []⟩ := by
    decide +kernel
  have htypes : (scriptSetup.runScript (Dialect.ofLang (some "js")) {} typedScript).toOption.map
      ScriptOutcome.usesTypes = some true := by
    decide +kernel
  have hsplit : (Descriptor.parse ("<script setup lang=\"js\">" ++ typedCode ++
      "</script>")).toOption.map
      (fun sfc => sfc.scriptSetup.map fun setup => (setup.content, setup.lang?)) =
        some (some (typedCode, some "js")) := by
    decide +kernel
  obtain ⟨sfc', hparse, hsplit⟩ := Option.map_eq_some_iff.mp hsplit
  obtain ⟨setup, hsetup, hattributes⟩ := Option.map_eq_some_iff.mp hsplit
  obtain ⟨hcontent, hlang⟩ := Prod.mk.inj hattributes
  refine ⟨_, sfc', setup, eq_ok_of_toOption hrun, rfl, htypes, eq_ok_of_toOption hparse, hsetup,
    hcontent, hlang, ?_⟩
  rw [hlang]
  rfl

end Transformation

end VueSetup
