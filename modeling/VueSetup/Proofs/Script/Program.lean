import VueSetup.Proofs.Script.Grammar.Edges
import VueSetup.Proofs.Script.Grammar.Statement
import VueSetup.Script.Program

/-!
# VueSetup.Proofs.Script.Program

The trees of a script are laid in its text: the rules lay what they make as long as the rules that
they refer to do, and so do the rules of every level.

The recursion through the rules is cut off at a level of nesting, at which every rule refuses
(`exhausted`). A script is read at a level above its length. So the induction is on the level, and
its step is that `unfold` keeps what is known of a grammar.
-/

namespace VueSetup.Script

open Text Parse

variable {src : List Char}

namespace Grammar

/-- Rules without an outcome refuse everywhere. -/
theorem balks_exhausted : exhausted.Balks where
  expression _ _ _ := ensures_reject
  assignment _ _ _ := ensures_reject
  operation _ _ _ _ := ensures_reject
  operand _ _ _ := ensures_reject
  access _ _ _ := ensures_reject
  statement _ _ _ _ := ensures_reject

/-- The rules refuse what is no token if those they refer to do. -/
theorem Balks.unfold {g : Grammar} (hg : g.Balks) : g.unfold.Balks where
  expression := balks_expressionRule hg
  assignment := balks_assignmentRule hg
  operation := balks_operationRule hg
  operand := balks_operandRule hg
  access := balks_accessRule
  statement := balks_statementRule hg

/-- Rules without an outcome make nothing that would have to be laid. -/
theorem sound_exhausted : exhausted.Sound src where
  balks := balks_exhausted
  statement_ends _ _ _ := ensures_reject
  expression := lays_reject
  assignment := lays_reject
  operation _ := lays_reject
  operand := lays_reject
  access := lays_reject
  statement _ := lays_reject
  type := lays_reject
  pattern := lays_reject
  element _ _ _ := ensures_reject

/-- One lemma for each rule, from the modules on the grammar. -/
theorem Sound.unfold {g : Grammar} (hg : g.Sound src) : g.unfold.Sound src where
  balks := hg.balks.unfold
  statement_ends := ends_statementRule
  expression := lays_expressionRule hg
  assignment := lays_assignmentRule hg
  operation := lays_operationRule hg
  operand := lays_operandRule hg
  access := lays_accessRule hg
  statement := lays_statementRule hg
  type := lays_typeRule hg
  pattern := lays_patternRule hg
  element _ _ := ensures_elementRule hg

/-- Every level of the grammar lays what it makes. -/
theorem sound_upTo (n : Nat) : (upTo n).Sound src := by
  induction n with
  | zero => exact sound_exhausted
  | succ n ih => exact ih.unfold

end Grammar

namespace Program

/-- The line that names a program to run is a front part of the text. -/
theorem exists_before_skipRunLine (cs : List Char) :
    ∃ before, cs = before ++ (skipRunLine cs).2 ∧ byteSize before = (skipRunLine cs).1 := by
  unfold skipRunLine
  split
  · next rest =>
    refine ⟨['#', '!'] ++ rest.takeWhile fun c => !isLineEnd c, by simp, ?_⟩
    rw [byteSize_append]
    rfl
  · exact ⟨[], rfl, rfl⟩

/-- The first cursor of a script. -/
theorem on_firstCursor (source : String) : (Cursor.scanAt (source.toList.length + 1)
    (skipRunLine source.toList).1 (skipRunLine source.toList).2).On source.toList :=
  Cursor.on_scanAt rfl (exists_before_skipRunLine source.toList)

/-- A script that is read is an outcome of the rule for scripts. -/
theorem rule_of_parse? {dialect : Dialect} {source : String} {program : Program}
    (h : parse? dialect source = some program) :
    ∃ c', rule (Grammar.upTo (4 * source.toList.length + 16)) { dialect }
      (Cursor.scanAt (source.toList.length + 1) (skipRunLine source.toList).1
        (skipRunLine source.toList).2) = some (program, c') := by
  unfold parse? at h
  obtain ⟨⟨parsed, c'⟩, hrun, h⟩ := Option.bind_eq_some_iff.mp h
  dsimp only at h
  split at h
  · obtain rfl := Option.some.inj h
    exact ⟨c', hrun⟩
  · cases h

/-- The trees of a script come one after the other in its text. -/
theorem laid_of_parse? {dialect : Dialect} {source : String} {program : Program}
    (h : parse? dialect source = some program) :
    Laid source.toList 0 (byteSize source.toList) (program.directives ++ program.statements) := by
  obtain ⟨c', hrun⟩ := rule_of_parse? h
  have hlays : ∀ g : Grammar, g.Sound source.toList →
      (rule g).Lays source.toList fun program => program.directives ++ program.statements := by
    intro g hg ctx c hc
    simp [rule]
    exact Grammar.lays_directivesAndStatements hg (fun ctx c => by simp) ctx c hc
  have hreach := hlays _ (Grammar.sound_upTo _) _ _ (on_firstCursor source) _ _ hrun
  exact hreach.fit _ _ (Nat.zero_le _) hreach.on.last_isBoundary.le_byteSize (Nat.zero_le _)

end Program

end VueSetup.Script
