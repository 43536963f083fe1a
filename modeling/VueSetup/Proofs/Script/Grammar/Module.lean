import VueSetup.Proofs.Script.Grammar.Declaration
import VueSetup.Script.Grammar.Module

/-!
# VueSetup.Proofs.Script.Grammar.Module

Imports and exports are laid in the text. What a default export exports stands behind the export's
first character, and an import takes two bytes at least.
-/

namespace VueSetup.Script.Grammar

open Parse

variable {src : List Char} {g : Grammar}

/-! ### Shared parts

Names of exports and the module that they come from. The latter is a string, and so has two bytes at
least. -/

/-- A word or a string. -/
theorem lays_exportName : exportName.Lays src ([·]) := by
  intro ctx c hc
  simp [exportName]
  exact ⟨fun _ => lays_string ctx c hc, fun _ => lays_plainName ctx c hc⟩

/-- A key and its value. -/
theorem lays_importAttribute : importAttribute.Lays src ([·]) := by
  intro ctx c hc
  simp [importAttribute]
  refine hc.reach.then lays_exportName fun key c₁ h _ => ?_
  exact h.next.then lays_string fun value c₂ h => (h.form .other (by simp)).toReach

/-- Attributes in braces behind a word, if there are any. -/
theorem lays_importAttributes : importAttributes.Lays src id := by
  intro ctx c hc
  simp [importAttributes]
  refine ⟨fun _ _ => ?_, fun _ _ => hc.reach⟩
  exact hc.pass.toReach.next.then (lays_importAttribute.nodesTo _) fun attributes c₁ h => h.toReach

/-- The module's name is not empty in the text. -/
theorem ensures_moduleSource {ctx : Context} {c : Cursor} (hc : c.On src) :
    moduleSource.Ensures ctx c fun ns c' => Reach src c c' ns ∧ c.token.start < c'.lastStop := by
  have hstring : string.Ensures ctx c fun n c' => Reach src c c' [n] ∧
      c.token.start < c'.lastStop := by
    have hsized := hc.sized
    simp only [string, ensures_bind, ensures_token]
    split
    · next value hkind =>
      rw [hkind] at hsized
      have hpos : 0 < c.token.stop - c.token.start := hsized
      simp only [ensures_bind, ensures_advance, ensures_pure, Cursor.next_lastStop]
      exact ⟨(pass_string hc hkind).toReach, by omega⟩
    · exact ensures_reject
  simp [moduleSource]
  refine hstring.imp fun source c₁ h => ?_
  obtain ⟨h, hlt⟩ := h
  refine (lays_importAttributes ctx c₁ h.on).imp fun attributes c₂ h' => ?_
  exact ⟨h.append h', Nat.lt_of_lt_of_le hlt h'.last_le⟩

/-- The module and its attributes. -/
theorem lays_moduleSource : moduleSource.Lays src id :=
  fun _ _ hc => (ensures_moduleSource hc).imp fun _ _ h => h.1

/-! ### Imports

The specifiers of an import are no trees; what they hold of the text are the names under which the
module exports. So the outcomes are pairs, and only their second part is laid. -/

/-- The word is passed or not, and makes nothing. -/
theorem lays_eatTypeWord : eatTypeWord.Lays src fun _ => [] := by
  intro ctx c hc
  simp [eatTypeWord]
  refine ⟨?_, ?_⟩ <;> intros
  · exact ⟨fun _ => hc.pass.toReach, fun _ => hc.reach⟩
  · exact hc.reach

/-- Of a renamed specifier the name in the module is a node. -/
theorem lays_importSpecifier : importSpecifier.Lays src fun s => s.2 := by
  intro ctx c hc
  simp [importSpecifier]
  refine hc.reach.then lays_eatTypeWord fun _ c₁ h => ⟨fun _ => ?_, fun _ => ?_⟩
  · refine h.then lays_exportName fun imported c₂ h => ?_
    exact ensures_identifier fun name _ _ => h.next.toReach.next.toReach
  · exact ensures_identifier fun name _ _ => h.next.toReach

/-- Specifiers in braces, with commas between them. -/
theorem lays_bracedSpecifiers : bracedSpecifiers.Lays src fun s => s.2 := by
  intro ctx c hc
  simp [bracedSpecifiers]
  intro _
  have hnamed : (listTo .rcurly importSpecifier).Lays src fun named => named.flatMap (·.2) :=
    lays_importSpecifier.element.listTo _ rfl fun _ _ => rfl
  exact hc.pass.then hnamed fun named c₁ h => h.toReach

/-- One of the two ways to import more than the default export. -/
theorem lays_otherSpecifiers : otherSpecifiers.Lays src fun s => s.2 := by
  intro ctx c hc
  simp [otherSpecifiers, namespaceSpecifier]
  refine ⟨fun _ _ => ensures_identifier fun name _ _ => ?_, fun _ => lays_bracedSpecifiers ctx c hc⟩
  exact hc.pass.toReach.next.toReach.next.toReach

/-- The default export comes first, and a comma behind it if there are others. -/
theorem lays_importSpecifiers : importSpecifiers.Lays src fun s => s.2 := by
  intro ctx c hc
  simp [importSpecifiers]
  refine ⟨fun _ => ensures_identifier fun name _ _ => ⟨fun _ => ?_, fun _ => hc.pass.toReach⟩,
    fun _ => ?_⟩
  · exact hc.pass.toReach.next.then lays_otherSpecifiers fun others c₁ h => h.toReach
  · exact lays_otherSpecifiers ctx c hc

/-- An import without names runs the module. -/
theorem lays_importClause : importClause.Lays src fun s => s.2 := by
  intro ctx c hc
  simp [importClause]
  refine ⟨fun _ => hc.reach, fun _ => ?_⟩
  exact hc.reach.then lays_importSpecifiers fun found c₁ h _ => h.next.toReach

/-- A word before the names that says how to import. -/
theorem lays_skipImportWord : skipImportWord.Lays src fun _ => [] := by
  intro ctx c hc
  simp [skipImportWord, hc.reach, hc.pass.toReach]

/-- A word is not empty in the text. -/
theorem start_lt_stop_of_isWord {c : Cursor} (hc : c.On src) {w : String}
    (h : c.token.isWord w = true) : c.token.start < c.token.stop := by
  have hsized := hc.sized
  rw [Token.kind_of_isWord h] at hsized
  have hpos : 0 < c.token.stop - c.token.start := hsized
  omega

/-- An import takes two bytes at least: one for its word, and one for the module's name. -/
theorem ensures_importDeclaration {ctx : Context} {c : Cursor} (hc : c.On src)
    (hword : c.token.isWord "import" = true) :
    importDeclaration.Ensures ctx c fun n c' => Reach src c c' [n] := by
  have hlt := start_lt_stop_of_isWord hc hword
  simp [importDeclaration]
  refine ⟨?_, ?_⟩ <;> intros
  · exact ensures_importEquals hc.pass.toReach
  refine hc.next.reach.then lays_skipImportWord fun _ c₁ h => ?_
  refine h.then lays_importClause fun clause c₂ h => ?_
  refine (ensures_moduleSource h.on).imp fun source c₃ hsource => ?_
  obtain ⟨hsource, hpos⟩ := hsource
  refine (lays_endStatement ctx c₃ hsource.on).imp fun _ c₄ hend => ?_
  have hsize : c.token.start + 2 ≤ c₄.lastStop := by
    have hnext := hc.next.last_le
    rw [Cursor.next_lastStop] at hnext
    have hstart := h.start_le
    have hstop := hend.last_le
    omega
  have hparts : Pass src c c₄ (clause.2 ++ source) := by
    simpa using hc.pass.append (h.append (hsource.append hend))
  have himport : Pass src c c₄
      [.importDeclaration ⟨c.token.start, c₄.lastStop⟩ clause.1 (clause.2 ++ source)] :=
    hparts.enclose rfl hsize (fun _ _ => .inl rfl) ⟨rfl, rfl⟩ (by simp) (by simp)
  exact himport.toReach

/-! ### Exports

Names in the braces of an export stand in the tree as uses of names and as exported names, which are
written once where they agree. They have no parts and lie over each other; only the source behind
them is laid in order. -/

/-- An exported name has no parts, and one that is a word holds no `<`. -/
theorem ensures_exportName {ctx : Context} {c : Cursor} (hc : c.On src) :
    exportName.Ensures ctx c fun n c' => Reach src c c' [n] ∧ n.parts = [] ∧
      (c.token.isName = true → '<' ∉ (exportText n).toList) := by
  refine (lays_exportName ctx c hc).and ?_
  simp [exportName, string, plainName]
  refine ⟨fun hstring => ?_, fun _ => ensures_anyName fun name _ hkind => ⟨rfl, fun _ => ?_⟩⟩
  · split
    · next hkind => simp [Node.parts, Token.isName, hkind]
    · simp
  · exact hc.lt_notMem_word hkind

/-- The own name and the one that is exported, if that is another. -/
theorem lays_exportSpecifier : exportSpecifier.Lays src fun s => s.own :: s.renamed := by
  intro ctx c hc
  simp [exportSpecifier, -ensures_eatWord?]
  refine hc.reach.then lays_eatTypeWord fun isType c₁ h => ?_
  refine h.then lays_exportName fun own c₂ h => ?_
  refine h.then (lays_eatWord? _) fun isRenamed c₃ h => ?_
  exact h.then (lays_exportName.optional _) fun renamed c₄ h => by simpa using h

/-- The names have no parts, so that they may lie over each other. A word among them holds no `<`.
-/
theorem ensures_exportSpecifier (ctx : Context) (c : Cursor) (hc : c.On src) :
    exportSpecifier.Ensures ctx c fun s c' => c'.On src ∧ (∀ n ∈ s.own :: s.renamed, n.parts = []) ∧
      (s.token.isName = true → '<' ∉ (exportText s.own).toList) := by
  simp [exportSpecifier, -ensures_eatWord?]
  refine (lays_eatTypeWord ctx c hc).imp fun isType c₁ h => ?_
  refine (ensures_exportName h.on).imp fun own c₂ ⟨h, hown, hname⟩ => ?_
  refine (lays_eatWord? _ ctx c₂ h.on).imp fun isRenamed c₃ h => ?_
  simp [Parse.optional, one]
  refine ⟨fun _ => (ensures_exportName h.on).imp fun renamed c₄ ⟨h, hrenamed, _⟩ => ?_, fun _ => ?_⟩
  · exact ⟨h.on, ⟨hown, hrenamed⟩, hname⟩
  · exact ⟨h.on, hown, hname⟩

/-- The exported name is one of the two that were read. -/
theorem ExportSpecifier.exported_mem (s : ExportSpecifier) : s.exported ∈ s.own :: s.renamed := by
  simp only [exported]
  cases s.renamed with
  | nil => simp
  | cons n ns => simp

/-- The names in the braces of an export lie over each other, and all of them before the source. -/
theorem pass_exportNamed {c c₁ c₂ : Cursor} {leaves source : List Node}
    (hleaves : ∀ l ∈ leaves, l.parts = [] ∧ Fit src c.token.start c₁.lastStop [l])
    (h : Pass src c c₂ source) (hle : c₁.lastStop ≤ c₂.lastStop) (names : List String) :
    Pass src c c₂ [.exportNamed ⟨c.token.start, c₂.lastStop⟩ names (leaves ++ source)] := by
  refine h.comprise rfl rfl List.perm_append_comm (fun l hl => (hleaves l hl).1) fun l hl => ?_
  exact (hleaves l hl).2.weaken (Nat.le_refl _) hle

/-- Without a source the own names are used, and with one they are names of the other module. -/
theorem ensures_exportBraces {ctx : Context} {c c₁ : Cursor} (h : Reach src c c₁ [])
    (typesOnly : Bool) : (exportBraces c.token.start typesOnly).Ensures ctx c₁
      fun n c' => Reach src c c' [n] := by
  have hspecifiers : (listTo .rcurly exportSpecifier).Lays src
      (List.flatMap fun s => s.own :: s.renamed) :=
    lays_exportSpecifier.element.listTo _ rfl fun _ _ => rfl
  simp [exportBraces]
  intro _
  have hall := ensures_listTo (I := Cursor.On src) (ensures_exportSpecifier ctx)
    (fun _ hc _ => hc.next) .rcurly h.on.next
  refine ((hspecifiers ctx _ h.on.next).and hall).imp fun specifiers c₂ ⟨hnames, hparts⟩ => ?_
  have hall := h.next.append hnames
  -- All names of the braces lie between them and have no parts, so that some may stand twice.
  have hleaf : ∀ s ∈ specifiers, ∀ n ∈ s.own :: s.renamed,
      n.parts = [] ∧ Fit src c.token.start c₂.lastStop [n] := fun s hs n hn =>
    ⟨(hparts s hs).1 n hn, hall.fit.of_mem (List.mem_flatMap.mpr ⟨s, hs, hn⟩)⟩
  refine ⟨fun _ => ?_, fun _ hwords => ?_⟩
  · -- With a module behind the braces the names are those of the module.
    have hstrings : ∀ l ∈ specifiers.flatMap fun s => [s.own, s.exported],
        l.parts = [] ∧ Fit src c.token.start c₂.lastStop [l] := by
      intro l hl
      obtain ⟨s, hs, hl⟩ := List.mem_flatMap.mp hl
      simp only [List.mem_cons, List.not_mem_nil, or_false] at hl
      rcases hl with rfl | rfl
      · exact hleaf s hs s.own List.mem_cons_self
      · exact hleaf s hs s.exported s.exported_mem
    refine (lays_moduleSource ctx _ hall.on.next).imp fun source c₃ hsource => ?_
    refine hsource.then lays_endStatement fun _ c₄ hend => ?_
    have hle : c₂.lastStop ≤ c₄.lastStop :=
      Nat.le_trans (hall.on.reach.next.last_le) hend.last_le
    have hnode := pass_exportNamed hstrings (hall.drop.toReach.next.append hend) hle
    simpa using (hnode _).toReach
  · -- Without one they are uses of names of the script.
    have huses : ∀ l ∈ specifiers.flatMap fun s =>
          [.reference s.own.span (exportText s.own), s.exported],
        l.parts = [] ∧ Fit src c.token.start c₂.lastStop [l] := by
      intro l hl
      obtain ⟨s, hs, hl⟩ := List.mem_flatMap.mp hl
      simp only [List.mem_cons, List.not_mem_nil, or_false] at hl
      rcases hl with rfl | rfl
      · have hname := (hparts s hs).2 (hwords s hs).1
        exact ⟨rfl, (hleaf s hs s.own List.mem_cons_self).2.leaf rfl rfl
          (Node.isPlain_reference hname _)⟩
      · exact hleaf s hs s.exported s.exported_mem
    refine (lays_endStatement ctx _ hall.on).imp fun _ c₃ hend => ?_
    have hnode := pass_exportNamed huses (hall.drop.append hend) hend.last_le
    simpa using (hnode _).toReach

/-- The value of a default export stands behind the word `export`. -/
theorem pass_exportDefault {c c₁ : Cursor} {value : Node} (hc : c.On src)
    (hlt : c.token.start < c.token.stop) (h : Reach src c.next c₁ [value]) :
    Pass src c c₁ [.exportDefault ⟨c.token.start, c₁.lastStop⟩ value] := by
  have hpass := hc.pass.append h
  refine { hpass with fit := fun lo hi hlo hhi hle => ?_, moved := fun _ => hpass.left }
  have hnext := hc.next.last_le
  have hpassed := (h.pass (by simp)).passed
  rw [Cursor.next_lastStop] at hnext
  refine Laid.singleton_iff.mpr ⟨[value], [], ⟨hlo, hpass.passed, hhi, hc.start_isBoundary,
    h.on.last_isBoundary, trivial⟩, ⟨rfl, rfl⟩, ?_, by simp, by simp⟩
  exact h.fit _ _ (by simp only [Node.room]; omega) (Nat.le_refl _)
    (by simp only [Node.room]; omega)

/-- The name for the whole module stands before the source. -/
theorem ensures_exportAll {ctx : Context} {c c₁ : Cursor} (h : Reach src c c₁ [])
    (typesOnly : Bool) : (exportAll c.token.start typesOnly).Ensures ctx c₁
      fun n c' => Reach src c c' [n] := by
  simp [exportAll, -ensures_eatWord?]
  refine fun _ => h.next.then (lays_eatWord? _) fun isNamed c₂ h => ?_
  refine h.then (lays_exportName.optional _) fun name c₃ h _ => ?_
  refine h.toReach.next.then lays_moduleSource fun source c₄ h => ?_
  exact h.then lays_endStatement fun _ c₅ h => (h.node rfl rfl (by simp [Node.parts])).toReach

/-- The value stands behind the two words, with decorators before it if it is a class. -/
theorem ensures_exportDefault (hg : g.Sound src) {ctx : Context} {c : Cursor} (hc : c.On src)
    (hlt : c.token.start < c.token.stop) :
    (g.exportDefault c.token.start).Ensures ctx c.next.next fun n c' => Reach src c c' [n] := by
  have hvalue : ∀ value c', Reach src c.next c' [value] →
      Reach src c c' [.exportDefault ⟨c.token.start, c'.lastStop⟩ value] :=
    fun value c' h => (pass_exportDefault hc hlt h).toReach
  simp [exportDefault]
  refine hc.next.pass.then (lays_decorators hg) fun decorators c₁ h => ?_
  refine stays_atFunction.ensures fun isFunction => ⟨?_, ?_⟩ <;> intros
  · exact (ensures_classRule hg true h.toReach).imp fun n c' hn => hvalue n c' hn.1
  refine ⟨?_, ?_⟩ <;> intros
  · exact (ensures_classRule hg true (by simpa using h.toReach.next.toReach)).imp
      fun n c' hn => hvalue n c' hn.1
  have hbehind : ∀ value c', Reach src c₁ c' [value] →
      Reach src c c' [.exportDefault ⟨c.token.start, c'.lastStop⟩ value] :=
    fun value c' h' => hvalue value c' (h.drop.toReach.append h')
  refine ⟨?_, ?_⟩ <;> intros
  · exact (ensures_interface hg h.on.reach).imp hbehind
  refine ⟨?_, ?_⟩ <;> intros
  · exact h.on.reach.then (lays_functionDeclaration hg true false) hbehind
  refine h.on.reach.then hg.assignment fun value c₂ h => ?_
  exact h.then lays_endStatement fun _ c₃ h => hbehind value c₃ h

/-- An export that starts at `c`, behind decorators that start at `c₀`. -/
theorem ensures_exportDeclaration (hg : g.Sound src) {ctx : Context} {c₀ c : Cursor}
    {decorators : List Node} (h : Reach src c₀ c decorators)
    (hword : c.token.isWord "export" = true) :
    (g.exportDeclaration decorators).Ensures ctx c fun n c' => Reach src c₀ c' [n] := by
  have hc := h.on
  -- all but a class stands behind the decorators
  have hbehind : ∀ n c', Reach src c c' [n] → Reach src c₀ c' [n] :=
    fun n c' h' => h.drop.append h'
  simp [exportDeclaration]
  refine ⟨?_, ?_⟩ <;> intros
  · exact (ensures_exportDefault hg hc (start_lt_stop_of_isWord hc hword)).imp hbehind
  refine ⟨?_, ?_⟩ <;> intros
  · exact (ensures_exportAll hc.pass.toReach false).imp hbehind
  refine ⟨?_, ?_⟩ <;> intros
  · exact (ensures_exportBraces hc.pass.toReach false).imp hbehind
  refine ⟨?_, ?_⟩ <;> intros
  · exact (ensures_exportBraces hc.pass.toReach.next.toReach true).imp hbehind
  refine ⟨?_, ?_⟩ <;> intros
  · exact (ensures_exportAll hc.pass.toReach.next.toReach true).imp hbehind
  refine ⟨?_, ?_⟩ <;> intros
  · refine hc.pass.toReach.next.then hg.expression fun value c₁ h => ?_
    exact h.then lays_endStatement fun _ c₂ h => hbehind _ _ (h.form .other (by simp)).toReach
  refine ⟨?_, ?_⟩ <;> intros
  · refine hc.pass.toReach.next.toReach.next.then lays_plainName fun name c₁ h => ?_
    exact h.then lays_endStatement fun _ c₂ h => hbehind _ _ (h.form .other (by simp)).toReach
  -- a declaration: its decorators may stand before the export and behind it
  have hexport : ∀ n c', Reach src c₀ c' [n] ∧ c.token.start ≤ n.span.start → ∀ names,
      Reach src c₀ c' [.exportNamed ⟨c.token.start, c'.lastStop⟩ names [n]] := by
    rintro n c' ⟨hn, hstart⟩ names
    have hs := (hn.fit.laid (hn.pass (by simp)).passed).sits
    have hnode := (hn.pass (by simp)).around (n :=
      .exportNamed ⟨c.token.start, c'.lastStop⟩ names [n])
      (fun _ _ => rfl) ⟨h.start_le, Nat.le_trans hstart (Nat.le_trans hs.start_le_stop hs.le_hi),
        Nat.le_refl _, hc.start_isBoundary, hn.on.last_isBoundary, trivial⟩ (.refl _)
    exact hnode.toReach
  refine hc.pass.then (lays_decorators hg) fun own c₁ hown => ?_
  have hall : Reach src c₀ c₁ (decorators ++ own) := h.append hown.toReach
  refine ⟨fun _ => ?_, fun _ => ?_⟩
  · refine (ensures_typedDeclaration hg hall).imp fun n c' hn => hexport n c' ⟨hn.1, ?_⟩ _
    exact Nat.le_trans hown.start_le hn.2
  · exact (ensures_plainDeclaration hg h.drop hown.drop.toReach hall).imp fun n c' hn =>
      hexport n c' hn _

end VueSetup.Script.Grammar
