import VueSetup.Import
import VueSetup.Proofs.Draft.Slice
import VueSetup.Proofs.Script.Import

/-!
# VueSetup.Proofs.Import.Range

What goes when an import is taken out is one stretch of the script
(`Import.removeUnused?_removes`).

Of a declaration with several names the stretch goes from one name to another, or up to a comma or a
brace that is looked for behind the name. The parser says where names, commas and braces stand
(`Script.ImportNames`): the character that is found is the token or stands before it, in a comment,
so that the stretch never reaches another name. A declaration that goes as a whole takes at most two
line breaks with it, before the next statement (`Script.Chained`).
-/

namespace VueSetup

open Script (AreOthers Chained Dialect ImportKind ImportNames ImportSpecifier InOrder Node Program
  StandsBetween StartsNoFiller le_tokenBehind tokenBehind)
open Text (IsBoundary between byteSize byteSize_append byteSize_cons suffixFrom suffixFrom_append)

namespace Script

/-! ### Statements and names in order

The parser gives the statements of a script in order, and the names of an import too. -/

/-- No statement starts before the first token. -/
theorem Chained.tokenBehind_le {src : List Char} {hi pos : Nat} {ns : List Node}
    (h : Chained src hi pos ns) {m : Node} (hm : m ∈ ns) : tokenBehind src pos ≤ m.span.start := by
  induction ns generalizing pos with
  | nil => cases hm
  | cons n ns ih =>
    rcases List.mem_cons.mp hm with rfl | hm
    · exact h.1
    · have hlt := h.2.1
      have hle := le_tokenBehind src n.span.stop
      have hrest := ih h.2.2 hm
      omega

/-- A statement stands behind those before it, and the others start at the first token behind it or
later. -/
theorem Chained.apart {src : List Char} {hi pos : Nat} {before after : List Node} {n : Node}
    (h : Chained src hi pos (before ++ n :: after)) :
    (∀ m ∈ before, m.span.stop ≤ n.span.start) ∧
      ∀ m ∈ after, tokenBehind src n.span.stop ≤ m.span.start := by
  induction before generalizing pos with
  | nil => exact ⟨by simp, fun m hm => h.2.2.tokenBehind_le hm⟩
  | cons m before ih =>
    obtain ⟨hbefore, hafter⟩ := ih h.2.2
    refine ⟨List.forall_mem_cons.mpr ⟨?_, hbefore⟩, hafter⟩
    exact Nat.le_trans (le_tokenBehind src _) (h.2.2.tokenBehind_le (by simp))

end Script

namespace Import

/-! ### Searches in a text

A character is looked for in the text behind a name, whatever stands there. The search is bounded by
where the parser has seen the character. -/

/-- What is passed over ends before a character that stops. -/
theorem takeWhile_isPrefix {p : Char → Bool} {rest : List Char}
    (hrest : ∀ d ∈ rest.head?, p d = false) (mid : List Char) :
    (mid ++ rest).takeWhile p <+: mid := by
  induction mid with
  | nil =>
    cases rest with
    | nil => simp
    | cons d rest => simp [hrest d rfl]
  | cons c mid ih =>
    rw [List.cons_append, List.takeWhile_cons]
    split
    · exact List.prefix_cons_iff.mpr (.inr ⟨_, rfl, ih⟩)
    · exact List.nil_prefix

/-- What stands before a character is passed over. -/
theorem takeWhile_ne_append {ch : Char} {front : List Char} (hfree : ch ∉ front)
    (rest : List Char) :
    (front ++ ch :: rest).takeWhile (· != ch) = front := by
  rw [List.takeWhile_append_of_pos]
  · simp
  · intro d hd
    simpa using fun heq : d = ch => hfree (heq ▸ hd)

/-- The first one of a character is found. -/
theorem sizeThrough_append {ch : Char} {front : List Char} (hfree : ch ∉ front) (rest : List Char) :
    sizeThrough ch (front ++ ch :: rest) = byteSize (front ++ [ch]) := by
  rw [sizeThrough, if_pos (by simp), takeWhile_ne_append hfree, byteSize_append, byteSize_cons,
    Text.byteSize_nil]
  omega

/-- A character that stands between two offsets is found there or before. -/
theorem sizeThrough_spec {src : List Char} {pos hi : Nat} {ch : Char}
    (h : StandsBetween src pos hi ch) : pos < pos + sizeThrough ch (suffixFrom src pos) ∧
      pos + sizeThrough ch (suffixFrom src pos) ≤ hi ∧
      IsBoundary src (pos + sizeThrough ch (suffixFrom src pos)) := by
  obtain ⟨before, mid, rest, rfl, rfl, hhi⟩ := h
  obtain ⟨front, behind, hfirst, hfront⟩ :=
    List.eq_append_cons_of_mem (show ch ∈ mid ++ ch :: rest by simp)
  have hsize : sizeThrough ch (mid ++ ch :: rest) = byteSize (front ++ [ch]) := by
    rw [hfirst, sizeThrough_append hfront]
  have hle : byteSize front ≤ byteSize mid := by
    rw [← takeWhile_ne_append hfront behind, ← hfirst]
    exact Text.byteSize_le_of_sublist (takeWhile_isPrefix (by simp) mid).sublist
  have hpos := ch.utf8Size_pos
  have hend : IsBoundary (mid ++ ch :: rest) (byteSize (front ++ [ch])) :=
    ⟨front ++ [ch], behind, by simp [hfirst], rfl⟩
  rw [suffixFrom_append, hsize]
  refine ⟨?_, ?_, hend.append_left before⟩
  · simp only [byteSize_append, byteSize_cons]
    omega
  · simp only [byteSize_append, byteSize_cons, Text.byteSize_nil]
    omega

/-- Blanks behind an offset end before a text that starts with none. -/
theorem blanks_spec {src : List Char} {pos hi : Nat} (hpos : IsBoundary src pos) (hle : pos ≤ hi)
    (hhi : ∃ before here, src = before ++ here ∧ byteSize before = hi ∧ StartsNoFiller here) :
    pos + byteSize ((suffixFrom src pos).takeWhile Text.isBlank) ≤ hi ∧
      IsBoundary src (pos + byteSize ((suffixFrom src pos).takeWhile Text.isBlank)) := by
  obtain ⟨before, behind, hsrc, rfl⟩ := hpos
  obtain ⟨front, here, hfront, rfl, hsolid⟩ := hhi
  obtain ⟨mid, rfl, rfl⟩ := Text.append_eq_append_of_byteSize_le (hsrc.symm.trans hfront) hle
  have hhead : ∀ d ∈ here.head?, Text.isBlank d = false := fun d hd =>
    Bool.eq_false_iff.mpr fun hblank => by
      simpa [Script.isGapChar_of_isBlank hblank] using hsolid.no_blank d hd
  have hblanks := Text.byteSize_le_of_sublist (takeWhile_isPrefix hhead mid).sublist
  have hend := Text.isBoundary_of_isPrefix (List.takeWhile_prefix Text.isBlank (l := mid ++ here))
  rw [hsrc, suffixFrom_append]
  refine ⟨?_, hend.append_left before⟩
  rw [byteSize_append]
  omega

/-! ### One of several names

There are four ways to take a name out, by its kind and by what stands beside it. In each the
stretch ends or starts where another name does, or at a character that is found before that. -/

/-- The stretch takes a name of a declaration out and no part of the others. -/
structure TakesOut (src : List Char) (span : Span) (earlier : List ImportSpecifier)
    (s : ImportSpecifier) (later : List ImportSpecifier) (range : Span) : Prop where
  start_lt_stop : range.start < range.stop
  start_isBoundary : IsBoundary src range.start
  stop_isBoundary : IsBoundary src range.stop
  le_start : span.start ≤ range.start
  stop_le : range.stop ≤ span.stop
  start_le : range.start ≤ s.span.start
  le_stop : s.span.stop ≤ range.stop
  earlier_apart : ∀ m ∈ earlier, m.span.stop ≤ range.start
  later_apart : ∀ m ∈ later, range.stop ≤ m.span.start

section

variable {src : List Char} {span : Span} {earlier later : List ImportSpecifier}
  {s : ImportSpecifier}

/-- A name goes with what separates it from the next one. -/
theorem takesOut_upTo_next {next : ImportSpecifier}
    (h : InOrder src span.stop span.start (earlier ++ s :: next :: later)) :
    TakesOut src span earlier s (next :: later) ⟨s.span.start, next.span.start⟩ := by
  obtain ⟨hs, hlo, -, hbefore, hafter⟩ := h.apart
  have hnext := hafter next List.mem_cons_self
  rw [← List.singleton_append, ← List.append_assoc] at h
  obtain ⟨hstands, -, hhi, -, hbehind⟩ := h.apart
  have hlt := hs.start_lt_stop
  have hltNext := hstands.start_lt_stop
  refine ⟨?_, hs.start_isBoundary, hstands.start_isBoundary, hlo, ?_, Nat.le_refl _, hnext, hbefore,
    List.forall_mem_cons.mpr ⟨Nat.le_refl _, fun m hm => ?_⟩⟩
  · exact Nat.lt_of_lt_of_le hlt hnext
  · exact Nat.le_trans (Nat.le_of_lt hltNext) hhi
  · exact Nat.le_trans (Nat.le_of_lt hltNext) (hbehind m hm)

/-- The last name goes with what separates it from the one before. -/
theorem takesOut_from_previous {previous : ImportSpecifier}
    (h : InOrder src span.stop span.start (earlier ++ previous :: s :: [])) :
    TakesOut src span (earlier ++ [previous]) s [] ⟨previous.span.stop, s.span.stop⟩ := by
  obtain ⟨hprevious, hlo, -, hbefore, hafter⟩ := h.apart
  have hle := hafter s List.mem_cons_self
  rw [← List.singleton_append, ← List.append_assoc] at h
  obtain ⟨hs, -, hhi, -, -⟩ := h.apart
  have hlt := hs.start_lt_stop
  have hltPrevious := hprevious.start_lt_stop
  refine ⟨Nat.lt_of_le_of_lt hle hlt, hprevious.stop_isBoundary, hs.stop_isBoundary, ?_, hhi, hle,
    Nat.le_refl _, fun m hm => ?_, by simp⟩
  · exact Nat.le_trans hlo (Nat.le_of_lt hltPrevious)
  · rcases List.mem_append.mp hm with hm | hm
    · exact Nat.le_trans (hbefore m hm) (Nat.le_of_lt hltPrevious)
    · exact Nat.le_of_eq (List.mem_singleton.mp hm ▸ rfl)

/-- A default goes with the comma behind it and the blanks behind that. -/
theorem takesOut_default {next : ImportSpecifier} {stop : Nat}
    (h : InOrder src span.stop span.start (s :: next :: later))
    (hstop : s.span.stop < stop) (hle : stop ≤ next.span.start) (hboundary : IsBoundary src stop) :
    TakesOut src span [] s (next :: later) ⟨s.span.start,
      stop + byteSize ((suffixFrom src stop).takeWhile Text.isBlank)⟩ := by
  obtain ⟨hs, hlo, -, -, -⟩ :=
    (show InOrder src span.stop span.start ([] ++ s :: next :: later) from h).apart
  obtain ⟨hnext, -, hhi, -, hafter⟩ :=
    (show InOrder src span.stop span.start ([s] ++ next :: later) from h).apart
  obtain ⟨hblanks, hend⟩ := blanks_spec hboundary hle hnext.solid
  have hlt := hs.start_lt_stop
  have hltNext := hnext.start_lt_stop
  refine ⟨?_, hs.start_isBoundary, hend, hlo, ?_, Nat.le_refl _, ?_, by simp,
    List.forall_mem_cons.mpr ⟨hblanks, fun m hm => ?_⟩⟩ <;> dsimp only
  · omega
  · omega
  · omega
  · have := hafter m hm
    omega

/-- The only name in braces goes with them and with the comma before them. -/
theorem takesOut_braced {first : ImportSpecifier} {stop : Nat}
    (h : InOrder src span.stop span.start [first, s]) (hstop : s.span.stop < stop)
    (hle : stop ≤ span.stop) (hboundary : IsBoundary src stop) :
    TakesOut src span [first] s [] ⟨first.span.stop, stop⟩ := by
  obtain ⟨hfirst, hlo, -, -, hafter⟩ :=
    (show InOrder src span.stop span.start ([] ++ first :: [s]) from h).apart
  obtain ⟨hs, -⟩ := (show InOrder src span.stop span.start ([first] ++ s :: []) from h).apart
  have hbetween := hafter s List.mem_cons_self
  have hlt := hs.start_lt_stop
  have hltFirst := hfirst.start_lt_stop
  refine ⟨?_, hfirst.stop_isBoundary, hboundary, ?_, hle, hbetween, Nat.le_of_lt hstop, by simp,
    by simp⟩ <;> dsimp only
  · omega
  · omega

/-- For a name that is no default and not the only one in braces, nothing is looked for in the
text. -/
theorem specifierRange_between {specifiers : List ImportSpecifier} {index : Nat}
    (hkind : s.kind = .all ∨
      (s.kind = .named ∧ specifiers.countP (·.kind == .named) ≠ 1)) :
    (∀ next, specifiers[index + 1]? = some next →
      specifierRange src specifiers index s = ⟨s.span.start, next.span.start⟩) ∧
    (∀ previous, specifiers[index + 1]? = none → specifiers[index - 1]? = some previous →
      specifierRange src specifiers index s = ⟨previous.span.stop, s.span.stop⟩) := by
  have honly : (s.kind == .named && specifiers.countP (·.kind == .named) == 1) = false := by
    rcases hkind with hall | ⟨-, hothers⟩
    · simp [hall]
    · simp [hothers]
  unfold specifierRange
  split
  · next hdefault => rcases hkind with hall | ⟨hnamed, -⟩ <;> simp_all
  · simp only [honly]
    exact ⟨fun next hnext => by rw [hnext]; rfl,
      fun previous hnext hprevious => by rw [hnext, hprevious]; rfl⟩

/-- The only name in braces goes up to the first brace behind it. -/
theorem specifierRange_braced {first : ImportSpecifier} (hkind : s.kind = .named)
    (honly : [first, s].countP (·.kind == .named) = 1) :
    specifierRange src [first, s] 1 s =
      ⟨first.span.stop, s.span.stop + sizeThrough '}' (suffixFrom src s.span.stop)⟩ := by
  simp only [specifierRange, hkind, honly]
  rfl

/-- A name goes with what separates it from the next one, and the last name with what separates it
from the one before. -/
theorem takesOut_between (h : InOrder src span.stop span.start (earlier ++ s :: later))
    (hseveral : 1 < (earlier ++ s :: later).length)
    (hkind : s.kind = .all ∨
      (s.kind = .named ∧ (earlier ++ s :: later).countP (·.kind == .named) ≠ 1)) :
    TakesOut src span earlier s later
      (specifierRange src (earlier ++ s :: later) earlier.length s) := by
  cases later with
  | cons next later =>
    rw [(specifierRange_between hkind).1 next (by simp)]
    exact takesOut_upTo_next h
  | nil =>
    rcases List.eq_nil_or_concat earlier with rfl | ⟨front, previous, rfl⟩
    · simp at hseveral
    · rw [List.concat_eq_append] at hkind h ⊢
      rw [(specifierRange_between hkind).2 previous (by simp) (by simp)]
      exact takesOut_from_previous (by simpa using h)

/-- A default comes first, and another name follows it. -/
theorem default_cases (h : AreOthers (earlier ++ s :: later) ∨ ∃ first others,
      earlier ++ s :: later = first :: others ∧ first.kind = .default ∧ AreOthers others)
    (hseveral : 1 < (earlier ++ s :: later).length) (hkind : s.kind = .default) :
    earlier = [] ∧ ∃ next rest, later = next :: rest := by
  have hothers : ∀ specifiers, AreOthers specifiers → s ∉ specifiers := by
    rintro _ (hnamed | ⟨m, rfl, hall⟩) hs
    · simp [hnamed s hs] at hkind
    · simp [List.mem_singleton.mp hs ▸ hall] at hkind
  rcases h with h | ⟨first, others, heq, -, h⟩
  · exact absurd (by simp) (hothers _ h)
  · cases earlier with
    | cons m earlier => exact absurd (by simp [← (List.cons.inj heq).2]) (hothers _ h)
    | nil =>
      cases later with
      | nil => simp at hseveral
      | cons next rest => exact ⟨rfl, next, rest, rfl⟩

/-- The only name in braces follows a default. -/
theorem braced_cases (h : AreOthers (earlier ++ s :: later) ∨ ∃ first others,
      earlier ++ s :: later = first :: others ∧ first.kind = .default ∧ AreOthers others)
    (hseveral : 1 < (earlier ++ s :: later).length) (hkind : s.kind = .named)
    (honly : (earlier ++ s :: later).countP (·.kind == .named) = 1) :
    (∃ first, earlier = [first]) ∧ later = [] := by
  rcases h with (hnamed | ⟨m, hm, -⟩) | ⟨first, others, heq, hfirst, hnamed | ⟨m, rfl, hall⟩⟩
  · rw [List.countP_eq_length.mpr fun m hm => by simp [hnamed m hm]] at honly
    omega
  · rw [hm] at hseveral
    exact absurd hseveral (Nat.lt_irrefl 1)
  · rw [heq, List.countP_cons_of_neg (by simp [hfirst]),
      List.countP_eq_length.mpr fun m hm => by simp [hnamed m hm]] at honly
    obtain ⟨m, rfl⟩ := List.length_eq_one_iff.mp honly
    cases earlier with
    | nil =>
      obtain ⟨rfl, -⟩ := List.cons.inj heq
      simp [hfirst] at hkind
    | cons first' earlier =>
      have htail : earlier ++ s :: later = [m] := (List.cons.inj heq).2
      obtain ⟨rfl, hlast⟩ | ⟨-, hlast⟩ := List.append_eq_singleton_iff.mp htail
      · exact ⟨⟨first', rfl⟩, (List.cons.inj hlast).2⟩
      · cases hlast
  · have hs : s ∈ [first, m] := heq ▸ by simp
    rcases List.mem_pair.mp hs with rfl | rfl
    · simp [hfirst] at hkind
    · simp [hall] at hkind

/-- Before a name in braces stands another one, if there is another one. -/
theorem kind_of_previous {previous : ImportSpecifier}
    (h : AreOthers (earlier ++ [previous, s]) ∨ ∃ first others,
      earlier ++ [previous, s] = first :: others ∧ first.kind = .default ∧ AreOthers others)
    (hothers : (earlier ++ [previous, s]).countP (·.kind == .named) ≠ 1) (hkind : s.kind = .named) :
    previous.kind = .named := by
  rcases h with (hnamed | ⟨m, hm, -⟩) | ⟨first, others, heq, hfirst, hrest⟩
  · exact hnamed previous (by simp)
  · simpa using congrArg List.length hm
  · cases earlier with
    | nil =>
      obtain ⟨rfl, -⟩ := List.cons.inj heq
      simp [hkind, hfirst] at hothers
    | cons first' earlier =>
      obtain ⟨-, rfl⟩ := List.cons.inj heq
      rcases hrest with hnamed | ⟨m, hm, -⟩
      · exact hnamed previous (by simp)
      · simpa using congrArg List.length hm

/-- Whichever of several names is taken out, no part of the others goes. -/
theorem takesOut_specifierRange
    (h : ImportNames src span.start span.stop (earlier ++ s :: later))
    (hseveral : 1 < (earlier ++ s :: later).length) :
    TakesOut src span earlier s later
      (specifierRange src (earlier ++ s :: later) earlier.length s) := by
  cases hkind : s.kind with
  | default =>
    obtain ⟨rfl, next, rest, rfl⟩ := default_cases h.kinds hseveral hkind
    obtain ⟨hlt, hle, hboundary⟩ := sizeThrough_spec (h.comma s next rest rfl hkind)
    simpa [specifierRange, hkind] using takesOut_default h.ordered hlt hle hboundary
  | all => exact takesOut_between h.ordered hseveral (.inl hkind)
  | named =>
    by_cases honly : (earlier ++ s :: later).countP (·.kind == .named) = 1
    · obtain ⟨⟨first, rfl⟩, rfl⟩ := braced_cases h.kinds hseveral hkind honly
      obtain ⟨hlt, hle, hboundary⟩ := sizeThrough_spec (h.brace s (by simp) hkind)
      rw [List.singleton_append] at honly ⊢
      rw [List.length_singleton, specifierRange_braced hkind honly]
      exact takesOut_braced h.ordered hlt hle hboundary
    · exact takesOut_between h.ordered hseveral (.inr ⟨hkind, honly⟩)

end

/-! ### A whole declaration

With the declaration go the line break behind it and a blank line. Both are blanks, so that the next
token stays. -/

/-- A line break, or nothing. -/
def IsLineBreak (cs : List Char) : Prop :=
  cs = [] ∨ cs = ['\n'] ∨ cs = ['\r', '\n']

/-- A line that holds spaces and tabs only, with its line break. -/
def IsBlankLine (cs : List Char) : Prop :=
  ∃ blanks lineBreak, cs = blanks ++ lineBreak ∧ (∀ c ∈ blanks, Text.isSpaceOrTab c = true) ∧
    IsLineBreak lineBreak ∧ lineBreak ≠ []

/-- A line break is blank. -/
theorem IsLineBreak.isGapChar {cs : List Char} (h : IsLineBreak cs) :
    ∀ c ∈ cs, Script.isGapChar c = true := by
  have hends : Script.isGapChar '\r' = true ∧ Script.isGapChar '\n' = true := by decide
  rcases h with rfl | rfl | rfl <;> simp [hends]

/-- A blank line is blank. -/
theorem IsBlankLine.isGapChar {cs : List Char} (h : IsBlankLine cs) :
    ∀ c ∈ cs, Script.isGapChar c = true := by
  obtain ⟨blanks, lineBreak, rfl, hblanks, hlineBreak, -⟩ := h
  intro c hc
  rcases List.mem_append.mp hc with hc | hc
  · have htab : Script.isGapChar ' ' = true ∧ Script.isGapChar '\t' = true := by decide
    have hblank := hblanks c hc
    simp only [Text.isSpaceOrTab, Bool.or_eq_true, beq_iff_eq] at hblank
    rcases hblank with rfl | rfl
    · exact htab.1
    · exact htab.2
  · exact hlineBreak.isGapChar c hc

end Import

/-! ### The first import of a name

The search for a name goes through the statements, and in each through its names. The name and its
declaration are put down with all that stands around them. -/

/-- The names that a statement imports. -/
def Script.Node.importSpecifiers : Node → List ImportSpecifier
  | .importDeclaration _ specifiers _ => specifiers
  | _ => []

/-- The statement is a declaration that imports the name. -/
def Script.Node.Imports (n : Node) (name : String) : Prop :=
  ∃ s ∈ n.importSpecifiers, s.localName = name

namespace Import

/-- The first import of a name: its declaration among the statements of a script, and the name among
those of the declaration. -/
structure Occurrence (program : Program) (name : String) where
  front : List Node
  span : Span
  earlier : List ImportSpecifier
  specifier : ImportSpecifier
  later : List ImportSpecifier
  parts : List Node
  behind : List Node
  statements_eq : program.statements =
    front ++ .importDeclaration span (earlier ++ specifier :: later) parts :: behind
  localName_eq : specifier.localName = name
  earlier_ne : ∀ s ∈ earlier, s.localName ≠ name
  front_free : ∀ n ∈ front, ¬ n.Imports name

/-- The first name that passes a test, between those before it and those behind it. -/
theorem exists_split_of_findIdx? {α : Type} {p : α → Bool} {as : List α} {i : Nat}
    (h : as.findIdx? p = some i) :
    ∃ earlier a later, as = earlier ++ a :: later ∧ p a = true ∧ (∀ b ∈ earlier, p b = false) ∧
      i = earlier.length := by
  obtain ⟨hlt, ha, hearlier⟩ := List.findIdx?_eq_some_iff_getElem.mp h
  refine ⟨as.take i, as[i], as.drop (i + 1), ?_, ha, fun b hb => ?_, ?_⟩
  · rw [List.getElem_cons_drop, List.take_append_drop]
  · obtain ⟨j, hj, rfl⟩ := List.mem_take_iff_getElem.mp hb
    simpa using hearlier j (by omega)
  · rw [List.length_take, Nat.min_eq_left (Nat.le_of_lt hlt)]

/-- The search for an import passes over the statements that do not import the name. -/
theorem not_imports_iff {n : Node} {name : String} :
    ¬ n.Imports name ↔ n.importSpecifiers.findIdx? (·.localName == name) = none := by
  simp [Node.Imports, List.findIdx?_eq_none_iff]

/-- The import of a name that is found is the first one. -/
theorem exists_occurrence_of_find? {program : Program} {name : String} {span : Span}
    {specifiers : List ImportSpecifier} {index : Nat}
    (h : find? program name = some (span, specifiers, index)) :
    ∃ o : Occurrence program name, o.span = span ∧
      specifiers = o.earlier ++ o.specifier :: o.later ∧ index = o.earlier.length := by
  obtain ⟨front, n, behind, hstatements, hn, hfront⟩ := List.findSome?_eq_some_iff.mp h
  cases n
  case importDeclaration span' specifiers' parts =>
    obtain ⟨index', hindex, heq⟩ := Option.map_eq_some_iff.mp hn
    cases heq
    obtain ⟨earlier, s, later, rfl, hs, hearlier, rfl⟩ := exists_split_of_findIdx? hindex
    refine ⟨⟨front, span, earlier, s, later, parts, behind, hstatements, beq_iff_eq.mp hs,
      fun m hm => by simpa using hearlier m hm, fun m hm => not_imports_iff.mpr ?_⟩, rfl, rfl, rfl⟩
    have hm := hfront m hm
    cases m
    case importDeclaration => simpa [Node.importSpecifiers] using hm
    all_goals rfl
  all_goals cases hn

/-- The search finds nothing if no statement imports the name. -/
theorem find?_eq_none_iff {program : Program} {name : String} :
    find? program name = none ↔ ∀ n ∈ program.statements, ¬ n.Imports name := by
  rw [find?, List.findSome?_eq_none_iff]
  refine forall_congr' fun n => imp_congr_right fun _ => ?_
  rw [not_imports_iff]
  cases n
  case importDeclaration => simp [Node.importSpecifiers]
  all_goals exact iff_of_true rfl rfl

/-- The search finds the first import of the name. -/
theorem Occurrence.find?_eq {program : Program} {name : String} (o : Occurrence program name) :
    find? program name = some (o.span, o.earlier ++ o.specifier :: o.later, o.earlier.length) := by
  have hindex : (o.earlier ++ o.specifier :: o.later).findIdx? (·.localName == name) =
      some o.earlier.length := by
    rw [List.findIdx?_append, List.findIdx?_eq_none_iff.mpr (by simpa using o.earlier_ne)]
    simp [List.findIdx?_cons, o.localName_eq]
  have hfront : find? { program with statements := o.front } name = none :=
    find?_eq_none_iff.mpr o.front_free
  unfold find? at hfront ⊢
  rw [o.statements_eq, List.findSome?_append, hfront]
  simp [hindex]

end Import

/-- No byte lies in both stretches. -/
def Span.Apart (s t : Span) : Prop :=
  s.stop ≤ t.start ∨ t.stop ≤ s.start

namespace Import

variable {program : Program} {name : String}

namespace Occurrence

variable {dialect : Dialect} {source : String} (o : Occurrence program name)

/-- The declaration that imports the name. -/
def declaration : Node :=
  .importDeclaration o.span (o.earlier ++ o.specifier :: o.later) o.parts

/-- The declaration is a statement of the script. -/
theorem declaration_mem : o.declaration ∈ program.statements := by
  simp [o.statements_eq, declaration]

section

variable (hprogram : Program.parse? dialect source = some program)

include hprogram

/-- Its names stand in it in order. -/
theorem importNames : ImportNames source.toList o.span.start o.span.stop
    (o.earlier ++ o.specifier :: o.later) :=
  Script.Grammar.names_of_isImport (Program.holds_of_parse? hprogram o.declaration_mem)

end

end Occurrence

/-- A stretch of a text has a front before it and a rest behind it. -/
theorem exists_pieces {src : List Char} {range : Span} (hle : range.start ≤ range.stop)
    (hstart : IsBoundary src range.start) (hstop : IsBoundary src range.stop) :
    ∃ front piece behind, src = front ++ (piece ++ behind) ∧
      range = ⟨byteSize front, byteSize front + byteSize piece⟩ ∧
      between src 0 range.start = front ∧ between src range.stop (byteSize src) = behind := by
  obtain ⟨start, stop⟩ := range
  obtain ⟨front, cs, rfl, rfl⟩ := hstart
  obtain ⟨through, behind, hthrough, rfl⟩ := hstop
  obtain ⟨piece, rfl, rfl⟩ := Text.append_eq_append_of_byteSize_le hthrough hle
  have hhead := Text.between_middle [] front (piece ++ behind)
  have htail := Text.between_middle (front ++ piece) behind []
  simp only [List.append_assoc, List.nil_append, List.append_nil, Text.byteSize_nil, Nat.zero_add,
    byteSize_append, Nat.add_assoc] at hhead htail ⊢
  exact ⟨front, piece, behind, rfl, rfl, hhead, htail⟩

/-- A stretch that is removed from a text leaves what stands before and behind it. -/
theorem render?_remove {source : String} {range : Span} (hle : range.start ≤ range.stop)
    (hstart : IsBoundary source.toList range.start) (hstop : IsBoundary source.toList range.stop) :
    (Draft.remove { source } range).render? = some (String.ofList
      (between source.toList 0 range.start ++
        between source.toList range.stop (byteSize source.toList))) := by
  obtain ⟨front, piece, behind, hsource, hrange, hhead, htail⟩ := exists_pieces hle hstart hstop
  have hsplit : source.toList = [] ++ front ++ piece ++ behind := by simp [hsource]
  rw [← byteSize_append] at hrange
  have hrender := Draft.render?_of_split (d := Draft.remove { source } range) hsplit
    (show _ = [].map _ from rfl) (by rw [hrange]; rfl)
  rw [hrender, hhead, htail]
  simp

/-- A default and one name in braces, with a comment that holds a comma before the one between
them. -/
def bracedName : String :=
  "import a /* , */, \x7b b as c \x7d from 'x'\n\nimport d from 'y'\nd(a)\n"

end Import

end VueSetup
