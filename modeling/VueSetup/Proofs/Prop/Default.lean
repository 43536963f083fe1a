import VueSetup.Declaration
import VueSetup.Proofs.Component
import VueSetup.Proofs.Prop.Table
import VueSetup.Proofs.Script.Grammar.Alias
import VueSetup.Proofs.Script.Values

/-!
# VueSetup.Proofs.Prop.Default

Whether the text of a default stands for an expression (`PropTable.ofComponent_default`).

The text is that of the value behind the key `default`, which is found by going through the options
of the component, the members of `props` and those of the prop. Each of these objects is read as an
expression, so that what is known of their values holds (`Node.Holds`): a value behind a colon is an
expression up to a comma or to the end of the object, and a method starts at its parameters. A text
that goes on with a block behind `()` is no expression, because the parser decides for a function by
an arrow and then misses the arrow.

That a text is an expression is said of the text alone (`ReadsTo`): the parser starts in front of
it, knows of nothing before it, and stops where it ends. Some text has to stand behind it, since the
parser looks on from there: `a < b` is a comparison before `, c }` and the start of a call before
`, c > (d)`. For the value of a property that is a comma or a closing bracket.
-/

namespace VueSetup

open Script Parse
open Text (IsBoundary between byteSize)

/-- The rule for expressions without commas starts where the text does, reads all of it and stops
there, at the token of `c'`. Nothing but blanks and comments stands before the text, and `rest`
behind it. -/
def ReadsTo (dialect : Dialect) (text rest : List Char) (c' : Cursor) : Prop :=
  ∃ level bound pos gap c node, c = Cursor.scanAt bound pos (gap ++ (text ++ rest)) ∧
    (gap ++ (text ++ rest)).length < bound ∧ c.here = text ++ rest ∧
    (Grammar.upTo level).assignment { dialect } c = some (node, c') ∧
    c'.lastStop = c.token.start + byteSize text

/-- The text is an expression without commas, with some text behind it. -/
def IsExpression (dialect : Dialect) (text : String) : Prop :=
  ∃ rest c', ReadsTo dialect text.toList rest c'

/-- The text is an expression that can stand behind the colon of a property: there the parser stops
at the comma behind the property or at the end of the object. -/
def IsPropertyValue (dialect : Dialect) (text : String) : Prop :=
  ∃ rest c', ReadsTo dialect text.toList rest c' ∧
    (c'.token.isPunct .comma = true ∨ c'.token.isPunct .rcurly = true)

variable {dialect : Dialect}

/-- What can stand behind the colon of a property is an expression. -/
theorem IsPropertyValue.isExpression {text : String} (h : IsPropertyValue dialect text) :
    IsExpression dialect text := by
  obtain ⟨rest, c', h, -⟩ := h
  exact ⟨rest, c', h⟩

/-! ### Texts that are none

In front of `()` and a block the parser decides for the parameters of a function by an arrow, as
nothing else can start so. There is no arrow, and so nothing is read. -/

namespace Script

variable {src : List Char} {c : Cursor}

/-- Where a text goes on with blanks and a single piece of punctuation, the next cursor is on
that. -/
theorem Cursor.next_punct {gap rest : List Char} {d : Char} {p : Punct}
    (hbehind : c.behind = gap ++ d :: rest) (hgap : gap.all isGapChar = true)
    (hd : isGapChar d = false ∧ d ≠ '/')
    (hscan : scanKind c.bound (d :: rest) = ⟨.punct p, byteSize [d], rest⟩)
    (hbound : gap.length ≤ c.bound) :
    c.next.token.kind = .punct p ∧ c.next.behind = rest := by
  have hblanks := skipBlanks_gap (List.all_eq_true.mp hgap) (startsSolid_cons hd rest) hbound 0
    false
  simp [Cursor.next, Cursor.scanAt, hbehind, hblanks, hscan]

/-- The tokens of a text that starts with `()` and a block. -/
structure Cursor.OnMethod (c : Cursor) : Prop where
  opens : c.token.kind = .punct .lparen
  closes : c.next.token.kind = .punct .rparen
  block : c.next.next.token.kind = .punct .lcurly

/-- The tokens of the text are met one after the other. -/
theorem Cursor.onMethod_of_here {bound pos : Nat} {cs gap gap' rest : List Char}
    (hc : c = scanAt bound pos cs)
    (hhere : c.here = '(' :: (gap ++ ')' :: (gap' ++ '\x7b' :: rest)))
    (hgap : gap.all isGapChar = true) (hgap' : gap'.all isGapChar = true)
    (hbound : c.here.length < bound) : c.OnMethod := by
  subst hc
  have hscan : scanKind bound (scanAt bound pos cs).here =
      ⟨.punct .lparen, 1, gap ++ ')' :: (gap' ++ '\x7b' :: rest)⟩ := by
    rw [hhere]
    rfl
  have hopen : (scanAt bound pos cs).token.kind = .punct .lparen := congrArg Scanned.value hscan
  have hbehind : (scanAt bound pos cs).behind = gap ++ ')' :: (gap' ++ '\x7b' :: rest) :=
    congrArg Scanned.rest hscan
  rw [hhere] at hbound
  simp only [List.length_cons, List.length_append] at hbound
  have hfits : gap.length ≤ bound ∧ gap'.length ≤ bound := by omega
  obtain ⟨hclose, hbehind⟩ := Cursor.next_punct hbehind hgap (by decide) rfl hfits.1
  obtain ⟨hblock, -⟩ := Cursor.next_punct hbehind hgap' (by decide) rfl hfits.2
  exact ⟨hopen, hclose, hblock⟩

namespace Grammar

variable {g : Grammar} {ctx : Context}

/-- The parser decides for a function by an arrow. -/
theorem run_guessArrow_method (h : c.OnMethod) : guessArrow ctx c = some (.yes, c) := by
  simp [guessArrow, guessAfterParen, isPunct_of_punct h.opens, isPunct_of_punct h.closes,
    isPunct_of_punct h.block, isWord_of_punct h.opens]

/-- No parameter is read before the closing parenthesis. -/
theorem ensures_parametersFuel_nil (hclose : c.token.kind = .punct .rparen) (n : Nat) :
    (g.parametersFuel n).Ensures ctx c fun _ c' => c' = c := by
  cases n with
  | zero => exact ensures_reject
  | succ n => simp [parametersFuel, isPunct_of_punct hclose]

/-- There is no arrow. -/
theorem refuses_arrowHead_method (h : c.OnMethod) :
    g.arrowHead.Ensures ctx c fun _ _ => False := by
  simp [arrowHead, typeParameters, parameters, receiverParameter, isPunct_of_punct h.opens,
    isWord_of_punct h.opens, isWord_of_punct h.closes]
  refine (ensures_parametersFuel_nil h.closes _).imp fun params c₁ heq => ?_
  subst heq
  simp [returnType, isPunct_of_punct h.closes, isPunct_of_punct h.block]

/-- The rule for expressions does not read the text. -/
theorem refuses_assignmentRule_method (h : c.OnMethod) :
    g.assignmentRule.Ensures ctx c fun _ _ => False := by
  simp [assignmentRule, parenthesizedArrow?, isWord_of_punct h.opens]
  rw [ensures_of_eq (run_guessArrow_method h)]
  simp
  exact (refuses_arrowHead_method h).imp fun _ _ hnone => hnone.elim

end Grammar

end Script

/-- A text that goes on with a block behind `()` is no expression. -/
theorem not_isExpression_method {text : String} {gap gap' rest : List Char}
    (htext : text.toList = '(' :: (gap ++ ')' :: (gap' ++ '\x7b' :: rest)))
    (hgap : gap.all isGapChar = true) (hgap' : gap'.all isGapChar = true) :
    ¬ IsExpression dialect text := by
  intro h
  obtain ⟨behind, c', level, bound, pos, before, c, node, hc, hbound, hhere, hrun, -⟩ := h
  have hlength : c.here.length < bound := by
    rw [List.length_append] at hbound
    rw [hhere]
    omega
  rw [htext] at hhere
  have hmethod : c.OnMethod := Cursor.onMethod_of_here hc (by simpa using hhere) hgap hgap' hlength
  cases level with
  | zero => cases hrun
  | succ level => exact Grammar.refuses_assignmentRule_method hmethod node c' hrun

/-! ### Values that are read

The other way round, what the parser has read as the value of a property is read from its text in
the same way, since nothing before the text has a part in it. -/

namespace Script.Node

variable {src : List Char}

/-- A node that is read holds what its kind asks for. -/
theorem IsRead.holds {n : Node} {close : Punct} (h : n.IsRead dialect src close) :
    n.Holds dialect src := by
  obtain ⟨level, c, c', hc, hrun, -⟩ := h
  exact ((Grammar.yields_upTo level).assignment c hc.on n c' hrun).holds

/-- So does the object that a value is. -/
theorem IsValue.holds_of_object {span : Span} {members : List Node}
    (h : (object span members).IsValue dialect src) : (object span members).Holds dialect src := by
  cases h with
  | read h => exact h.holds

/-- The value of a member of an object is read. -/
theorem isValue_of_first {span : Span} {members : List Node} {key : String} {value : Node}
    (h : (object span members).Holds dialect src) (hfirst : First members key value) :
    value.IsValue dialect src := by
  obtain ⟨before, m, behind, rfl, hkey, -⟩ := hfirst
  have hm : m.HasValue dialect src := h m (by simp)
  obtain ⟨_, _, rfl | rfl⟩ := hkey
  · exact hm
  · exact hm

end Script.Node

namespace Component

/-- An object among the arguments of a call inside of parentheses and type annotations is read as an
expression. -/
theorem holds_of_unwrapCall? {src : List Char} {n callee : Node} {arguments : List Node}
    (h : n.Holds dialect src) (hcall : unwrapCall? n = some (callee, arguments)) {span : Span}
    {members : List Node} (hobject : .object span members ∈ arguments) :
    (Node.object span members).Holds dialect src := by
  fun_induction unwrapCall? n with
  | case1 =>
    cases hcall
    refine Node.IsRead.holds ((h _ hobject).resolve_left fun hspread => ?_)
    obtain ⟨_, _, heq⟩ := hspread
    cases heq
  | case2 _ _ _ ih => exact ih h hcall
  | case3 _ _ _ ih => exact ih h hcall
  | case4 _ _ ih => exact ih h hcall
  | case5 => cases hcall

/-- The options of a component are those of an object that is read as an expression. -/
theorem holds_of_locate? {source : String} {program : Program} {c : Component}
    (hprogram : Program.parse? dialect source = some program) (hc : locate? program = some c) :
    ∃ span, (Node.object span c.members).Holds dialect source.toList := by
  obtain ⟨n, hn, hc⟩ := exists_of_locate? hc
  have hholds := Program.holds_of_parse? hprogram hn
  cases n
  case exportDefault wrapper value =>
    simp only [ofStatement?] at hc
    split at hc
    · next span members others hcall =>
      cases hc
      have hvalue : value.Holds dialect source.toList := hholds
      exact ⟨span, holds_of_unwrapCall? hvalue hcall List.mem_cons_self⟩
    · cases hc
  all_goals cases hc

end Component

namespace PropTable

/-! ### Defaults

The default of a prop is a text of the script. Which kind of value it is decides whether the text
covers all that was read for it. -/

/-- A function that is written out starts with a word and has a body. A method starts at its
parameters. -/
def isWrittenOut (src : List Char) : Node → Bool
  | .function span _ _ _ body => !body.isEmpty && !opensParams (Text.suffixFrom src span.start)
  | _ => true

variable {src : List Char}

/-- What is read from a place of the script on is read from the text on that stands there. -/
theorem readsTo_of_isScan {level : Nat} {c c' : Cursor} {node : Node} (hc : c.IsScan src)
    (hrun : (Grammar.upTo level).assignment { dialect } c = some (node, c')) :
    ∃ rest, ReadsTo dialect (between src c.token.start c'.lastStop) rest c' := by
  have hread := (((Grammar.sound_upTo level).assignment _ c hc.on) node c' hrun).pass (by simp)
  have hstart := hc.on.start_isBoundary
  have hslice := Text.slice?_eq_between hstart hread.on.last_isBoundary hread.passed
  obtain ⟨front, rest, hsrc, hfront, hstop⟩ := Text.slice?_eq_some_iff.mp hslice
  -- the text starts at the token, behind what the scanner passed over
  have hhere : c.here = between src c.token.start c'.lastStop ++ rest := by
    obtain ⟨front', hsrc', hfront'⟩ := hc.on.here
    rw [List.append_assoc] at hsrc
    exact (Text.append_inj_of_byteSize_eq (hsrc'.symm.trans hsrc) (hfront'.trans hfront.symm)).2
  obtain ⟨before, cs, htext, heq⟩ := id hc
  obtain ⟨gap, hgap, -⟩ := takes_skipBlanks (src.length + 1) false cs
  have hcs : cs = gap ++ (between src c.token.start c'.lastStop ++ rest) := by
    rw [← hhere, heq]
    exact hgap
  refine ⟨rest, level, src.length + 1, byteSize before, gap, c, node, ?_, ?_, hhere, hrun,
    hstop.symm⟩
  · rw [← hcs]
    exact heq
  · rw [← hcs, htext, List.length_append]
    omega

/-- A value that is written out and gives a default covers what was read for it. -/
theorem isPropertyValue_of_isValue {value : Node} {d : PropDefault}
    (h : value.IsValue dialect src) (hd : defaultOf? src value = some d)
    (hout : isWrittenOut src value = true) : IsPropertyValue dialect d.text := by
  have htext := text_of_defaultOf? hd
  cases h with
  | read h =>
    obtain ⟨level, c, c', hc, hrun, hspan, hclose⟩ := h
    have hloose : value.isLoose = false := by
      cases value
      case function span params rest parts body =>
        cases body with
        | nil => cases hout
        | cons => rfl
      case form => cases hd
      all_goals rfl
    obtain ⟨rest, hread⟩ := readsTo_of_isScan hc hrun
    refine ⟨rest, c', ?_, hclose⟩
    rw [htext, textOf, hspan hloose, String.toList_ofList]
    exact hread
  | method hopens => simp [isWrittenOut, hopens] at hout
  | name => cases hd

/-- The value under `default` in the object of a prop, where of members with one key the first
counts. -/
def DefaultsTo (c : Component) (key : String) (value : Node) : Prop :=
  ∃ span members own fields, Node.First c.members "props" (.object span members) ∧
    Node.First members key (.object own fields) ∧ Node.First fields "default" value

/-- The same value by look-up. -/
def defaultValue? (c : Component) (key : String) : Option Node :=
  match (c.property? "props").map Property.value with
  | some (.object _ members) =>
    match (findProperty? members key).map Property.value with
    | some (.object _ fields) => (findProperty? fields "default").map Property.value
    | _ => none
  | _ => none

/-- The look-up finds the value. -/
theorem DefaultsTo.defaultValue?_eq {c : Component} {key : String} {value : Node}
    (h : DefaultsTo c key value) : defaultValue? c key = some value := by
  obtain ⟨span, members, own, fields, hprops, hprop, hvalue⟩ := h
  simp only [defaultValue?, Component.property?, Node.findProperty?_iff_first.mpr hprops,
    Node.findProperty?_iff_first.mpr hprop, Node.findProperty?_iff_first.mpr hvalue]

/-- The default of a record is that of the value under `default` in the value of the prop. -/
theorem exists_default_of_record? {key : String} {value : Node} {r : PropRecord} {d : PropDefault}
    (h : record? src key value = some r) (hd : r.default = some d) :
    ∃ span fields own, value = .object span fields ∧ Node.First fields "default" own ∧
      defaultOf? src own = some d := by
  unfold record? at h
  split at h
  · cases h
    cases hd
  · cases h
    cases hd
  · next span fields =>
    obtain ⟨type, -, h⟩ := Option.bind_eq_some_iff.mp h
    cases h
    obtain ⟨p, hp, hd⟩ := Option.bind_eq_some_iff.mp hd
    exact ⟨span, fields, p.value, rfl, Node.findProperty?_iff_first.mp (by rw [hp]; rfl), hd⟩
  · cases h

/-- **Which defaults are expressions.** The default of a prop is the text of the value under
`default` in the object of the prop. If that value is a literal, a function by an arrow, or a
function that starts with its word and has a body, then the text by itself is an expression of the
language of the script, one that can stand behind the colon of a property: the parser that starts at
it reads all of it and stops at a comma or the end of an object. If the text starts with `()` and a
block, as it does for methods and accessors without types, then it is no expression, whatever stands
behind it. -/
theorem ofComponent_default {source : String} {program : Program} {c : Component} {r : PropRecord}
    {d : PropDefault} (hprogram : Program.parse? dialect source = some program)
    (hc : Component.locate? program = some c) (hr : r ∈ ofComponent source.toList c)
    (hd : r.default = some d) :
    ∃ value, DefaultsTo c r.key value ∧ defaultOf? source.toList value = some d ∧
      d.text = textOf source.toList value ∧
      (isWrittenOut source.toList value = true → IsPropertyValue dialect d.text) ∧
      ∀ gap gap' rest, d.text.toList = '(' :: (gap ++ ')' :: (gap' ++ '\x7b' :: rest)) →
        gap.all isGapChar = true → gap'.all isGapChar = true → ¬ IsExpression dialect d.text := by
  by_cases hprops : ∃ span members, Node.First c.members "props" (.object span members)
  · obtain ⟨span, members, hprops⟩ := hprops
    rw [ofComponent_of_first hprops] at hr
    obtain ⟨prop, hprop, hrecord⟩ := mem_ofMembers_iff.mp hr
    obtain ⟨own, fields, value, rfl, hvalue, hdefault⟩ := exists_default_of_record? hrecord hd
    obtain ⟨_, hoptions⟩ := Component.holds_of_locate? hprogram hc
    -- each object on the way is read as an expression, and so its values are as they are written
    have hobject := (Node.isValue_of_first hoptions hprops).holds_of_object
    have hown := (Node.isValue_of_first hobject hprop).holds_of_object
    have hread := Node.isValue_of_first hown hvalue
    refine ⟨value, ⟨span, members, own, fields, hprops, hprop, hvalue⟩, hdefault,
      text_of_defaultOf? hdefault, isPropertyValue_of_isValue hread hdefault, ?_⟩
    exact fun gap gap' rest htext hgap hgap' => not_isExpression_method htext hgap hgap'
  · rw [ofComponent_of_not_first fun span members h => hprops ⟨span, members, h⟩] at hr
    cases hr

/-- A prop with a function by an arrow as its default, and one with a method. -/
def factories : String :=
  "export default defineComponent(\x7b props: \x7b\n" ++
  "  a: \x7b type: Array, default: () => [] \x7d,\n" ++
  "  b: \x7b type: Array, default() \x7b return [] \x7d \x7d\n\x7d \x7d)\n"

theorem ofComponent_default_factories : ∃ program c, ∃ r r' : PropRecord,
    Program.parse? ⟨false, false⟩ factories = some program ∧
    Component.locate? program = some c ∧ r ∈ ofComponent factories.toList c ∧
    r.default = some (.factory "() => []") ∧ IsPropertyValue ⟨false, false⟩ "() => []" ∧
    r' ∈ ofComponent factories.toList c ∧
    r'.default = some (.factory "() \x7b return [] \x7d") ∧
    ¬ IsExpression ⟨false, false⟩ "() \x7b return [] \x7d" := by
  have hcheck : (do
      let program ← Program.parse? ⟨false, false⟩ factories
      let c ← Component.locate? program
      let r : PropRecord ← (ofComponent factories.toList c)[0]?
      let r' : PropRecord ← (ofComponent factories.toList c)[1]?
      let value ← defaultValue? c r.key
      if r.default = some (PropDefault.factory "() => []") ∧
          isWrittenOut factories.toList value = true ∧
          r'.default = some (PropDefault.factory "() \x7b return [] \x7d") then some () else
        none).isSome = true := by
    decide +kernel
  obtain ⟨_, hcheck⟩ := Option.isSome_iff_exists.mp hcheck
  obtain ⟨program, hprogram, hcheck⟩ := Option.bind_eq_some_iff.mp hcheck
  obtain ⟨c, hc, hcheck⟩ := Option.bind_eq_some_iff.mp hcheck
  obtain ⟨r, hr, hcheck⟩ := Option.bind_eq_some_iff.mp hcheck
  obtain ⟨r', hr', hcheck⟩ := Option.bind_eq_some_iff.mp hcheck
  obtain ⟨value, hvalue, hcheck⟩ := Option.bind_eq_some_iff.mp hcheck
  split at hcheck
  · next hin =>
    obtain ⟨hd, hout, hd'⟩ := hin
    replace hr := List.mem_of_getElem? hr
    replace hr' := List.mem_of_getElem? hr'
    obtain ⟨own, hown, -, -, hread, -⟩ := ofComponent_default hprogram hc hr hd
    obtain ⟨-, -, -, -, -, hnone⟩ := ofComponent_default hprogram hc hr' hd'
    obtain rfl : value = own := Option.some.inj (hvalue.symm.trans hown.defaultValue?_eq)
    exact ⟨program, c, r, r', hprogram, hc, hr, hd, hread hout, hr', hd',
      hnone [] [' '] " return [] \x7d".toList rfl rfl rfl⟩
  · cases hcheck

/-- A prop whose default is written as a method. -/
def methodDefault : String :=
  "export default defineComponent(\x7b props: \x7b a: \x7b type: Array, " ++
  "default() \x7b return [] \x7d \x7d \x7d \x7d)\n"

/-- The default of a method is recorded, and written down, without a word before its parameters. -/
theorem default_method_not_isExpression : ∃ program c, ∃ r : PropRecord,
    Program.parse? ⟨false, false⟩ methodDefault = some program ∧
    Component.locate? program = some c ∧ r ∈ ofComponent methodDefault.toList c ∧
    r.default = some (.factory "() \x7b return [] \x7d") ∧
    Declaration.typedProps "props" (ofComponent methodDefault.toList c) true =
      "const props = withDefaults(" ++
        "defineProps<Props>(), \x7b\n  a: () \x7b return [] \x7d,\n\x7d)\n" ∧
    ¬ IsExpression ⟨false, false⟩ "() \x7b return [] \x7d" := by
  have hcheck : (do
      let program ← Program.parse? ⟨false, false⟩ methodDefault
      let c ← Component.locate? program
      let r : PropRecord ← (ofComponent methodDefault.toList c)[0]?
      if r.default = some (PropDefault.factory "() \x7b return [] \x7d") ∧
          Declaration.typedProps "props" (ofComponent methodDefault.toList c) true =
            "const props = withDefaults(" ++
              "defineProps<Props>(), \x7b\n  a: () \x7b return [] \x7d,\n\x7d)\n" then some () else
        none).isSome = true := by
    decide +kernel
  obtain ⟨_, hcheck⟩ := Option.isSome_iff_exists.mp hcheck
  obtain ⟨program, hprogram, hcheck⟩ := Option.bind_eq_some_iff.mp hcheck
  obtain ⟨c, hc, hcheck⟩ := Option.bind_eq_some_iff.mp hcheck
  obtain ⟨r, hr, hcheck⟩ := Option.bind_eq_some_iff.mp hcheck
  split at hcheck
  · next hin =>
    refine ⟨program, c, r, hprogram, hc, List.mem_of_getElem? hr, hin.1, hin.2, ?_⟩
    have htext : "() \x7b return [] \x7d".toList =
      '(' :: ([] ++ ')' :: ([' '] ++ '\x7b' :: " return [] \x7d".toList)) := rfl
    exact not_isExpression_method htext rfl rfl
  · cases hcheck

end PropTable

end VueSetup
