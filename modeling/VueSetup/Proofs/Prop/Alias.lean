import VueSetup.Declaration
import VueSetup.Proofs.Script.Grammar.Alias
import VueSetup.Prop.Table
import VueSetup.Script.Program

/-!
# VueSetup.Proofs.Prop.Alias

The type alias of a component's props, read back from its text (`TypeAlias.read?_propsType`).

The reader goes through the grammar of scripts: it takes the one statement of a script apart and
looks up the few marks that the tree leaves out (a bar, a question mark, a colon) between its nodes.
That it gives back the records is shown from the inside out: types, unions, keys, the lines of the
members, and the statement around them. At each step the cursor stands behind a front of the text
and before the rest of it, and what follows must not continue what was read (`BehindType`,
`BehindUnion`).

Keys are put into quotes where they are no names. The quotes do not help a key that holds the end of
a line (`TypeAlias.read?_propsType_brokenKey`).
-/

namespace VueSetup

open Script Text

/-! ### Reading an alias

Keys, types and members are taken from the nodes of a statement; what stands between two nodes is
looked up in the text. A text that is no alias of this form is not read. -/

/-- The alternatives that a type gives; a type that is no union is the only one. -/
def PropType.alternatives : PropType → List PropType
  | .union members => members
  | t => [t]

/-- A member of an object type: its name, whether it may be left out, and the alternatives of its
type. -/
structure TypeMember where
  name : String
  optional : Bool
  alternatives : List PropType

namespace TypeAlias

variable (source : List Char)

/-- What stands between two nodes, blanks left out. -/
def mark (left right : Node) : List Char :=
  (between source left.span.stop right.span.start).filter fun c => !isGapChar c

/-- The keyword that a text spells. -/
def keyword? (text : String) : Option TypeKeyword :=
  [.string, .number, .boolean, .anyArray, .object, .unknown].find? fun k => k.render == text

/-- A type that is no union: a name, or a keyword by its text. -/
def alternative? : Node → Option PropType
  | .typeReference _ (.reference _ name) [] => some (.reference name)
  | node => (keyword? (PropTable.textOf source node)).map .keyword

/-- Bars stand between the nodes. -/
def isJoined : List Node → Bool
  | left :: right :: nodes => mark source left right == ['|'] && isJoined (right :: nodes)
  | _ => true

/-- The alternatives of a type. -/
def alternatives? (node : Node) : Option (List PropType) :=
  match alternative? source node, node with
  | some type, _ => some [type]
  | none, .form .other _ parts =>
    if isJoined source parts then parts.mapM (alternative? source) else none
  | none, _ => none

/-- A member of an object type: a key, a colon and a type, with a question mark behind the key of a
member that may be left out. -/
def member? : Node → Option TypeMember
  | .form .other _ [key, type] => do
    let name ← key.keyName?
    let alternatives ← alternatives? source type
    match mark source key type with
    | ['?', ':'] => some ⟨name, true, alternatives⟩
    | [':'] => some ⟨name, false, alternatives⟩
    | _ => none
  | _ => none

/-- A name for an object type, with the members of the type. -/
def ofStatement? : Node → Option (String × List TypeMember)
  | .form .other _ [.binding nameSpan name [], .form .other span members] =>
    let isNamed := mark source (.binding nameSpan name []) (.form .other span members) == ['=']
    let isObject := (between source span.start span.stop).head? == some '\x7b'
    if isNamed && isObject then (members.mapM (member? source)).map (name, ·) else none
  | _ => none

/-- Read a script of one statement that names an object type. -/
def read? (dialect : Dialect) (source : String) : Option (String × List TypeMember) :=
  match Program.parse? dialect source with
  | some ⟨[], [statement]⟩ => ofStatement? source.toList statement
  | _ => none

end TypeAlias

/-! ### Types as they are written

A type is a row of alternatives with bars between them, one of them at least. -/

/-- The type is a keyword, or a name of a type of the script's own. -/
def PropType.isSingle : PropType → Bool
  | .keyword _ => true
  | .reference name => Grammar.isTypeName name
  | _ => false

/-- Types are rendered one by one. -/
theorem PropType.renderAll_eq_map (ts : List PropType) : renderAll ts = ts.map render := by
  induction ts with
  | nil => rfl
  | cons t ts ih => rw [renderAll, ih, List.map_cons]

/-- How the alternatives behind the first one are written. -/
def PropType.moreText (ts : List PropType) : List Char :=
  ts.flatMap fun t => ' ' :: '|' :: ' ' :: t.render.toList

/-- Each alternative takes some room. -/
theorem PropType.length_le_moreText (ts : List PropType) : ts.length ≤ (moreText ts).length := by
  induction ts with
  | nil => exact Nat.le_refl 0
  | cons t ts ih =>
    simp only [moreText, List.flatMap_cons, List.length_append, List.length_cons] at ih ⊢
    omega

/-- Alternatives with bars between them. -/
theorem PropType.toList_intercalate (t : PropType) (ts : List PropType) :
    (" | ".intercalate ((t :: ts).map render)).toList = t.render.toList ++ moreText ts := by
  induction ts generalizing t with
  | nil => simp [moreText]
  | cons u us ih =>
    rw [List.map_cons, String.intercalate_cons_of_ne_nil (by simp), String.toList_append,
      String.toList_append, ih]
    simp [moreText]

/-- A type is written as its alternatives with bars between them. -/
theorem PropType.render_eq {t u : PropType} {us : List PropType} (h : t.alternatives = u :: us) :
    t.render.toList = u.render.toList ++ moreText us := by
  cases t
  case union members =>
    obtain rfl : members = u :: us := h
    rw [render, renderAll_eq_map, toList_intercalate]
  all_goals
    obtain ⟨rfl, rfl⟩ := List.cons.inj h
    simp [moreText]

namespace TypeAlias

open Parse Cursor Declaration

variable {src : List Char} {bound : Nat} {g : Grammar} {ctx : Context}

/-! ### Single types

Each single type is a word, or the word `any` with a pair of brackets. The parser reads it without
looking at what precedes it. -/

/-- The text behind a type neither goes on with it nor joins anything to it but an alternative. -/
structure BehindType (bound : Nat) (rest : List Char) : Prop where
  endsName : EndsName rest
  endsType : ∀ front, (scanAt bound (byteSize front) rest).token.EndsType

/-- The node is read as the type, which stands at the given place. -/
structure IsType (src : List Char) (t : PropType) (start stop : Nat) (node : Node) : Prop where
  reads : alternative? src node = some t
  span : node.span = ⟨start, stop⟩
  settled : Program.isSettled node.nodes = true

/-- The text between two parts of a text. -/
theorem between_of_append (front text rest : List Char) (h : src = front ++ (text ++ rest))
    {start stop : Nat} (hstart : start = byteSize front) (hstop : stop = start + byteSize text) :
    between src start stop = text := by
  subst h hstop hstart
  rw [between, ← List.append_assoc, slice?_append, Option.getD_some]

/-- A keyword is known by its text. -/
theorem keyword?_render (k : TypeKeyword) : keyword? k.render = some k := by
  cases k <;> decide

/-- A type that is read from its own text alone. -/
theorem alternative?_form {span : Span} {parts : List Node} {k : TypeKeyword}
    (htext : between src span.start span.stop = k.render.toList) :
    alternative? src (.form .other span parts) = some (.keyword k) := by
  simp [alternative?, PropTable.textOf, Node.span, htext, keyword?_render]

/-- The cursor on a word behind a blank, and the one behind the word. -/
theorem scanAt_word (bound : Nat) (name : String) (front rest : List Char)
    (hname : isNameChars name.toList = true)
    (hbound : (front ++ ' ' :: (name.toList ++ rest)).length < bound) (hrest : EndsName rest) :
    (scanAt bound (byteSize front) (' ' :: (name.toList ++ rest))).token = ⟨.word name false,
        byteSize (front ++ [' ']), byteSize (front ++ ' ' :: name.toList), false⟩ ∧
      (scanAt bound (byteSize front) (' ' :: (name.toList ++ rest))).next =
        scanAt bound (byteSize (front ++ ' ' :: name.toList)) rest := by
  simp only [List.length_append, List.length_cons] at hbound
  have hcursor := scanAt_gap bound [' '] _ _ (by decide) (spells_word hname hrest (by omega))
    (by rw [List.length_singleton]; omega) front
  rw [List.append_assoc] at hcursor
  exact hcursor

/-- The cursor on punctuation, and the one behind it. -/
theorem scanAt_punct (bound : Nat) (c : Char) {p : Punct} (rest : List Char)
    (hc : isGapChar c = false ∧ c ≠ '/')
    (hscan : scanKind bound (c :: rest) = ⟨.punct p, byteSize [c], rest⟩) (front : List Char) :
    (scanAt bound (byteSize front) (c :: rest)).token =
        ⟨.punct p, byteSize front, byteSize (front ++ [c]), false⟩ ∧
      (scanAt bound (byteSize front) (c :: rest)).next =
        scanAt bound (byteSize (front ++ [c])) rest := by
  have hcursor := scanAt_gap bound [] [c] rest (by decide) ⟨startsSolid_cons hc _, hscan⟩
    (Nat.zero_le bound) front
  rw [List.append_nil] at hcursor
  exact hcursor

/-- A keyword and a pair of brackets are read as an array of anything. -/
theorem exists_run_array {front rest : List Char}
    (hsrc : src = front ++ ' ' :: (TypeKeyword.anyArray.render.toList ++ rest))
    (hbound : src.length < bound) (hrest : BehindType bound rest) (n : Nat) :
    ∃ span parts, g.operatorTypeFuel (n + 1) ctx
        (scanAt bound (byteSize front) (' ' :: (TypeKeyword.anyArray.render.toList ++ rest))) =
        some (.form .other span [.form .other parts []],
          scanAt bound (byteSize (front ++ ' ' :: TypeKeyword.anyArray.render.toList)) rest) ∧
      span = ⟨byteSize (front ++ [' ']),
        byteSize (front ++ ' ' :: TypeKeyword.anyArray.render.toList)⟩ := by
  have htext : TypeKeyword.anyArray.render.toList = "any".toList ++ ['[', ']'] := rfl
  rw [hsrc, htext] at hbound
  simp only [htext, List.append_assoc, List.cons_append, List.nil_append] at hbound ⊢
  -- each token stands directly behind the one before
  obtain ⟨htoken, hnext⟩ := scanAt_word bound "any" _ _ (by decide) hbound
    (endsName_cons (by decide) _)
  obtain ⟨hopen, hinside⟩ := scanAt_punct bound '[' (']' :: rest)
    (by decide) rfl (front ++ ' ' :: "any".toList)
  obtain ⟨hclose, hbehind⟩ := scanAt_punct bound ']' rest
    (by decide) rfl (front ++ ' ' :: "any".toList ++ ['['])
  rw [← hnext] at hopen hinside
  rw [← hinside] at hclose hbehind
  simp only [List.append_assoc, List.cons_append, List.nil_append] at hclose hbehind
  rw [Grammar.run_operatorTypeFuel_array (by rw [htoken]) (by decide) (by rw [hopen])
    (by rw [hopen]) (by rw [hclose]) (hbehind ▸ hrest.endsType _)
    (by rw [scanAt_bound]; simp at hbound; omega), htoken, hclose, hbehind]
  exact ⟨_, _, rfl, rfl⟩

/-- A keyword or a name is read as that. -/
theorem exists_run_single (ctx : Context) {t : PropType} (ht : t.isSingle = true)
    {front rest : List Char}
    (hsrc : src = front ++ ' ' :: (t.render.toList ++ rest)) (hbound : src.length < bound)
    (hrest : BehindType bound rest) (n : Nat) :
    ∃ node, g.operatorTypeFuel (n + 1) ctx
        (scanAt bound (byteSize front) (' ' :: (t.render.toList ++ rest))) =
        some (node, scanAt bound (byteSize (front ++ ' ' :: t.render.toList)) rest) ∧
      IsType src t (byteSize (front ++ [' '])) (byteSize (front ++ ' ' :: t.render.toList))
        node := by
  have htext : between src (byteSize (front ++ [' '])) (byteSize
      (front ++ ' ' :: t.render.toList)) =
      t.render.toList :=
    between_of_append (front ++ [' ']) _ rest (by simp [hsrc]) rfl
      (by simp [Nat.add_assoc])
  cases t with
  | reference name =>
    have hname : Grammar.isTypeName name = true := ht
    have hchars : isNameChars name.toList = true := by
      simp only [Grammar.isTypeName, Bool.and_eq_true] at hname
      exact hname.1
    obtain ⟨htoken, hnext⟩ := scanAt_word bound _ _ _ hchars (hsrc ▸ hbound) hrest.endsName
    simp only [PropType.render]
    rw [Grammar.run_operatorTypeFuel_reference (by rw [htoken]) hname (hnext ▸ hrest.endsType _)
      (by rw [scanAt_bound]; omega), htoken, hnext]
    exact ⟨_, rfl, rfl, rfl, rfl⟩
  | keyword k =>
    simp only [PropType.render] at hsrc htext ⊢
    by_cases harray : k = .anyArray
    · subst harray
      obtain ⟨span, inner, hrun, rfl⟩ := exists_run_array hsrc hbound hrest n
      exact ⟨_, hrun, alternative?_form htext, rfl, rfl⟩
    · -- All other keywords are words.
      have hchars : isNameChars k.render.toList = true := by
        cases k <;> first | decide | exact absurd rfl harray
      have hname : k.render ∈ Grammar.keywordTypes := by
        cases k <;> first | decide | exact absurd rfl harray
      obtain ⟨htoken, hnext⟩ := scanAt_word bound _ _ _ hchars (hsrc ▸ hbound) hrest.endsName
      rw [Grammar.run_operatorTypeFuel_keyword (by rw [htoken]) hname (hnext ▸ hrest.endsType _)
        (by rw [scanAt_bound]; omega), htoken, hnext]
      exact ⟨_, rfl, alternative?_form htext, rfl, rfl⟩
  | union => cases ht
  | verbatim => cases ht

/-! ### Unions

Behind each alternative stands a bar or the end of the line. In both cases the type before it ends
there, and the parser asks for a bar. -/

/-- A type that is no union starts with a word that opens no type of a function. -/
theorem exists_word_of_isSingle {t : PropType} (ht : t.isSingle = true) {rest : List Char}
    (hrest : EndsName rest) : ∃ name : String, ∃ more, t.render.toList ++ rest =
      name.toList ++ more ∧
      isNameChars name.toList = true ∧ EndsName more ∧ name ≠ "new" ∧ name ≠ "abstract" := by
  cases t with
  | reference name =>
    have hname : Grammar.isTypeName name = true := ht
    have hnew := Grammar.beq_of_isTypeName hname (w := "new") (by decide)
    have habstract := Grammar.beq_of_isTypeName hname (w := "abstract") (by decide)
    simp only [Grammar.isTypeName, Bool.and_eq_true] at hname
    exact ⟨name, rest, rfl, hname.1, hrest, by simpa using hnew, by simpa using habstract⟩
  | keyword k =>
    by_cases harray : k = .anyArray
    · subst harray
      exact ⟨"any", '[' :: ']' :: rest, rfl, by decide, endsName_cons (by decide) _, by decide,
        by decide⟩
    · refine ⟨k.render, rest, rfl, ?_, hrest, ?_, ?_⟩
      all_goals cases k <;> first | decide | exact absurd rfl harray
  | union => cases ht
  | verbatim => cases ht

/-- The token that a type starts with is a word. -/
theorem exists_token_of_isSingle {t : PropType} (ht : t.isSingle = true) {front rest : List Char}
    (hbound : (front ++ ' ' :: (t.render.toList ++ rest)).length < bound) (hrest : EndsName rest) :
    ∃ name stop, (scanAt bound (byteSize front) (' ' :: (t.render.toList ++ rest))).token =
      ⟨.word name false, byteSize (front ++ [' ']), stop, false⟩ ∧ name ≠ "new" ∧
        name ≠ "abstract" := by
  obtain ⟨name, more, htext, hchars, hmore, hnew, habstract⟩ := exists_word_of_isSingle ht hrest
  rw [htext] at hbound ⊢
  exact ⟨name, _, (scanAt_word bound _ _ _ hchars hbound hmore).1, hnew, habstract⟩

/-- The rule for what bars join. -/
def alternativeRule (g : Grammar) : Parse Node :=
  Grammar.joinedTypes .amp do g.operatorTypeFuel (← Parse.bound)

/-- An alternative is read up to the bar or the line behind it. -/
theorem exists_run_alternativeRule (ctx : Context) {t : PropType} (ht : t.isSingle = true)
    (front : List Char) {rest : List Char}
    (hsrc : src = front ++ ' ' :: (t.render.toList ++ rest)) (hbound : src.length < bound)
    (hrest : BehindType bound rest) :
    ∃ node, alternativeRule g ctx
        (scanAt bound (byteSize front) (' ' :: (t.render.toList ++ rest))) =
        some (node, scanAt bound (byteSize (front ++ ' ' :: t.render.toList)) rest) ∧
      IsType src t (byteSize (front ++ [' '])) (byteSize (front ++ ' ' :: t.render.toList))
        node := by
  obtain ⟨name, stop, htoken, -⟩ := exists_token_of_isSingle ht (hsrc ▸ hbound) hrest.endsName
  obtain ⟨n, hn⟩ : ∃ n, bound = n + 1 := ⟨bound - 1, by omega⟩
  obtain ⟨node, hrun, hnode⟩ := exists_run_single (g := g) ctx ht hsrc hbound hrest n
  refine ⟨node, Grammar.run_joinedTypes_single (Grammar.isPunct_of_word (by rw [htoken]) _) ?_
    ((hrest.endsType _).isPunct_eq_false (by decide) (by decide)) (by rw [scanAt_bound]; omega),
      hnode⟩
  rw [← hrun, run_bind, run_bound, Option.bind_some, scanAt_bound, hn]

/-- Behind the last alternative a new line starts. -/
structure BehindUnion (bound : Nat) (rest : List Char) : Prop extends BehindType bound rest where
  line : ∀ front, (scanAt bound (byteSize front) rest).token.afterLineEnd = true
  noBar : ∀ front, (scanAt bound (byteSize front) rest).token.isPunct .pipe = false

/-- The cursor on a bar, and the one behind it. -/
theorem scanAt_bar {bound : Nat} (hbound : 0 < bound) (front rest : List Char) :
    (scanAt bound (byteSize front) (' ' :: '|' :: ' ' :: rest)).token =
        ⟨.punct .pipe, byteSize (front ++ [' ']), byteSize (front ++ [' ', '|']), false⟩ ∧
      (scanAt bound (byteSize front) (' ' :: '|' :: ' ' :: rest)).next =
        scanAt bound (byteSize (front ++ [' ', '|'])) (' ' :: rest) := by
  have hcursor := scanAt_gap bound [' '] ['|'] (' ' :: rest) (by decide)
    ⟨startsSolid_cons (by decide) _, rfl⟩ hbound front
  rw [List.append_assoc] at hcursor
  exact hcursor

/-- A type ends before a bar, as it ends before the text behind the last one. -/
theorem behindType_moreText {rest : List Char} (hrest : BehindUnion bound rest) (hbound : 0 < bound)
    (ts : List PropType) : BehindType bound (PropType.moreText ts ++ rest) := by
  cases ts with
  | nil => exact hrest.toBehindType
  | cons t ts =>
    refine ⟨endsName_cons (by decide) _, fun front => ?_⟩
    have hbar := (scanAt_bar hbound front (t.render.toList ++ (PropType.moreText ts ++ rest))).1
    have htext : PropType.moreText (t :: ts) ++ rest =
        ' ' :: '|' :: ' ' :: (t.render.toList ++ (PropType.moreText ts ++ rest)) := by
      simp [PropType.moreText]
    rw [htext, hbar]
    refine ⟨fun p hp => .inl ?_, fun hp => by simp [Token.isPunct] at hp⟩
    have hp : Punct.pipe = p := by simpa [Token.isPunct] using hp
    exact hp.symm

/-- Nodes are settled if the first of them are, and the rest. -/
theorem isSettled_append (ns ms : List Node) :
    Program.isSettled (ns ++ ms) = (Program.isSettled ns && Program.isSettled ms) :=
  List.all_append

/-- The nodes are read as the types behind a first one, which ends before them. -/
structure AreTypes (src : List Char) (front : List Char) (ts : List PropType) (nodes : List Node) :
    Prop where
  reads : nodes.mapM (alternative? src) = some ts
  joined : ∀ first, first.span.stop = byteSize front → isJoined src (first :: nodes) = true
  settled : Program.isSettled (Node.nodesOf nodes) = true

/-- The alternatives behind the first one are read one after the other. -/
theorem exists_run_more (ctx : Context) {ts : List PropType} (hts : ∀ t ∈ ts, t.isSingle = true)
    (front : List Char) {rest : List Char} (hsrc : src = front ++ (PropType.moreText ts ++ rest))
    (hbound : src.length < bound) (hrest : BehindUnion bound rest) {n : Nat} (hn : ts.length < n) :
    ∃ nodes, separatedFuel .pipe (alternativeRule g) n ctx
        (scanAt bound (byteSize front) (PropType.moreText ts ++ rest)) =
        some (nodes, scanAt bound (byteSize (front ++ PropType.moreText ts)) rest) ∧
      AreTypes src front ts nodes := by
  induction ts generalizing front n with
  | nil =>
    obtain ⟨n, rfl⟩ : ∃ m, n = m + 1 := ⟨n - 1, by omega⟩
    have hbar := hrest.noBar front
    refine ⟨[], ?_, rfl, fun _ _ => rfl, rfl⟩
    simp [PropType.moreText, separatedFuel, hbar]
  | cons t ts ih =>
    obtain ⟨n, rfl⟩ : ∃ m, n = m + 1 := ⟨n - 1, by omega⟩
    obtain ⟨ht, hts⟩ := List.forall_mem_cons.mp hts
    have htext : PropType.moreText (t :: ts) ++ rest =
        ' ' :: '|' :: ' ' :: (t.render.toList ++ (PropType.moreText ts ++ rest)) := by
      simp [PropType.moreText]
    obtain ⟨hbar, hnext⟩ := scanAt_bar (Nat.zero_lt_of_lt hbound) front
      (t.render.toList ++ (PropType.moreText ts ++ rest))
    obtain ⟨node, hrun, hnode⟩ := exists_run_alternativeRule (g := g) ctx ht
      (front ++ [' ', '|']) (by rw [hsrc, htext]; simp) hbound
      (behindType_moreText hrest (by omega) ts)
    obtain ⟨nodes, hmore, hnodes⟩ := ih hts (front ++ [' ', '|'] ++ ' ' :: t.render.toList)
      (by rw [hsrc, htext]; simp) (Nat.lt_of_succ_lt_succ hn)
    refine ⟨node :: nodes, ?_, ?_, ?_, ?_⟩
    · have hstop : front ++ [' ', '|'] ++ ' ' :: t.render.toList ++ PropType.moreText ts =
          front ++ PropType.moreText (t :: ts) := by
        simp [PropType.moreText]
      rw [hstop] at hmore
      simp only [htext, separatedFuel, run_bind, run_eat?, hbar, hnext, Token.isPunct,
        beq_self_eq_true, if_true, Option.bind_some, hrun, hmore, run_pure]
    · simp [hnode.reads, hnodes.reads]
    · -- The bar is what stands between the node before and the first of these.
      intro first hfirst
      have hmark : mark src first node = ['|'] := by
        rw [mark, hfirst, hnode.span, between_of_append front [' ', '|', ' ']
          (t.render.toList ++ (PropType.moreText ts ++ rest)) (by rw [hsrc, htext]; rfl) rfl
          (by simp)]
        decide
      rw [isJoined, hmark, hnodes.joined node (by rw [hnode.span])]
      rfl
    · rw [Node.nodesOf, isSettled_append, hnode.settled, hnodes.settled]
      rfl

/-- The node is read as the alternatives, which stand from the given place on. -/
structure IsUnion (src : List Char) (ts : List PropType) (start : Nat) (node : Node) : Prop where
  reads : alternatives? src node = some ts
  start : node.span.start = start
  settled : Program.isSettled node.nodes = true

/-- No keyword has a bar in it. -/
theorem keyword?_of_bar {text : String} (h : '|' ∈ text.toList) : keyword? text = none := by
  rw [keyword?, List.find?_eq_none]
  intro k _ hk
  rw [beq_iff_eq] at hk
  rw [← hk] at h
  revert h
  cases k <;> decide

/-- A single type is its only alternative. -/
theorem alternatives?_of_alternative? {node : Node} {t : PropType}
    (h : alternative? src node = some t) : alternatives? src node = some [t] := by
  simp [alternatives?, h]

/-- A node of parts with bars between them is read as these. -/
theorem alternatives?_form {span : Span} {nodes : List Node} {ts : List PropType}
    (hbar : '|' ∈ between src span.start span.stop) (hjoined : isJoined src nodes = true)
    (hreads : nodes.mapM (alternative? src) = some ts) :
    alternatives? src (.form .other span nodes) = some ts := by
  have hkeyword : keyword? (PropTable.textOf src (.form .other span nodes)) = none :=
    keyword?_of_bar (by simpa [PropTable.textOf, Node.span] using hbar)
  simp [alternatives?, alternative?, hkeyword, hjoined, hreads]

/-- All alternatives of a type are read. -/
theorem exists_run_unionType (ctx : Context) {t u : PropType} {us : List PropType}
    (halternatives : t.alternatives = u :: us)
    (hsingle : ∀ v ∈ t.alternatives, v.isSingle = true) {front rest : List Char}
    (hsrc : src = front ++ ' ' :: (t.render.toList ++ rest)) (hbound : src.length < bound)
    (hrest : BehindUnion bound rest) :
    ∃ node, g.unionType ctx (scanAt bound (byteSize front) (' ' :: (t.render.toList ++ rest))) =
        some (node, scanAt bound (byteSize (front ++ ' ' :: t.render.toList)) rest) ∧
      IsUnion src t.alternatives (byteSize (front ++ [' '])) node := by
  rw [halternatives] at hsingle ⊢
  obtain ⟨hu, hus⟩ := List.forall_mem_cons.mp hsingle
  rw [PropType.render_eq halternatives] at hsrc ⊢
  rw [List.append_assoc] at hsrc ⊢
  have hbehind := behindType_moreText hrest (by omega) us
  obtain ⟨name, stop, htoken, -⟩ := exists_token_of_isSingle hu (hsrc ▸ hbound) hbehind.endsName
  obtain ⟨node, hrun, hnode⟩ := exists_run_alternativeRule (g := g) ctx hu front hsrc hbound hbehind
  have hlength := PropType.length_le_moreText us
  obtain ⟨nodes, hmore, hnodes⟩ := exists_run_more (g := g) ctx hus
    (front ++ ' ' :: u.render.toList) (n := bound) (by rw [hsrc]; simp) hbound hrest
    (by simp [hsrc] at hbound; omega)
  rw [List.append_assoc, List.cons_append] at hmore
  -- No bar stands before the first alternative.
  have hbar := Grammar.isPunct_of_word (congrArg Token.kind htoken) .pipe
  have hunion : g.unionType = Grammar.joinedTypes .pipe (alternativeRule g) := rfl
  simp only [hunion, Grammar.joinedTypes, separated, run_bind, run_start, run_eat?,
    hbar, Bool.false_eq_true, if_false, Option.bind_some, hrun, run_bound, scanAt_bound, hmore,
    run_pure]
  cases nodes with
  | nil =>
    -- One alternative makes no node of its own.
    obtain rfl : us = [] := by simpa using hnodes.reads.symm
    exact ⟨node, rfl, alternatives?_of_alternative? hnode.reads, by rw [hnode.span], hnode.settled⟩
  | cons second nodes =>
    have hstart : (scanAt bound (byteSize front)
        (' ' :: (u.render.toList ++ (PropType.moreText us ++ rest)))).token.start =
        byteSize (front ++ [' ']) := by rw [htoken]
    refine ⟨_, rfl, alternatives?_form ?_ (hnodes.joined node (by rw [hnode.span])) ?_, hstart, ?_⟩
    · obtain ⟨v, vs, rfl⟩ : ∃ v vs, us = v :: vs := by
        cases us with
        | nil => exact absurd hnodes.reads (by simp [Option.bind_eq_some_iff])
        | cons v vs => exact ⟨v, vs, rfl⟩
      rw [between_of_append (front ++ [' '])
        (u.render.toList ++ PropType.moreText (v :: vs)) rest
        (by rw [hsrc]; simp) hstart (by rw [hstart]; simp [Nat.add_assoc])]
      simp [PropType.moreText]
    · simp [hnode.reads, hnodes.reads]
    · have hparts : Program.isSettled (Node.nodesOf (node :: second :: nodes)) = true := by
        rw [Node.nodesOf, isSettled_append, hnode.settled, hnodes.settled]
        rfl
      exact hparts

/-- A type is read as its alternatives. -/
theorem exists_run_typeRule (ctx : Context) {t : PropType} (hne : t.alternatives ≠ [])
    (hsingle : ∀ v ∈ t.alternatives, v.isSingle = true) (front : List Char) {rest : List Char}
    (hsrc : src = front ++ ' ' :: (t.render.toList ++ rest)) (hbound : src.length < bound)
    (hrest : BehindUnion bound rest) :
    ∃ node, g.typeRule ctx (scanAt bound (byteSize front) (' ' :: (t.render.toList ++ rest))) =
        some (node, scanAt bound (byteSize (front ++ ' ' :: t.render.toList)) rest) ∧
      IsUnion src t.alternatives (byteSize (front ++ [' '])) node := by
  obtain ⟨u, us, halternatives⟩ := List.exists_cons_of_ne_nil hne
  obtain ⟨node, hrun, hnode⟩ := exists_run_unionType (g := g) ctx halternatives hsingle hsrc
    hbound hrest
  refine ⟨node, ?_, hnode⟩
  obtain ⟨name, stop, htoken, hnew, habstract⟩ : ∃ name stop,
      (scanAt bound (byteSize front) (' ' :: (t.render.toList ++ rest))).token =
        ⟨.word name false, byteSize (front ++ [' ']), stop, false⟩ ∧ name ≠ "new" ∧
          name ≠ "abstract" := by
    rw [PropType.render_eq halternatives, List.append_assoc] at hsrc ⊢
    exact exists_token_of_isSingle (hsingle u (by simp [halternatives])) (hsrc ▸ hbound)
      (behindType_moreText hrest (by omega) us).endsName
  exact Grammar.run_typeRule (by rw [htoken]) hnew habstract hrun (hrest.line _)

/-! ### Keys

A key that is a name is written as it is, and any other one in quotes with its quotes and
backslashes escaped. Reading the string takes the escapes away again. -/

/-- A backslash or a quote is escaped by a backslash, and any other character stands for itself. -/
theorem stringBody?_escapeQuoted {key : List Char} (hkey : ∀ c ∈ key, c ≠ '\n' ∧ c ≠ '\r')
    (rest : List Char) {n : Nat} (hn : (key.flatMap escapeQuoted).length < n) :
    stringBody? '\'' n (key.flatMap escapeQuoted ++ '\'' :: rest) =
      some ⟨key, byteSize (key.flatMap escapeQuoted) + 1, rest⟩ := by
  induction key generalizing n with
  | nil =>
    cases n with
    | zero => cases hn
    | succ n => rfl
  | cons c key ih =>
    obtain ⟨⟨hfeed, hreturn⟩, hkey⟩ := List.forall_mem_cons.mp hkey
    cases n with
    | zero => cases hn
    | succ n =>
      rw [List.flatMap_cons, List.length_append] at hn
      by_cases hescaped : c = '\\' ∨ c = '\''
      · have hescape : ∀ cs, escape? true (c :: cs) = some ⟨[c], 1, cs⟩ := by
          intro cs
          obtain rfl | rfl := hescaped
          · rfl
          · rfl
        have hchars : escapeQuoted c = ['\\', c] := by
          simp [escapeQuoted, hescaped]
        have hsize : '\\'.utf8Size = 1 ∧ c.utf8Size = 1 := by
          obtain rfl | rfl := hescaped <;> decide
        rw [hchars, List.length_cons, List.length_singleton] at hn
        have ih := ih hkey (n := n) (by omega)
        simp [hchars, stringBody?, hescape, ih, hsize]
        omega
      · obtain ⟨hslash, hquote⟩ := not_or.mp hescaped
        have hchars : escapeQuoted c = [c] := by
          simp [escapeQuoted, hslash, hquote]
        rw [hchars, List.length_singleton] at hn
        have ih := ih hkey (n := n) (by omega)
        simp [hchars, stringBody?, hslash, hquote, hfeed, hreturn, ih, Nat.add_assoc]

/-- A key in quotes is a string of that value. -/
theorem spells_quoted {key : String} (hkey : ∀ c ∈ key.toList, c ≠ '\n' ∧ c ≠ '\r')
    (rest : List Char)
    (hbound : ('\'' :: key.toList.flatMap escapeQuoted ++ ['\'']).length ≤ bound) :
    Spells bound (.string key) ('\'' :: key.toList.flatMap escapeQuoted ++ ['\'']) rest := by
  have hbody := stringBody?_escapeQuoted hkey rest (n := bound) (by simp at hbound ⊢; omega)
  have hquote : isIdentifierStart '\'' = false ∧ '\''.utf8Size = 1 := by decide
  refine ⟨startsSolid_cons (by decide) _, ?_⟩
  simp [scanKind, hquote, hbody]
  omega

/-- No line ends in the key. -/
def isOneLine (key : String) : Bool :=
  key.toList.all fun c => c != '\n' && c != '\r'

/-- Letters of ASCII stand below the first other character. -/
theorem toNat_lt_of_isAlpha {c : Char} (h : c.isAlpha = true) : c.toNat < 0x80 := by
  have hcases : (c.isUpper || c.isLower) = true := h
  rcases (Bool.or_eq_true _ _).mp hcases with hupper | hlower
  · have hrange : c.val ≥ 'A'.val ∧ c.val ≤ 'Z'.val := of_decide_eq_true hupper
    exact Nat.lt_of_le_of_lt (UInt32.le_iff_toNat_le.mp hrange.2) (by decide)
  · have hrange : (decide (c.val ≥ 'a'.val) && decide (c.val ≤ 'z'.val)) = true := hlower
    simp only [Bool.and_eq_true, decide_eq_true_eq] at hrange
    exact Nat.lt_of_le_of_lt (UInt32.le_iff_toNat_le.mp hrange.2) (by decide)

/-- A plain name starts as a name of the language does. -/
theorem isIdentifierStart_of_isPlainStart {c : Char} (h : isPlainStart c = true) :
    isIdentifierStart c = true := by
  simp only [isPlainStart, Bool.or_eq_true, beq_iff_eq] at h
  obtain (halpha | rfl) | rfl := h
  · simp [isIdentifierStart, toNat_lt_of_isAlpha halpha, halpha]
  · decide
  · decide

/-- It goes on as one, too. -/
theorem isIdentifierPart_of_isPlainChar {c : Char} (h : isPlainChar c = true) :
    isIdentifierPart c = true := by
  simp only [isPlainChar, Char.isAlphanum, Bool.or_eq_true, beq_iff_eq] at h
  obtain ((halpha | hdigit) | rfl) | rfl := h
  · exact isIdentifierPart_of_start (isIdentifierStart_of_isPlainStart
      (by simp [isPlainStart, halpha]))
  · exact isIdentifierPart_of_isDigit hdigit
  · decide
  · decide

/-- A plain name is a name of the language. -/
theorem isNameChars_of_isPlainName {s : String} (h : isPlainName s = true) :
    isNameChars s.toList = true := by
  unfold isPlainName at h
  split at h
  · cases h
  · next c cs hs =>
    simp only [Bool.and_eq_true, List.all_eq_true] at h
    simp only [hs, isNameChars, Bool.and_eq_true, List.all_eq_true]
    exact ⟨isIdentifierStart_of_isPlainStart h.1, fun d hd =>
      isIdentifierPart_of_isPlainChar (h.2 d hd)⟩

/-- A key is spelled as a word or as a string. -/
theorem exists_spells_quoteKey {key : String} (hkey : isOneLine key = true) {rest : List Char}
    (hrest : EndsName rest) (hbound : (quoteKey key).toList.length ≤ bound) :
    ∃ kind, Spells bound kind (quoteKey key).toList rest ∧
      (kind = .word key false ∨ kind = .string key) := by
  unfold quoteKey at hbound ⊢
  split at hbound
  · next hplain =>
    rw [if_pos hplain]
    exact ⟨_, spells_word (isNameChars_of_isPlainName hplain) hrest hbound, .inl rfl⟩
  · next hplain =>
    rw [if_neg hplain]
    have htext : ("'" ++ String.ofList (key.toList.flatMap escapeQuoted) ++ "'").toList =
        '\'' :: key.toList.flatMap escapeQuoted ++ ['\''] := by
      simp
    rw [htext] at hbound ⊢
    exact ⟨.string key, spells_quoted (by simpa [isOneLine] using hkey) rest hbound, .inr rfl⟩

/-! ### Members

Every member stands on a line of its own and is known by its key, the mark behind it, and its type.
The next line starts another member or closes the type. -/

/-- A key on a line of its own. -/
def keyText (r : PropRecord) : List Char :=
  '\n' :: ' ' :: ' ' :: (quoteKey r.key).toList

/-- The mark and the colon behind a key. -/
def colonText (r : PropRecord) : List Char :=
  if r.optional then ['?', ':'] else [':']

/-- The members, and what closes the type. -/
def membersText : List PropRecord → List Char
  | [] => ['\n', '\x7d', '\n']
  | r :: records => keyText r ++
      (colonText r ++ ' ' :: (r.type.render.toList ++ membersText records))

/-- Each member takes some room. -/
theorem length_le_membersText (records : List PropRecord) :
    records.length ≤ (membersText records).length := by
  induction records with
  | nil => exact Nat.zero_le _
  | cons r records ih =>
    simp only [membersText, List.length_append, List.length_cons]
    omega

/-- A member is its key, the mark and the colon, and its type, on one line. -/
theorem toList_propsTypeMember (r : PropRecord) : '\n' :: (propsTypeMember r).toList =
    keyText r ++ (colonText r ++ ' ' :: (r.type.render.toList ++ ['\n'])) := by
  cases hoptional : r.optional <;> simp [propsTypeMember, keyText, colonText, hoptional]

/-- The alias is its head, its members, and what closes them. -/
theorem toList_propsType (records : List PropRecord) :
    (propsType records).toList = "type Props = \x7b".toList ++ membersText records := by
  have hmembers : '\n' :: ((String.join (records.map propsTypeMember)).toList ++ ['\x7d', '\n']) =
      membersText records := by
    induction records with
    | nil => rfl
    | cons r records ih =>
      rw [String.toList_join] at ih ⊢
      rw [membersText, ← ih, List.map_cons, List.flatMap_cons, List.append_assoc,
        ← List.cons_append, toList_propsTypeMember]
      simp only [List.append_assoc, List.cons_append, List.nil_append]
  rw [← hmembers]
  delta propsType
  simp only [String.toList_append]
  rfl

/-- The record's key and type can be read back. -/
structure IsReadable (r : PropRecord) : Prop where
  key : isOneLine r.key = true
  some_type : r.type.alternatives ≠ []
  types : ∀ t ∈ r.type.alternatives, t.isSingle = true

/-- The cursor stands on the key of a record, and another one on the colon behind it. -/
structure KeyAt (bound : Nat) (front : List Char) (r : PropRecord) (records : List PropRecord)
    (keyNode : Node) (c₁ : Cursor) : Prop where
  isKey : Grammar.IsKey (scanAt bound (byteSize front) (membersText (r :: records))).token r.key
    keyNode
  line : (scanAt bound (byteSize front) (membersText (r :: records))).token.afterLineEnd = true
  stop : keyNode.span.stop = byteSize (front ++ keyText r)
  colon : Grammar.ColonAt (scanAt bound (byteSize front) (membersText (r :: records))).next c₁
  behind : c₁.next = scanAt bound (byteSize (front ++ keyText r ++ colonText r))
    (' ' :: (r.type.render.toList ++ membersText records))

/-- The colon of a record stands behind its key, or behind the mark there. -/
theorem exists_colonAt (bound : Nat) (r : PropRecord) (front rest : List Char) :
    ∃ c₁, Grammar.ColonAt (scanAt bound (byteSize front) (colonText r ++ rest)) c₁ ∧
      c₁.next = scanAt bound (byteSize (front ++ colonText r)) rest := by
  unfold colonText
  split
  · obtain ⟨hmark, hnext⟩ := scanAt_punct bound '?' (':' :: rest)
      (by decide) rfl front
    obtain ⟨hcolon, hbehind⟩ := scanAt_punct bound ':' rest (by decide)
      rfl (front ++ ['?'])
    rw [List.append_assoc] at hbehind
    exact ⟨_, ⟨congrArg Token.kind hcolon, .inr ⟨congrArg Token.kind hmark, hnext.symm⟩⟩, hbehind⟩
  · obtain ⟨hcolon, hbehind⟩ := scanAt_punct bound ':' rest (by decide)
      rfl front
    exact ⟨_, ⟨congrArg Token.kind hcolon, .inl rfl⟩, hbehind⟩

/-- The parser finds the key of a record, however it is written. -/
theorem exists_keyAt {r : PropRecord} (hkey : isOneLine r.key = true) (records : List PropRecord)
    (hbound : (membersText (r :: records)).length < bound) (front : List Char) :
    ∃ keyNode c₁, KeyAt bound front r records keyNode c₁ := by
  have hends : ∀ rest, EndsName (colonText r ++ rest) := by
    intro rest
    unfold colonText
    split <;> exact endsName_cons (by decide) _
  simp only [membersText, keyText, List.length_append, List.length_cons] at hbound
  have hlength : (quoteKey r.key).toList.length ≤ bound := by omega
  obtain ⟨kind, hspells, hkind⟩ := exists_spells_quoteKey hkey
    (hends (' ' :: (r.type.render.toList ++ membersText records))) hlength
  obtain ⟨htoken, hnext⟩ := scanAt_gap bound ['\n', ' ', ' '] _ _ (by decide) hspells
    (by simp only [List.length_cons, List.length_nil]; omega) front
  obtain ⟨c₁, hcolon, hbehind⟩ := exists_colonAt bound r (front ++ keyText r)
    (' ' :: (r.type.render.toList ++ membersText records))
  have htext : membersText (r :: records) = ['\n', ' ', ' '] ++ ((quoteKey r.key).toList ++
      (colonText r ++ ' ' :: (r.type.render.toList ++ membersText records))) := rfl
  have hfront : front ++ ['\n', ' ', ' '] ++ (quoteKey r.key).toList = front ++ keyText r := by
    simp [keyText]
  rw [hfront] at htoken hnext
  have hline : (['\n', ' ', ' '] : List Char).any isLineEnd = true := by decide
  rw [← htext] at htoken hnext
  rw [← hnext] at hcolon
  obtain rfl | rfl := hkind
  · exact ⟨_, c₁, .inl ⟨congrArg Token.kind htoken, rfl⟩, by rw [htoken]; exact hline,
      by rw [htoken]; rfl, hcolon, hbehind⟩
  · exact ⟨_, c₁, .inr ⟨congrArg Token.kind htoken, rfl⟩, by rw [htoken]; exact hline,
      by rw [htoken]; rfl, hcolon, hbehind⟩

/-- The cursor on what closes the type, and the one behind it. -/
theorem scanAt_close (hbound : 0 < bound) (front : List Char) :
    (scanAt bound (byteSize front) (membersText [])).token =
        ⟨.punct .rcurly, byteSize (front ++ ['\n']), byteSize (front ++ ['\n', '\x7d']), true⟩ ∧
      (scanAt bound (byteSize front) (membersText [])).next =
        scanAt bound (byteSize (front ++ ['\n', '\x7d'])) ['\n'] := by
  have hcursor := scanAt_gap bound ['\n'] ['\x7d'] ['\n'] (by decide)
    ⟨startsSolid_cons (by decide) _, rfl⟩ hbound front
  rw [List.append_assoc] at hcursor
  exact hcursor

/-- A type ends where the line of another member starts, or the one that closes the type. -/
theorem behindUnion_membersText {records : List PropRecord} (hrecords : ∀ r ∈ records, IsReadable r)
    (hbound : (membersText records).length < bound) : BehindUnion bound (membersText records) := by
  have htoken : ∀ front, (∀ p, (scanAt bound (byteSize front) (membersText records)).token.isPunct
      p =
      true → p = .rcurly) ∧
      (scanAt bound (byteSize front) (membersText records)).token.afterLineEnd = true := by
    intro front
    cases records with
    | nil =>
      rw [(scanAt_close (by omega) front).1]
      refine ⟨fun p hp => ?_, rfl⟩
      have hp : Punct.rcurly = p := by simpa [Token.isPunct] using hp
      exact hp.symm
    | cons r records =>
      obtain ⟨keyNode, c₁, hkey⟩ := exists_keyAt (hrecords r List.mem_cons_self).key _ hbound front
      exact ⟨fun p hp => by simp [hkey.isKey.isPunct] at hp, hkey.line⟩
  refine ⟨⟨?_, fun front => ⟨fun p hp => .inr ((htoken front).1 p hp), fun _ => (htoken front).2⟩⟩,
    fun front => (htoken front).2, fun front => ?_⟩
  · cases records <;> exact endsName_cons (by decide) _
  · refine Bool.eq_false_iff.mpr fun hp => ?_
    cases (htoken front).1 .pipe hp

/-- What the type says about the prop of a record. -/
def memberOf (r : PropRecord) : TypeMember :=
  ⟨r.key, r.optional, r.type.alternatives⟩

/-- A key is a name or a string, and settled as these are. -/
theorem isSettled_of_isKey {t : Token} {key : String} {node : Node} (h : Grammar.IsKey t key node) :
    Program.isSettled node.nodes = true := by
  obtain ⟨-, rfl⟩ | ⟨-, rfl⟩ := h <;> rfl

/-- The line of a record is read as its member. -/
theorem exists_run_typeMember {inner : Grammar} (hg : g.type = inner.typeRule)
    (htypes : ctx.dialect.types = true) {r : PropRecord} (hr : IsReadable r)
    {records : List PropRecord} (hrecords : ∀ r ∈ records, IsReadable r) {front : List Char}
    (hsrc : src = front ++ membersText (r :: records)) (hbound : src.length < bound) :
    ∃ node, g.typeMember ctx (scanAt bound (byteSize front) (membersText (r :: records))) =
        some (node, scanAt bound
          (byteSize (front ++ keyText r ++ colonText r ++ ' ' :: r.type.render.toList))
          (membersText records)) ∧
      member? src node = some (memberOf r) ∧ Program.isSettled node.nodes = true := by
  have hlength : (membersText (r :: records)).length < bound ∧
      (membersText records).length < bound := by
    simp only [hsrc, membersText, List.length_append, List.length_cons] at hbound ⊢
    omega
  obtain ⟨keyNode, c₁, hkey⟩ := exists_keyAt hr.key records hlength.1 front
  have hrest := behindUnion_membersText hrecords hlength.2
  have htext : src = front ++ keyText r ++ (colonText r ++ [' '] ++
      (r.type.render.toList ++ membersText records)) := by
    simp [hsrc, membersText]
  obtain ⟨type, hrun, htype⟩ := exists_run_typeRule (g := inner)
    { ctx with allowsConditional := true } hr.some_type hr.types
    (front ++ keyText r ++ colonText r) (by simp [htext]) hbound hrest
  rw [← hg, ← hkey.behind] at hrun
  have hmark : mark src keyNode type = colonText r := by
    rw [mark, hkey.stop, htype.start, between_of_append _ _ _ htext rfl (by simp [Nat.add_assoc])]
    unfold colonText
    split <;> decide
  refine ⟨_, Grammar.run_typeMember htypes hkey.isKey hkey.colon hrun (hrest.endsType _)
    (hrest.line _), ?_, ?_⟩
  · rw [member?, hkey.isKey.keyName?, htype.reads, hmark, memberOf, colonText]
    cases r.optional <;> rfl
  · have hparts : Program.isSettled (Node.nodesOf [keyNode, type]) = true := by
      simp [Node.nodesOf, isSettled_append, isSettled_of_isKey hkey.isKey, htype.settled]
    exact hparts

/-- The lines of the records are read as their members. -/
theorem exists_run_members {ctx : Context} {inner : Grammar} (hg : g.type = inner.typeRule)
    (htypes : ctx.dialect.types = true) {records : List PropRecord}
    (hrecords : ∀ r ∈ records, IsReadable r) (front : List Char)
    (hsrc : src = front ++ membersText records) (hbound : src.length < bound) {n : Nat}
    (hn : records.length < n) :
    ∃ nodes lines, untilFuel (at? .rcurly) g.typeMember n ctx
        (scanAt bound (byteSize front) (membersText records)) =
        some (nodes, scanAt bound (byteSize (front ++ lines)) (membersText [])) ∧
      src = front ++ lines ++ membersText [] ∧
      nodes.mapM (member? src) = some (records.map memberOf) ∧
      Program.isSettled (Node.nodesOf nodes) = true := by
  induction records generalizing front n with
  | nil =>
    obtain ⟨n, rfl⟩ : ∃ m, n = m + 1 := ⟨n - 1, by omega⟩
    have hclose := (scanAt_close (Nat.zero_lt_of_lt hbound) front).1
    refine ⟨[], [], ?_, by simpa using hsrc, rfl, rfl⟩
    simp [untilFuel, hclose, Token.isPunct]
  | cons r records ih =>
    obtain ⟨n, rfl⟩ : ∃ m, n = m + 1 := ⟨n - 1, by omega⟩
    obtain ⟨hr, hrecords'⟩ := List.forall_mem_cons.mp hrecords
    obtain ⟨node, hrun, hreads, hsettled⟩ :=
      exists_run_typeMember hg htypes hr hrecords' hsrc hbound
    obtain ⟨nodes, lines, hmore, hlines, hmembers, hnodes⟩ := ih hrecords'
      (front ++ keyText r ++ colonText r ++ ' ' :: r.type.render.toList)
      (by simp [hsrc, membersText]) (Nat.lt_of_succ_lt_succ hn)
    -- A key is no closing brace, so that one more member is read.
    have hopen : (scanAt bound (byteSize front) (membersText (r :: records))).token.isPunct
        .rcurly =
        false := by
      rw [hsrc, List.length_append] at hbound
      obtain ⟨keyNode, c₁, hkey⟩ := exists_keyAt hr.key records
        (Nat.lt_of_le_of_lt (Nat.le_add_left _ _) hbound) front
      exact hkey.isKey.isPunct _
    refine ⟨node :: nodes, keyText r ++ colonText r ++ ' ' :: r.type.render.toList ++ lines, ?_, ?_,
      ?_, ?_⟩
    · simp only [← List.append_assoc]
      simp only [untilFuel, run_bind, run_at?, hopen, Option.bind_some, Bool.false_eq_true,
        if_false, run_ite, hrun, hmore, run_pure]
    · simp [hlines]
    · simp [hreads, hmembers]
    · rw [Node.nodesOf, isSettled_append, hsettled, hnodes]
      rfl

/-! ### The whole alias

Around the members stand the words and marks of the alias, which the parser reads as one statement.
-/

/-- The cursor on the end of the text, behind the last line. -/
theorem scanAt_end (hbound : 0 < bound) (front : List Char) :
    (scanAt bound (byteSize front) ['\n']).token.kind = .endOfText ∧
      (scanAt bound (byteSize front) ['\n']).token.afterLineEnd = true := by
  have hspells : Spells bound .endOfText [] [] := ⟨by simp [StartsSolid], rfl⟩
  have hcursor := (scanAt_gap bound ['\n'] _ _ (by decide) hspells hbound front).1
  rw [List.append_nil, List.append_nil] at hcursor
  have hline : (['\n'] : List Char).any isLineEnd = true := by decide
  rw [hcursor]
  exact ⟨rfl, hline⟩

/-- An object type of the lines of the records maps no keys. -/
theorem run_atMappedType_members {records : List PropRecord}
    (hrecords : ∀ r ∈ records, IsReadable r)
    (hbound : (membersText records).length < bound) {c : Cursor} {front : List Char}
    (hopen : c.token.kind = .punct .lcurly)
    (hnext : c.next = scanAt bound (byteSize front) (membersText records)) :
    Grammar.atMappedType ctx c = some (false, c) := by
  refine Grammar.run_atMappedType hopen ?_
  rw [hnext]
  cases records with
  | nil =>
    rw [(scanAt_close (by omega) front).1]
    exact .inl rfl
  | cons r records =>
    obtain ⟨keyNode, c₁, hkey⟩ := exists_keyAt (hrecords r List.mem_cons_self).key _ hbound front
    exact .inr ⟨r.key, keyNode, c₁, hkey.isKey, hkey.colon⟩

/-- The node is read as an object type of the given members, which stands from the given place
on. -/
structure IsObject (src : List Char) (members : List TypeMember) (start : Nat) (span : Span)
    (nodes : List Node) : Prop where
  start : span.start = start
  opens : (between src span.start span.stop).head? = some '\x7b'
  reads : nodes.mapM (member? src) = some members
  settled : Program.isSettled (Node.nodesOf nodes) = true

theorem ofStatement?_alias {statement nameSpan span : Span} {name : String} {start : Nat}
    {nodes : List Node} {members : List TypeMember}
    (hmark : between src nameSpan.stop span.start = [' ', '=', ' '])
    (h : IsObject src members start span nodes) :
    ofStatement? src (.form .other statement [.binding nameSpan name [], .form .other span nodes]) =
      some (name, members) := by
  have hsign : ([' ', '=', ' '] : List Char).filter (fun c => !isGapChar c) = ['='] := by decide
  simp [ofStatement?, mark, Node.span, hmark, hsign, h.opens, h.reads]

/-- The object type is read as the members of the records. -/
theorem exists_run_object (ctx : Context) {inner : Grammar} (hg : g.type = inner.typeRule)
    (htypes : ctx.dialect.types = true) {records : List PropRecord}
    (hrecords : ∀ r ∈ records, IsReadable r) (front : List Char)
    (hsrc : src = front ++ ' ' :: '\x7b' :: membersText records) (hbound : src.length < bound) :
    ∃ span nodes c', g.typeRule ctx
        (scanAt bound (byteSize front) (' ' :: '\x7b' :: membersText records)) =
        some (.form .other span nodes, c') ∧ c'.token.kind = .endOfText ∧
      IsObject src (records.map memberOf) (byteSize (front ++ [' '])) span nodes := by
  have hlength : (membersText records).length < bound := by
    simp only [hsrc, List.length_append, List.length_cons] at hbound
    omega
  obtain ⟨hopen, hnext⟩ := scanAt_gap bound [' '] ['\x7b'] (membersText records)
    (by decide) ⟨startsSolid_cons (by decide) _, rfl⟩
    (by simp only [List.length_singleton]; omega) front
  rw [List.singleton_append, List.singleton_append] at hopen hnext
  obtain ⟨nodes, lines, hrun, hlines, hreads, hsettled⟩ := exists_run_members hg
    (show ({ ctx with allowsConditional := true } : Context).dialect.types = true from htypes)
      hrecords
    (front ++ [' '] ++ ['\x7b']) (n := bound) (by simp [hsrc]) hbound
    (Nat.lt_of_le_of_lt (length_le_membersText records) hlength)
  obtain ⟨hclose, hbehind⟩ := scanAt_close (Nat.zero_lt_of_lt hbound)
    (front ++ [' '] ++ ['\x7b'] ++ lines)
  obtain ⟨hend, hline⟩ := scanAt_end (Nat.zero_lt_of_lt hbound)
    (front ++ [' '] ++ ['\x7b'] ++ lines ++ ['\n', '\x7d'])
  have hkind := congrArg Token.kind hopen
  have hmembers : g.typeMembers { ctx with allowsConditional := true }
      (scanAt bound (byteSize front) (' ' :: '\x7b' :: membersText records)) =
      some (nodes, scanAt bound
        (byteSize (front ++ [' '] ++ ['\x7b'] ++ lines ++ ['\n', '\x7d'])) ['\n']) := by
    simp only [Grammar.typeMembers, until?, run_bind, run_expect, Grammar.isPunct_of_punct hkind,
      decide_true, if_true, Option.bind_some, hnext, run_bound, scanAt_bound, hrun,
      Grammar.isPunct_of_punct (congrArg Token.kind hclose), hbehind, run_pure]
  -- An object type ends where its brace does, as the text ends there.
  have hobject := Grammar.run_typeRule_object hkind
    (run_atMappedType_members hrecords hlength hkind hnext) hmembers hend hline
    (by rw [scanAt_bound]; omega) (by rw [scanAt_bound]; omega)
  refine ⟨_, nodes, _, hobject, hend, ?_, ?_, hreads, hsettled⟩
  · rw [hopen]
  · rw [hopen, between_of_append (front ++ [' ']) ('\x7b' :: (lines ++ ['\n', '\x7d']))
      ['\n'] (by simp [hlines, membersText]) rfl (by simp [Nat.add_assoc])]
    rfl

/-- The alias of the records is read as a statement that names their members. -/
theorem exists_run_statement (ctx : Context) {inner : Grammar} (hg : g.type = inner.typeRule)
    {inner' : Grammar} (hinner : inner.type = inner'.typeRule)
    (htypes : ctx.dialect.types = true) {records : List PropRecord}
    (hrecords : ∀ r ∈ records, IsReadable r) (hsrc : src = (propsType records).toList)
    (hbound : src.length < bound) :
    ∃ node c', g.statementRule false ctx (scanAt bound 0 src) = some (node, c') ∧
      (scanAt bound 0 src).token.kind ≠ .endOfText ∧ c'.token.kind = .endOfText ∧
      ofStatement? src node = some ("Props", records.map memberOf) ∧
      Program.isSettled node.nodes = true := by
  have htext : src = "type".toList ++ ' ' :: ("Props".toList ++ ' ' :: '=' :: ' ' :: '\x7b' ::
      membersText records) := by
    rw [hsrc, toList_propsType]
    rfl
  have hlength : 14 < bound := by
    rw [htext] at hbound
    simp at hbound
    omega
  -- the tokens before the members, and the cursors behind them
  obtain ⟨hkeyword, hname⟩ := scanAt_gap bound [] "type".toList
    (' ' :: ("Props".toList ++ ' ' :: '=' :: ' ' :: '\x7b' :: membersText records)) (by decide)
    (spells_word (by decide) (endsName_cons (by decide) _) (by simp; omega))
    (Nat.zero_le _) []
  obtain ⟨hnamed, hmark⟩ := scanAt_word bound "Props" "type".toList
    (' ' :: '=' :: ' ' :: '\x7b' :: membersText records) (by decide) (htext ▸ hbound)
    (endsName_cons (by decide) _)
  obtain ⟨heq, hobject⟩ := scanAt_gap bound [' '] ['=']
    (' ' :: '\x7b' :: membersText records) (by decide)
    ⟨startsSolid_cons (by decide) _, rfl⟩ (by simp only [List.length_singleton]; omega)
    ("type".toList ++ ' ' :: "Props".toList)
  obtain ⟨span, nodes, c', hrun, hend, hnodes⟩ := exists_run_object (g := inner)
    { ctx with allowsConditional := true } hinner htypes hrecords
    ("type".toList ++ ' ' :: "Props".toList ++ [' '] ++ ['=']) (by rw [htext]; rfl) hbound
  have hfirst : (scanAt bound 0 src).token =
      ⟨.word "type" false, 0, byteSize "type".toList, false⟩ := by
    rw [htext]
    exact hkeyword
  have hsecond : (scanAt bound 0 src).next = scanAt bound (byteSize "type".toList)
      (' ' :: ("Props".toList ++ ' ' :: '=' :: ' ' :: '\x7b' :: membersText records)) := by
    rw [htext]
    exact hname
  have hthird : (scanAt bound 0 src).next.next = scanAt bound
      (byteSize ("type".toList ++ ' ' :: "Props".toList))
      ([' '] ++ (['='] ++ ' ' :: '\x7b' :: membersText records)) := by
    rw [hsecond]
    exact hmark
  have halias : Grammar.AtAlias g ctx (scanAt bound 0 src) "Props" (.form .other span nodes) c' :=
    { keyword := congrArg Token.kind hfirst
      named := by rw [hsecond, hnamed]
      line := by rw [hsecond, hnamed]
      free := by decide
      mark := by rw [hthird, heq]
      reads := by rw [hg, hthird, hobject, hrun]
      ends := hend }
  refine ⟨_, c', halias.run_statementRule htypes (by rw [scanAt_bound]; omega), by simp [hfirst],
    hend, ?_, ?_⟩
  · refine ofStatement?_alias ?_ hnodes
    rw [hsecond, hnamed]
    refine between_of_append _ _ ('\x7b' :: membersText records) (by rw [htext]; rfl) rfl ?_
    rw [hnodes.start]
    rfl
  · simpa [Node.nodes, Node.nodesOf, Program.isSettled] using hnodes.settled

/-- A script of one statement that is no directive. -/
theorem run_rule_single {c c' : Cursor} {node : Node} (hrun : g.statement false ctx c =
      some (node, c'))
    (hfirst : c.token.kind ≠ .endOfText) (hend : c'.token.kind = .endOfText)
    (hdirective : Grammar.isDirective node = false) (hbound : 1 < c.bound) :
    Program.rule g ctx c = some (⟨[], [node]⟩, c') := by
  obtain ⟨n, hn⟩ : ∃ n, c.bound = n + 1 + 1 := ⟨c.bound - 2, by omega⟩
  simp [Program.rule, Grammar.directivesAndStatements, until?, hn, untilFuel, hfirst, hrun, hend,
    hdirective]

theorem isDirective_of_ofStatement? {node : Node} {found : String × List TypeMember}
    (h : ofStatement? src node = some found) : Grammar.isDirective node = false := by
  unfold ofStatement? at h
  split at h
  · rfl
  · cases h

/-- What the alias of props says about each of them is what their records say: its type is read back
from the text, as one member for each record and in their order. Keys must not hold the end of a
line. -/
theorem read?_propsType {dialect : Dialect} (htypes : dialect.types = true)
    {records : List PropRecord} (hrecords : ∀ r ∈ records, IsReadable r) :
    read? dialect (propsType records) = some ("Props", records.map memberOf) := by
  -- the alias, its type and the types of its members are three levels of rules
  obtain ⟨n, hn⟩ : ∃ n, 4 * (propsType records).toList.length + 16 = n + 1 + 1 + 1 :=
    ⟨4 * (propsType records).toList.length + 13, by omega⟩
  obtain ⟨node, c', hrun, hfirst, hend, hreads, hsettled⟩ := exists_run_statement
    { dialect } (rfl : (Grammar.upTo (n + 1 + 1)).type = (Grammar.upTo (n + 1)).typeRule)
    (rfl : (Grammar.upTo (n + 1)).type = (Grammar.upTo n).typeRule) htypes hrecords rfl
    (Nat.lt_succ_self _)
  have hskip : Program.skipRunLine (propsType records).toList =
      (0, (propsType records).toList) := by
    rw [toList_propsType]
    rfl
  have hlength : 0 < (propsType records).toList.length := by
    simp [toList_propsType]
  have hrule := run_rule_single (g := Grammar.upTo (n + 1 + 1 + 1)) hrun hfirst hend
    (isDirective_of_ofStatement? hreads) (by rw [scanAt_bound]; omega)
  have hparse : Program.parse? dialect (propsType records) = some ⟨[], [node]⟩ := by
    have hnodes : Program.isSettled (Program.nodes ⟨[], [node]⟩) = true := by
      simpa [Program.nodes, Node.nodesOf] using hsettled
    have hrun : Program.parse? dialect (propsType records) =
        ((Program.rule (Grammar.upTo (n + 1 + 1 + 1)) { dialect }
          (scanAt ((propsType records).toList.length + 1) 0 (propsType records).toList)).bind
            fun x =>
        if Program.isSettled x.1.nodes && (dialect.types || Program.exportsOnce x.1.statements) then
          some x.1 else none) := by
      simp only [Program.parse?, hskip, hn]
      rfl
    simp [hrun, hrule, hnodes, htypes]
  delta read?
  rw [hparse]
  exact hreads

/-- A key that is no name, with a quote and a backslash in it, and a union. -/
theorem read?_propsType_quotedKeys :
    read? ⟨true, false⟩ (propsType [⟨"new", .keyword .anyArray, none, none⟩,
      ⟨"it's\\é", .union [.keyword .string, .reference "Foo"], some true, none⟩]) =
    some ("Props", [⟨"new", true, [.keyword .anyArray]⟩,
      ⟨"it's\\é", false, [.keyword .string, .reference "Foo"]⟩]) := by
  refine read?_propsType rfl fun r hr => ?_
  simp only [List.mem_cons, List.not_mem_nil, or_false] at hr
  obtain rfl | rfl := hr
  · exact ⟨by decide, by simp [PropType.alternatives], by simp [PropType.alternatives]; decide⟩
  · exact ⟨by decide, by simp [PropType.alternatives], by simp [PropType.alternatives]; decide⟩

/-- A line feed in a key ends the line inside of the quotes. -/
theorem read?_propsType_brokenKey :
    read? ⟨true, false⟩ (propsType [⟨"a\nb", .keyword .string, none, none⟩]) = none :=
  Option.isNone_iff_eq_none.mp (by decide +kernel)

end TypeAlias

end VueSetup
