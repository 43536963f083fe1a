import VueSetup.Proofs.Script.Run
import VueSetup.Script.Grammar.Statement

/-!
# VueSetup.Proofs.Script.Grammar.Alias

What the rules make of the tokens of a name for an object type, the members of which have types that
are names, keywords or unions of these.

The statements are about the tokens at a cursor and behind it, one for each rule. A type is read as
far as a token that ends it (`Token.EndsType`): a bar, or a token on a new line.
-/

namespace VueSetup.Script

/-! ### Types behind which the type ends

The types of a written alias are single names, keywords and arrays of keywords. None of the
operators of the language stands behind them, and the proofs go through the rules to see that
nothing is read on. -/

/-- The token ends a type: it joins another one, or is on another line and no operator. -/
structure Token.EndsType (t : Token) : Prop where
  punct : ∀ p, t.isPunct p = true → p = .pipe ∨ p = .rcurly
  line : t.isPunct .pipe = false → t.afterLineEnd = true

/-- Of punctuation only a bar and a closing brace end a type. -/
theorem Token.EndsType.isPunct_eq_false {t : Token} (h : t.EndsType) {p : Punct} (hpipe : p ≠ .pipe)
    (hcurly : p ≠ .rcurly) : t.isPunct p = false :=
  Bool.eq_false_iff.mpr fun hp => (h.punct p hp).elim hpipe hcurly

/-- No name behind the type is read as what a claim is about. -/
theorem Token.EndsType.not_subject {t : Token} (h : t.EndsType) :
    ((t.isIdentifier || t.isWord "this") && !t.afterLineEnd) = false := by
  cases hp : t.isPunct .pipe with
  | true =>
    have hkind : t.kind = .punct .pipe := by simpa [Token.isPunct] using hp
    simp [Token.isIdentifier, Token.isWord, hkind]
  | false => simp [h.line hp]

namespace Grammar

open Parse

variable {g : Grammar} {ctx : Context} {c : Cursor}

/-- The kind of a known token answers all questions about it. -/
theorem isPunct_of_word {t : Token} {name : String} {escaped : Bool}
    (h : t.kind = .word name escaped)
    (p : Punct) : t.isPunct p = false := by
  simp [Token.isPunct, h]

theorem isPunct_of_punct {t : Token} {q : Punct} (h : t.kind = .punct q) (p : Punct) :
    t.isPunct p = decide (q = p) := by
  rw [Bool.eq_iff_iff]
  simp [Token.isPunct, h]

theorem isWord_of_word {t : Token} {name : String} (h : t.kind = .word name false) (w : String) :
    t.isWord w = (name == w) := by
  simp [Token.isWord, h]

theorem isWord_of_punct {t : Token} {q : Punct} (h : t.kind = .punct q) (w : String) :
    t.isWord w = false := by
  simp [Token.isWord, h]

/-- A word is one of several if its name is. -/
theorem isOneOf_of_word {t : Token} {name : String} (h : t.kind = .word name false)
    (ws : List String) : t.isOneOf ws = ws.contains name := by
  simp [Token.isOneOf, h]

theorem isOneOf_of_punct {t : Token} {q : Punct} (h : t.kind = .punct q) (ws : List String) :
    t.isOneOf ws = false := by
  simp [Token.isOneOf, h]

/-- A name with neither a dot nor arguments behind it. -/
theorem run_typeReference {name : String} (hkind : c.token.kind = .word name false)
    (hends : c.next.token.EndsType) (hbound : 0 < c.bound) :
    typeReference g ctx c = some (.typeReference ⟨c.token.start, c.token.stop⟩
      (.reference ⟨c.token.start, c.token.stop⟩ name) [], c.next) := by
  obtain ⟨n, hn⟩ : ∃ n, c.bound = n + 1 := ⟨c.bound - 1, by omega⟩
  have hname : typeName ctx c = some (.reference ⟨c.token.start, c.token.stop⟩ name, c.next) := by
    simp [typeName, anyName, hkind, hn, typeName.qualify, hends.isPunct_eq_false]
  have hsplit : splitAngles ctx c.next = some ((), c.next) := by
    simp [splitAngles, hends.isPunct_eq_false]
  simp [typeReference, hname, typeArgumentsHere, hsplit, hends.isPunct_eq_false]

/-- Nothing is read behind a type that ends. -/
theorem run_postfixType (hends : c.token.EndsType) (start n : Nat) (type : Node) :
    postfixType g start (n + 1) type ctx c = some (type, c) := by
  simp [postfixType, hends.isPunct_eq_false]

/-- Words that are no name of a type: keywords, types that have a name in the language, and
operators on types. -/
def typeWords : List String :=
  Token.reserved ++ keywordTypes ++ ["keyof", "unique", "readonly", "infer", "abstract"]

/-- The text is a name that a type of the script's own can have. -/
def isTypeName (name : String) : Bool :=
  isNameChars name.toList && !typeWords.contains name

/-- A name that a type can have is none of the words that the rules ask for. -/
theorem contains_of_isTypeName {name : String} (h : isTypeName name = true) (ws : List String)
    (hws : ws ⊆ typeWords) : ws.contains name = false := by
  simp only [isTypeName, Bool.and_eq_true, Bool.not_eq_true', List.contains_eq_mem,
    decide_eq_false_iff_not] at h ⊢
  exact fun hmem => h.2 (hws hmem)

/-- The same for one word. -/
theorem beq_of_isTypeName {name : String} (h : isTypeName name = true) {w : String}
    (hw : w ∈ typeWords) : (name == w) = false := by
  have hcontains := contains_of_isTypeName h [w] (by simpa using hw)
  simpa using hcontains

/-- A name is read as a reference once all words are ruled out. -/
theorem run_simpleType_reference {name : String} (hkind : c.token.kind = .word name false)
    (hname : isTypeName name = true) (hends : c.next.token.EndsType) (hbound : 0 < c.bound) :
    simpleType g ctx c = some (.typeReference ⟨c.token.start, c.token.stop⟩
      (.reference ⟨c.token.start, c.token.stop⟩ name) [], c.next) := by
  have hkeyword := contains_of_isTypeName hname keywordTypes (by decide)
  have hliteral := contains_of_isTypeName hname ["void", "null", "true", "false"] (by decide)
  have hthis := beq_of_isTypeName hname (w := "this") (by decide)
  have htypeof := beq_of_isTypeName hname (w := "typeof") (by decide)
  have himport := beq_of_isTypeName hname (w := "import") (by decide)
  simp only [simpleType, run_bind, run_start, run_token, run_peek, Option.bind_some, hkind,
    hkeyword, hliteral, hthis, htypeof, himport, Bool.and_assoc, hends.not_subject, Bool.false_and,
    Bool.and_false, Bool.false_eq_true, if_false]
  exact run_typeReference hkind hends hbound

/-- A keyword is a type unless a dot makes it a name. -/
theorem run_simpleType_keyword {name : String} (hkind : c.token.kind = .word name false)
    (hname : name ∈ keywordTypes) (hdot : c.next.token.isPunct .dot = false) :
    simpleType g ctx c = some (.form .other ⟨c.token.start, c.token.stop⟩ [], c.next) := by
  simp [simpleType, hkind, hname, hdot]

/-- A type that is no operator is read as a single one with marks behind it. -/
theorem run_operatorTypeFuel {name : String} (hkind : c.token.kind = .word name false)
    (hname : name ∉ ["keyof", "unique", "readonly", "infer"]) {type : Node} {c' : Cursor}
    (h : simpleType g { ctx with allowsConditional := true } c = some (type, c')) (n : Nat) :
    operatorTypeFuel g (n + 1) ctx c = postfixType g c.token.start c'.bound type ctx c' := by
  simp at hname
  simp [operatorTypeFuel, isOneOf_of_word hkind, isWord_of_word hkind, hname, h]

/-- A name with no operator before it or behind it. -/
theorem run_operatorTypeFuel_reference {name : String} (hkind : c.token.kind = .word name false)
    (hname : isTypeName name = true) (hends : c.next.token.EndsType) (hbound : 0 < c.bound)
    (n : Nat) :
    operatorTypeFuel g (n + 1) ctx c = some (.typeReference ⟨c.token.start, c.token.stop⟩
      (.reference ⟨c.token.start, c.token.stop⟩ name) [], c.next) := by
  have hoperator := contains_of_isTypeName hname ["keyof", "unique", "readonly", "infer"]
    (by decide)
  obtain ⟨k, hk⟩ : ∃ k, c.bound = k + 1 := ⟨c.bound - 1, by omega⟩
  rw [run_operatorTypeFuel hkind (by simpa using hoperator)
    (run_simpleType_reference hkind hname hends hbound), Cursor.next_bound, hk]
  exact run_postfixType hends _ _ _

/-- A keyword with no operator before it or behind it. -/
theorem run_operatorTypeFuel_keyword {name : String} (hkind : c.token.kind = .word name false)
    (hname : name ∈ keywordTypes) (hends : c.next.token.EndsType) (hbound : 0 < c.bound) (n : Nat) :
    operatorTypeFuel g (n + 1) ctx c =
      some (.form .other ⟨c.token.start, c.token.stop⟩ [], c.next) := by
  have hdisjoint : ∀ w ∈ keywordTypes, w ∉ ["keyof", "unique", "readonly", "infer"] := by decide
  obtain ⟨k, hk⟩ : ∃ k, c.bound = k + 1 := ⟨c.bound - 1, by omega⟩
  rw [run_operatorTypeFuel hkind (hdisjoint name hname)
    (run_simpleType_keyword hkind hname (hends.isPunct_eq_false (by decide) (by decide))),
    Cursor.next_bound, hk]
  exact run_postfixType hends _ _ _

/-- A keyword and a pair of brackets. -/
theorem run_operatorTypeFuel_array {name : String} (hkind : c.token.kind = .word name false)
    (hname : name ∈ keywordTypes) (hopen : c.next.token.kind = .punct .lbrack)
    (hline : c.next.token.afterLineEnd = false) (hclose : c.next.next.token.kind = .punct .rbrack)
    (hends : c.next.next.next.token.EndsType) (hbound : 1 < c.bound) (n : Nat) :
    operatorTypeFuel g (n + 1) ctx c =
      some (.form .other ⟨c.token.start, c.next.next.token.stop⟩
        [.form .other ⟨c.token.start, c.token.stop⟩ []], c.next.next.next) := by
  have hdisjoint : ∀ w ∈ keywordTypes, w ∉ ["keyof", "unique", "readonly", "infer"] := by decide
  obtain ⟨k, hk⟩ : ∃ k, c.bound = k + 1 + 1 := ⟨c.bound - 2, by omega⟩
  rw [run_operatorTypeFuel hkind (hdisjoint name hname)
    (run_simpleType_keyword hkind hname (by simp [Token.isPunct, hopen])), Cursor.next_bound, hk,
    postfixType]
  simp [Token.isPunct, hopen, hline, hclose, run_postfixType hends]

/-- A single type is not joined with anything. -/
theorem run_joinedTypes_single {operator : Punct} {item : Parse Node} {type : Node} {c' : Cursor}
    (hfirst : c.token.isPunct operator = false) (h : item ctx c = some (type, c'))
    (hnext : c'.token.isPunct operator = false) (hbound : 0 < c'.bound) :
    joinedTypes operator item ctx c = some (type, c') := by
  obtain ⟨n, hn⟩ : ∃ n, c'.bound = n + 1 := ⟨c'.bound - 1, by omega⟩
  simp [joinedTypes, separated, separatedFuel, hfirst, h, hnext, hn]

/-- A type that opens no type of a function is a union, and is no condition at the end of a line. -/
theorem run_typeRule_union (hangle : c.token.isPunct .lt = false)
    (hparen : c.token.isPunct .lparen = false)
    (hnew : c.token.isWord "new" = false) (habstract : c.token.isWord "abstract" = false)
    {type : Node}
    {c' : Cursor} (hrun : unionType g ctx c = some (type, c'))
    (hline : c'.token.afterLineEnd = true) :
    typeRule g ctx c = some (type, c') := by
  have hfunction : atFunctionType g ctx c = some (false, c) := by
    simp only [atFunctionType, run_sees, run_bind, run_expect, hparen, Bool.false_eq_true, if_false,
      Option.bind_none, Option.map_none, Option.getD_none]
  rw [typeRule, run_step run_start, run_step run_token, run_step run_peek]
  simp only [hangle, hparen, hnew, habstract]
  rw [run_step hfunction]
  simp [hrun, hline]

/-- A type that starts with a word is no function, so that it is a union. -/
theorem run_typeRule {name : String} (hkind : c.token.kind = .word name false) (hnew : name ≠ "new")
    (habstract : name ≠ "abstract") {type : Node} {c' : Cursor}
    (hrun : unionType g ctx c = some (type, c')) (hline : c'.token.afterLineEnd = true) :
    typeRule g ctx c = some (type, c') :=
  run_typeRule_union (isPunct_of_word hkind _) (isPunct_of_word hkind _)
    (by simp [isWord_of_word hkind, hnew]) (by simp [isWord_of_word hkind, habstract]) hrun hline

/-! ### Members of an object type

A member is read from its key to the end of its line. The keys are names or strings, and what tells
them from the words of the language is the colon or the question mark behind them. -/

/-- The token is a key that is written out, and the node is what is made of it. -/
def IsKey (t : Token) (key : String) (node : Node) : Prop :=
  (t.kind = .word key false ∧ node = .plainName ⟨t.start, t.stop⟩ key) ∨
    (t.kind = .string key ∧ node = .string ⟨t.start, t.stop⟩ key)

/-- A key that is written out is no punctuation. -/
theorem IsKey.isPunct {t : Token} {key : String} {node : Node} (h : IsKey t key node) (p : Punct) :
    t.isPunct p = false := by
  obtain ⟨hkind, -⟩ | ⟨hkind, -⟩ := h <;> simp [Token.isPunct, hkind]

/-- Either way to write a key tells its name. -/
theorem IsKey.keyName? {t : Token} {key : String} {node : Node} (h : IsKey t key node) :
    node.keyName? = some key := by
  obtain ⟨-, rfl⟩ | ⟨-, rfl⟩ := h <;> rfl

/-- A key that is written out is read as it is, and is not computed. -/
theorem IsKey.run_propertyKey {key : String} {node : Node} (h : IsKey c.token key node) :
    propertyKey g ctx c = some ((false, node), c.next) := by
  obtain ⟨hkind, rfl⟩ | ⟨hkind, rfl⟩ := h
  · simp [propertyKey, plainName, anyName, hkind]
  · simp [propertyKey, string, hkind]

/-- The colon of a member stands at the cursor, or behind a question mark. -/
def ColonAt (c c₁ : Cursor) : Prop :=
  c₁.token.kind = .punct .colon ∧
    (c₁ = c ∨ c.token.kind = .punct .question ∧ c₁ = c.next)

/-- The key, the question mark if there is one, the colon and the type. -/
theorem run_namedTypeMember {key : String} {keyNode type : Node} {c₁ c' : Cursor}
    (htypes : ctx.dialect.types = true) (hkey : IsKey c.token key keyNode)
    (hcolon : ColonAt c.next c₁)
    (htype : g.type { ctx with allowsConditional := true } c₁.next = some (type, c')) :
    namedTypeMember g ctx c =
      some (.form .other ⟨c.token.start, c'.lastStop⟩ [keyNode, type], c') := by
  have hindex : atIndexSignature ctx c = some (false, c) := by
    simp [atIndexSignature, hkey.isPunct]
  have hskip : c.next.token.isMemberStart = false → ∀ ws, skipMemberWord ws ctx c =
      some ((), c) := by
    intro hnext ws
    simp [skipMemberWord, hnext]
  have htypes : typeAnnotation g ctx c₁ = some ([type], c') := by
    simp [ typeAnnotation, one, htypes, isPunct_of_punct hcolon.1, htype]
  obtain ⟨hcolon, rfl | ⟨hquestion, rfl⟩⟩ := hcolon
  · have hskip := hskip (by simp [Token.isMemberStart, hcolon])
    rw [namedTypeMember, run_step run_start, run_step (hskip _), run_step hindex]
    simp [hskip, hkey.run_propertyKey, isPunct_of_punct hcolon, htypes]
  · have hskip := hskip (by simp [Token.isMemberStart, hquestion])
    rw [namedTypeMember, run_step run_start, run_step (hskip _), run_step hindex]
    simp [hskip, hkey.run_propertyKey, isPunct_of_punct hquestion, isPunct_of_punct hcolon, htypes]

/-- A member with a key and a type that ends its line. -/
theorem run_typeMember {key : String} {keyNode type : Node} {c₁ c' : Cursor}
    (htypes : ctx.dialect.types = true) (hkey : IsKey c.token key keyNode)
    (hcolon : ColonAt c.next c₁)
    (htype : g.type { ctx with allowsConditional := true } c₁.next = some (type, c'))
    (hends : c'.token.EndsType) (hline : c'.token.afterLineEnd = true) :
    typeMember g ctx c = some (.form .other ⟨c.token.start, c'.lastStop⟩ [keyNode, type], c') := by
  have hnext : c.next.token.isPunct .lparen = false ∧ c.next.token.isPunct .lt = false := by
    obtain ⟨hcolon, rfl | ⟨hquestion, rfl⟩⟩ := hcolon
    · simp [isPunct_of_punct hcolon]
    · simp [isPunct_of_punct hquestion]
  simp [typeMember, hkey.isPunct, hnext, run_namedTypeMember htypes hkey hcolon htype,
    endTypeMember, endStatement, mayEnd, hline, hends.isPunct_eq_false]

/-- An object type whose first member has a key is no type that maps keys. -/
theorem run_atMappedType (hopen : c.token.kind = .punct .lcurly)
    (hnext : c.next.token.kind = .punct .rcurly ∨
      ∃ key node c₁, IsKey c.next.token key node ∧ ColonAt c.next.next c₁) :
    atMappedType ctx c = some (false, c) := by
  obtain hclose | ⟨key, node, c₁, hkey, hcolon⟩ := hnext
  · simp [atMappedType, isPunct_of_punct hopen, isPunct_of_punct hclose, isWord_of_punct hclose]
  · have hbrack : c.next.next.token.isPunct .lbrack = false := by
      obtain ⟨hcolon, rfl | ⟨hquestion, rfl⟩⟩ := hcolon
      · simp [isPunct_of_punct hcolon]
      · simp [isPunct_of_punct hquestion]
    cases hword : c.next.token.isWord "readonly" with
    | true => simp [atMappedType, isPunct_of_punct hopen, hkey.isPunct, hword, hbrack]
    | false => simp [atMappedType, isPunct_of_punct hopen, hkey.isPunct, hword]

/-- An object type on whose end the text ends. -/
theorem run_typeRule_object {members : List Node} {c' : Cursor}
    (hopen : c.token.kind = .punct .lcurly)
    (hmapped : atMappedType { ctx with allowsConditional := true } c = some (false, c))
    (hmembers : typeMembers g { ctx with allowsConditional := true } c = some (members, c'))
    (hend : c'.token.kind = .endOfText) (hline : c'.token.afterLineEnd = true)
    (hbound : 0 < c.bound)
    (hbound' : 0 < c'.bound) :
    typeRule g ctx c = some (.form .other ⟨c.token.start, c'.lastStop⟩ members, c') := by
  have hpunct : ∀ p, c'.token.isPunct p = false := by
    intro p
    simp [Token.isPunct, hend]
  obtain ⟨n, hn⟩ : ∃ n, c.bound = n + 1 := ⟨c.bound - 1, by omega⟩
  obtain ⟨m, hm⟩ : ∃ m, c'.bound = m + 1 := ⟨c'.bound - 1, by omega⟩
  have hsimple : simpleType g { ctx with allowsConditional := true } c =
      some (.form .other ⟨c.token.start, c'.lastStop⟩ members, c') := by
    simp [simpleType, hopen, hmapped, hmembers]
  have hoperator : operatorTypeFuel g (n + 1) ctx c =
      some (.form .other ⟨c.token.start, c'.lastStop⟩ members, c') := by
    simp [operatorTypeFuel, isOneOf_of_punct hopen, isWord_of_punct hopen, hsimple, hm, postfixType,
      hline]
  have hunion : unionType g ctx c =
      some (.form .other ⟨c.token.start, c'.lastStop⟩ members, c') := by
    refine run_joinedTypes_single (by simp [isPunct_of_punct hopen]) ?_ (hpunct _) hbound'
    refine run_joinedTypes_single (by simp [isPunct_of_punct hopen]) ?_ (hpunct _) hbound'
    rw [run_bind, run_bound, Option.bind_some, hn, hoperator]
  exact run_typeRule_union (by simp [isPunct_of_punct hopen]) (by simp [isPunct_of_punct hopen])
    (isWord_of_punct hopen _) (isWord_of_punct hopen _) hunion hline

/-! ### A name for a type

The tokens of the whole statement are collected in `AtAlias`, from which each rule on the way down
to the alias is run. -/

/-- The tokens of a name for a type stand at the cursor, and the type behind them ends the text. -/
structure AtAlias (g : Grammar) (ctx : Context) (c : Cursor) (name : String) (type : Node)
    (c' : Cursor) : Prop where
  keyword : c.token.kind = .word "type" false
  named : c.next.token.kind = .word name false
  line : c.next.token.afterLineEnd = false
  free : name ∉ "await" :: "yield" :: Token.reserved
  mark : c.next.next.token.kind = .punct .eq
  reads : g.type { ctx with allowsConditional := true } c.next.next.next = some (type, c')
  ends : c'.token.kind = .endOfText

namespace AtAlias

variable {name : String} {type : Node} {c' : Cursor} (h : AtAlias g ctx c name type c')

include h

/-- The name can be declared. -/
theorem isIdentifier : c.next.token.isIdentifier = true := by
  have hreserved := h.free
  simp only [List.mem_cons, not_or] at hreserved
  simpa [Token.isIdentifier, h.named] using hreserved.2.2

/-- The keyword decides which statement it is. -/
theorem isOneOf (ws : List String) : c.token.isOneOf ws = ws.contains "type" :=
  isOneOf_of_word h.keyword ws

theorem isWord (w : String) : c.token.isWord w = decide ("type" = w) := by
  rw [Bool.eq_iff_iff]
  simp [Token.isWord, h.keyword]

/-- The tree of the alias. -/
theorem run_typeAlias (start : Nat) : typeAlias g start ctx c =
    some (.form .other ⟨start, c'.lastStop⟩
      [.binding ⟨c.next.token.start, c.next.token.stop⟩ name [], type], c') := by
  have hreserved := h.free
  simp only [List.mem_cons, not_or] at hreserved
  have hends : ∀ p, c'.token.isPunct p = false := by
    intro p
    simp [Token.isPunct, h.ends]
  have hbinding : binding ctx c.next =
      some (.binding ⟨c.next.token.start, c.next.token.stop⟩ name [], c.next.next) := by
    simp [binding, identifier, h.named, h.isIdentifier, hreserved]
  simp [typeAlias, h.isWord, hbinding, typeParameters, isPunct_of_punct h.mark, h.reads,
    endStatement, mayEnd, h.ends, hends]

/-- No word stands before the keyword. -/
theorem run_typedDeclaration (htypes : ctx.dialect.types = true) (hbound : 0 < c.bound) :
    typedDeclaration g [] ctx c = some (.form .other ⟨c.token.start, c'.lastStop⟩
      [.binding ⟨c.next.token.start, c.next.token.stop⟩ name [], type], c') := by
  obtain ⟨n, hn⟩ : ∃ n, c.bound = n + 1 := ⟨c.bound - 1, by omega⟩
  have hplain : plainDeclaration g c.token.start [] ctx c =
      typeAlias g c.token.start ctx c := by
    simp [plainDeclaration, atFunction, h.isWord, htypes]
  simp [typedDeclaration, until?, hn, untilFuel, h.isOneOf, hplain, h.run_typeAlias,
    Node.startingAt]

/-- A name for a type is a statement of its own. -/
theorem run_statementRule (htypes : ctx.dialect.types = true) (hbound : 0 < c.bound) :
    statementRule g false ctx c = some (.form .other ⟨c.token.start, c'.lastStop⟩
      [.binding ⟨c.next.token.start, c.next.token.stop⟩ name [], type], c') := by
  obtain ⟨n, hn⟩ : ∃ n, c.bound = n + 1 := ⟨c.bound - 1, by omega⟩
  have hpunct := isPunct_of_word h.keyword
  have hdecorators : decorators g ctx c = some ([], c) := by
    simp [decorators, until?, hn, untilFuel, hpunct]
  have hat : atTypedDeclaration ctx c = some (true, c) := by
    simp [atTypedDeclaration, hn, atTypedDeclarationFuel, h.isOneOf, h.isIdentifier, h.line]
  rw [statementRule, run_step hdecorators, run_step run_start, run_step run_token,
    run_step run_peek]
  simp [hpunct, h.isWord, h.isOneOf, atUsing, atFunction, htypes, hat,
    h.run_typedDeclaration htypes hbound]

end AtAlias

end Grammar

end VueSetup.Script
