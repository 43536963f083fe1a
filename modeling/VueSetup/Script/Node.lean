import VueSetup.Span

/-!
# VueSetup.Script.Node

The syntax tree of a script.

A node kind of its own is given to what a component's script is read by: literals, objects, calls,
members, functions, imports, default exports. All else is a `form`, of which only the parts count:
a search through the tree for names, literals or calls goes through them, and the tag of a form
says no more than the grammar itself has to know about it, and which names it declares for whom.

A node has a `reference` in it for each use of a name as a value or as a type; names that are
declared are `binding`s, and all others (members, labels, keys) are `plainName`s.
-/

namespace VueSetup.Script

/-- Literals without parts and without a value that matters. -/
inductive Literal where
  | null
  | number
  | bigint
  | regex
  deriving DecidableEq, Repr

/-- What the grammar knows about a construct that has no node kind of its own. -/
inductive Form where
  /-- A member by a computed key, or a private one. -/
  | index
  /-- An expression said not to be null. -/
  | nonNull
  /-- An expression with a type in angle brackets before it. -/
  | assertion
  /-- An assignment by a plain `=`: the target and the value. -/
  | assignment
  /-- A logical operation by `??`. -/
  | coalesce
  /-- A logical operation by `||` or `&&`. -/
  | logic
  /-- An awaited expression. -/
  | await
  /-- A member of an object that is a name with a value to fall back on. It has a meaning only where
  the object is a target of an assignment. -/
  | coverDefault
  /-- A target and the value to fall back on. -/
  | fallback
  /-- What a pattern binds the rest to. -/
  | rest
  /-- A pattern of an object or of an array. -/
  | pattern
  /-- An empty place of an array. -/
  | hole
  /-- A declaration of variables: its declarators. A hoisted one, by `var`, is known in the whole
  function and not only in the block that it stands in. -/
  | variableDeclaration (hoisted : Bool)
  /-- A declarator: a pattern, then its type and its value. -/
  | declarator
  /-- A declaration of a function: its name, then the function. -/
  | functionDeclaration
  /-- A declaration of a class: its name comes first. -/
  | classDeclaration
  /-- A declaration of an enumeration: its name, then its members. -/
  | enumeration
  /-- A declaration of a namespace: its name, then its statements. -/
  | namespace
  /-- A name for a module or for a member of a namespace: the name comes first. -/
  | moduleAlias
  /-- Parts for which what they declare is known: the statements of a block, the cases of a
  `switch`, what a handler catches and its block. -/
  | scope
  /-- A case of a `switch`. What it declares is known in all of them. -/
  | case
  /-- A loop. What its head declares is known in it. -/
  | loop
  /-- Code that runs once, when a class is made. -/
  | staticBlock
  /-- A statement that is one expression. -/
  | expressionStatement
  /-- Any other construct. -/
  | other
  deriving DecidableEq, Repr

/-- The ways in which a name is imported. -/
inductive ImportKind where
  | default
  | all
  | named
  deriving DecidableEq, Repr

/-- One imported name. -/
structure ImportSpecifier where
  kind : ImportKind
  span : Span
  /-- The name by which the importing script knows it. -/
  localName : String
  deriving DecidableEq, Repr

/-- A node of the syntax tree. -/
inductive Node where
  /-- A name used as a value or as a type. -/
  | reference (span : Span) (name : String)
  /-- A name that is neither used nor declared. -/
  | plainName (span : Span) (text : String)
  /-- A name that is declared, with its type and its decorators. -/
  | binding (span : Span) (name : String) (parts : List Node)
  | string (span : Span) (value : String)
  | boolean (span : Span) (value : Bool)
  | literal (span : Span) (kind : Literal)
  /-- A template with its embedded expressions. -/
  | template (span : Span) (embedded : List Node)
  | object (span : Span) (members : List Node)
  /-- A member of an object. -/
  | property (span : Span) (computed : Bool) (key value : Node)
  | spread (span : Span) (operand : Node)
  | array (span : Span) (elements : List Node)
  /-- An expression in parentheses. -/
  | paren (span : Span) (inner : Node)
  | call (span : Span) (callee : Node) (types arguments : List Node)
  /-- A member by its name. -/
  | member (span : Span) (object : Node) (property : String)
  /-- An operator before its operand; `negation` tells a minus from the others. -/
  | unary (span : Span) (negation : Bool) (operand : Node)
  /-- An expression taken as of a type. -/
  | asType (span : Span) (operand target : Node)
  /-- An expression checked against a type. -/
  | satisfies (span : Span) (operand target : Node)
  /-- A type by its name. -/
  | typeReference (span : Span) (name : Node) (arguments : List Node)
  /-- A function; `rest` and `body` hold one node at most. -/
  | function (span : Span) (params rest parts body : List Node)
  /-- A function by an arrow; its body is a `block` or an expression. -/
  | arrow (span : Span) (params rest parts : List Node) (body : Node)
  /-- The body of a function. Its span includes the braces. -/
  | block (span : Span) (directives statements : List Node)
  | importDeclaration (span : Span) (specifiers : List ImportSpecifier) (parts : List Node)
  | exportDefault (span : Span) (value : Node)
  /-- An export by name, with the names that it exports as values. -/
  | exportNamed (span : Span) (names : List String) (parts : List Node)
  | returnStatement (span : Span) (parts : List Node)
  | form (kind : Form) (span : Span) (parts : List Node)
  deriving Repr, Inhabited

namespace Node

/-- The stretch of the script that the node covers. -/
def span : Node → Span
  | .reference s _ | .plainName s _ | .binding s _ _ | .string s _ | .boolean s _ | .literal s _
  | .template s _ | .object s _ | .property s _ _ _ | .spread s _ | .array s _ | .paren s _
  | .call s _ _ _ | .member s _ _ | .unary s _ _ | .asType s _ _ | .satisfies s _ _
  | .typeReference s _ _ | .function s _ _ _ _ | .arrow s _ _ _ _ | .block s _ _
  | .importDeclaration s _ _ | .exportDefault s _ | .exportNamed s _ _ | .returnStatement s _
  | .form _ s _ => s

/-- The construct with words before it that belong to it and start at the given byte. -/
def startingAt (start : Nat) : Node → Node
  | .form kind span parts => .form kind ⟨start, span.stop⟩ parts
  | n => n

mutual

/-- The node and all nodes below it. A node comes before what is below it. -/
def nodes : Node → List Node
  | n@(.reference ..) | n@(.plainName ..) | n@(.string ..) | n@(.boolean ..)
  | n@(.literal ..) => [n]
  | n@(.binding _ _ ps) | n@(.template _ ps) | n@(.object _ ps) | n@(.array _ ps)
  | n@(.importDeclaration _ _ ps) | n@(.exportNamed _ _ ps) | n@(.returnStatement _ ps)
  | n@(.form _ _ ps) => n :: nodesOf ps
  | n@(.spread _ a) | n@(.paren _ a) | n@(.member _ a _) | n@(.unary _ _ a)
  | n@(.exportDefault _ a) => n :: nodes a
  | n@(.property _ _ a b) | n@(.asType _ a b) | n@(.satisfies _ a b) => n :: nodes a ++ nodes b
  | n@(.typeReference _ a ps) => n :: nodes a ++ nodesOf ps
  | n@(.call _ a ts ps) => n :: nodes a ++ nodesOf ts ++ nodesOf ps
  | n@(.block _ ds ss) => n :: nodesOf ds ++ nodesOf ss
  | n@(.function _ ps rs ts bs) => n :: nodesOf ps ++ nodesOf rs ++ nodesOf ts ++ nodesOf bs
  | n@(.arrow _ ps rs ts b) => n :: nodesOf ps ++ nodesOf rs ++ nodesOf ts ++ nodes b

/-- All nodes of a list of trees. -/
def nodesOf : List Node → List Node
  | [] => []
  | n :: ns => nodes n ++ nodesOf ns

end

/-- The name of a key that is a word or a string. -/
def keyName? : Node → Option String
  | .plainName _ name => some name
  | .string _ value => some value
  | _ => none

/-- The name that a use of a name uses. -/
def referenceName? : Node → Option String
  | .reference _ name => some name
  | _ => none

mutual

/-- The names that a pattern or a declaration declares. -/
def boundNames : Node → List String
  | .binding _ name _ => [name]
  | .property _ _ _ value => boundNames value
  | .form .fallback _ (target :: _) => boundNames target
  | .form .declarator _ (target :: _) => boundNames target
  | .form .functionDeclaration _ (name :: _) => boundNames name
  | .form .classDeclaration _ (name :: _) => boundNames name
  | .form .pattern _ parts => boundNamesOf parts
  | .form .rest _ parts => boundNamesOf parts
  | .form (.variableDeclaration _) _ parts => boundNamesOf parts
  | _ => []

/-- The names that a list of patterns declares. -/
def boundNamesOf : List Node → List String
  | [] => []
  | n :: ns => boundNames n ++ boundNamesOf ns

end

mutual

/-- Read an expression as the target of an assignment; `none` when it is none. -/
def toTarget? : Node → Option Node
  | n@(.reference ..) | n@(.member ..) | n@(.form .index ..) => some n
  | .array span elements => (toTargets? elements).map (.array span)
  | .object span members => (toTargetMembers? members).map (.object span)
  | n => toSimpleTarget? n

/-- Read an expression as a target that is not taken apart. -/
def toSimpleTarget? : Node → Option Node
  | n@(.reference ..) | n@(.member ..) | n@(.form .index ..) => some n
  | .paren span inner => (toSimpleTarget? inner).map (.paren span)
  | .asType span operand type => (toSimpleTarget? operand).map (.asType span · type)
  | .satisfies span operand type => (toSimpleTarget? operand).map (.satisfies span · type)
  | .form .nonNull span [operand] => (toSimpleTarget? operand).map fun t => .form .nonNull span [t]
  | .form .assertion span [type, operand] =>
    (toSimpleTarget? operand).map fun t => .form .assertion span [type, t]
  | _ => none

/-- Read an element of an array or the value of a member as a target that may have a value to fall
back on. -/
def toTargetOrFallback? : Node → Option Node
  | n@(.form .hole ..) => some n
  | .form .assignment span (target :: value) => some (.form .fallback span (target :: value))
  | .array span elements => (toTargets? elements).map (.array span)
  | .object span members => (toTargetMembers? members).map (.object span)
  | n@(.reference ..) | n@(.member ..) | n@(.form .index ..) => some n
  | n => toSimpleTarget? n

/-- Read the elements of an array as targets. What is left over goes to the last one only. -/
def toTargets? : List Node → Option (List Node)
  | [] => some []
  | [.spread span operand] => (toTarget? operand).map fun t => [.spread span t]
  | n :: ns => do return (← toTargetOrFallback? n) :: (← toTargets? ns)

/-- Read the members of an object as targets. -/
def toTargetMembers? : List Node → Option (List Node)
  | [] => some []
  | [.spread span operand] => (toTarget? operand).map fun t => [.spread span t]
  | .property span computed key value :: ns => do
    return .property span computed key (← toTargetOrFallback? value) :: (← toTargetMembers? ns)
  | .form .coverDefault span parts :: ns => do
    return .form .fallback span parts :: (← toTargetMembers? ns)
  | _ => none

end

end Node

/-- A script. -/
structure Program where
  directives : List Node
  statements : List Node
  deriving Repr, Inhabited

/-- All nodes of a script. -/
def Program.nodes (p : Program) : List Node :=
  Node.nodesOf p.directives ++ Node.nodesOf p.statements

end VueSetup.Script
