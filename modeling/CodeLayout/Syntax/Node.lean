import CodeLayout.Token

/-!
# Syntax trees

The tree is concrete: each token with structure appears in it as a leaf, in source order, and the
branches only group tokens. Where the grammar has to give up, the tokens go into a raw branch, so
that a text can always be written again from its tree.
-/

namespace CodeLayout

/-- What a branch of the tree stands for. -/
inductive NodeKind where
  | unit
  | packageDecl
  | importDecl
  | typeDecl
  /-- Annotations and modifier words in front of a declaration. -/
  | modifiers
  | annot
  | annotArgs
  /-- A name and its value among the arguments of an annotation. -/
  | pair
  /-- A word such as `extends` with its list of types. -/
  | clause
  | typeList
  | typeBody
  | enumBody
  | enumConstants
  | enumConstant
  | initializer
  | method
  | params
  | param
  | varDecl
  | declarators
  | declarator
  /-- A type, as a flat run of tokens. -/
  | type
  | block
  | ifStmt
  | whileStmt
  | doStmt
  | forStmt
  | forControl
  | tryStmt
  | resources
  | catchClause
  | finallyClause
  | switchStmt
  | switchBody
  | switchCase
  | returnStmt
  | throwStmt
  | jump
  | yieldStmt
  | assertStmt
  | synchronizedStmt
  | labeled
  | exprStmt
  | emptyStmt
  /-- Tokens that the grammar could not make sense of. -/
  | raw
  /-- A chain of operands of one precedence. -/
  | binary
  /-- An operator, possibly of several tokens that touch. -/
  | operator
  | assign
  | conditional
  | unary
  | postfixExpr
  | cast
  | paren
  | call
  | args
  | select
  | index
  | creation
  | arrayInit
  | lambda
  | methodRef
  deriving DecidableEq, Repr, Inhabited

namespace NodeKind

/-- The kinds in the order of their numbers, which start at two. -/
def all : List NodeKind :=
  [unit, packageDecl, importDecl, typeDecl, modifiers, annot, annotArgs, pair, clause, typeList,
    typeBody, enumBody, enumConstants, enumConstant, initializer, method, params, param, varDecl,
    declarators, declarator, type, block, ifStmt, whileStmt, doStmt, forStmt, forControl, tryStmt,
    resources, catchClause, finallyClause, switchStmt, switchBody, switchCase, returnStmt,
    throwStmt, jump, yieldStmt, assertStmt, synchronizedStmt, labeled, exprStmt, emptyStmt, raw,
    binary, operator, assign, conditional, unary, postfixExpr, cast, paren, call, args, select,
    index, creation, arrayInit, lambda, methodRef]

/-- The name of a kind. -/
def name : NodeKind → Bytes
  | .unit => ascii "Unit"
  | .packageDecl => ascii "Package"
  | .importDecl => ascii "Import"
  | .typeDecl => ascii "TypeDecl"
  | .modifiers => ascii "Modifiers"
  | .annot => ascii "Annotation"
  | .annotArgs => ascii "AnnotationArgs"
  | .pair => ascii "Pair"
  | .clause => ascii "Clause"
  | .typeList => ascii "TypeList"
  | .typeBody => ascii "TypeBody"
  | .enumBody => ascii "EnumBody"
  | .enumConstants => ascii "EnumConstants"
  | .enumConstant => ascii "EnumConstant"
  | .initializer => ascii "Initializer"
  | .method => ascii "Method"
  | .params => ascii "Params"
  | .param => ascii "Param"
  | .varDecl => ascii "Var"
  | .declarators => ascii "Declarators"
  | .declarator => ascii "Declarator"
  | .type => ascii "Type"
  | .block => ascii "Block"
  | .ifStmt => ascii "If"
  | .whileStmt => ascii "While"
  | .doStmt => ascii "Do"
  | .forStmt => ascii "For"
  | .forControl => ascii "ForControl"
  | .tryStmt => ascii "Try"
  | .resources => ascii "Resources"
  | .catchClause => ascii "Catch"
  | .finallyClause => ascii "Finally"
  | .switchStmt => ascii "Switch"
  | .switchBody => ascii "SwitchBody"
  | .switchCase => ascii "Case"
  | .returnStmt => ascii "Return"
  | .throwStmt => ascii "Throw"
  | .jump => ascii "Jump"
  | .yieldStmt => ascii "Yield"
  | .assertStmt => ascii "Assert"
  | .synchronizedStmt => ascii "Synchronized"
  | .labeled => ascii "Labeled"
  | .exprStmt => ascii "ExprStmt"
  | .emptyStmt => ascii "Empty"
  | .raw => ascii "Raw"
  | .binary => ascii "Binary"
  | .operator => ascii "Operator"
  | .assign => ascii "Assign"
  | .conditional => ascii "Conditional"
  | .unary => ascii "Unary"
  | .postfixExpr => ascii "Postfix"
  | .cast => ascii "Cast"
  | .paren => ascii "Paren"
  | .call => ascii "Call"
  | .args => ascii "Args"
  | .select => ascii "Select"
  | .index => ascii "Index"
  | .creation => ascii "New"
  | .arrayInit => ascii "ArrayInit"
  | .lambda => ascii "Lambda"
  | .methodRef => ascii "MethodRef"

/-- The names of all kinds of nodes in the order of their numbers, with those of no node and of a
leaf in front. -/
def nameOfCode : Nat → Bytes
  | 0 => ascii "Invalid"
  | 1 => ascii "Token"
  | n + 2 =>
    match all[n]? with
    | some k => k.name
    | none => ascii "Kind(" ++ natDigits (n + 2) ++ ascii ")"

end NodeKind

/-- A syntax tree. -/
inductive Node where
  /-- A token with its index in the stream. -/
  | leaf (id : Nat) (token : Token)
  /-- A group of nodes and the range of bytes it covers. -/
  | branch (kind : NodeKind) (start stop : Nat) (children : List Node)
  deriving Repr, Inhabited

namespace Node

/-- Where a node starts. -/
def start : Node → Nat
  | .leaf _ t => t.start
  | .branch _ start _ _ => start

/-- The offset behind a node. -/
def stop : Node → Nat
  | .leaf _ t => t.stop
  | .branch _ _ stop _ => stop

/-- The children of a node. -/
def children : Node → List Node
  | .leaf _ _ => []
  | .branch _ _ _ cs => cs

/-- The kind of a branch. -/
def kind? : Node → Option NodeKind
  | .leaf _ _ => none
  | .branch k _ _ _ => some k

/-- Whether a node is a branch of a kind. -/
def isKind (k : NodeKind) (n : Node) : Bool :=
  n.kind? = some k

/-- Whether a node holds no token. -/
def isEmpty : Node → Bool
  | .leaf _ _ => false
  | .branch _ _ _ cs => cs.isEmpty

/-- The text of a leaf. -/
def text? : Node → Option Bytes
  | .leaf _ t => some t.text
  | .branch .. => none

/-- Whether a node is a leaf with a text. -/
def isToken (n : Node) (text : Bytes) : Bool :=
  n.text? == some text

/-- A branch of a kind. Children that are missing or hold no token are left out, and the branch
covers the range from its first child to its last. -/
def make (kind : NodeKind) (children : List (Option Node)) : Node :=
  let kept := children.filterMap fun c => c.filter fun n => !n.isEmpty
  .branch kind ((kept.head?.map start).getD 0) ((kept.getLast?.map stop).getD 0) kept

/-- The first child of a kind. -/
def first? (n : Node) (k : NodeKind) : Option Node :=
  n.children.find? (isKind k)

mutual

/-- The leaves of a tree from left to right, each with its index. -/
def leaves : Node → List (Nat × Token)
  | .leaf id t => [(id, t)]
  | .branch _ _ _ cs => leavesList cs

/-- The leaves of a list of trees. -/
def leavesList : List Node → List (Nat × Token)
  | [] => []
  | n :: ns => leaves n ++ leavesList ns

end

/-- The index of the first leaf of a tree. -/
def firstId? (n : Node) : Option Nat :=
  n.leaves.head?.map (·.1)

mutual

/-- A tree as nested lists in parentheses, each headed by the name of its kind. -/
def render : Node → Bytes
  | .leaf _ t => t.text
  | .branch k _ _ cs => ascii "(" ++ k.name ++ renderList cs ++ ascii ")"

/-- A list of trees, each behind a space. -/
def renderList : List Node → Bytes
  | [] => []
  | n :: ns => ascii " " ++ render n ++ renderList ns

end

mutual

/-- The nodes of a tree, each before its children. -/
def preorder : Node → List Node
  | .leaf id t => [.leaf id t]
  | .branch k a b cs => .branch k a b cs :: preorderList cs

/-- The nodes of a list of trees. -/
def preorderList : List Node → List Node
  | [] => []
  | n :: ns => preorder n ++ preorderList ns

end

/-- The name of the kind of a node. -/
def kindName : Node → Bytes
  | .leaf _ _ => NodeKind.nameOfCode 1
  | .branch k _ _ _ => k.name

mutual

/-- The number of levels of a tree. -/
def depth : Node → Nat
  | .leaf _ _ => 1
  | .branch _ _ _ cs => 1 + depthList cs

/-- The number of levels of the deepest tree of a list. -/
def depthList : List Node → Nat
  | [] => 0
  | n :: ns => max (depth n) (depthList ns)

end

end Node

end CodeLayout
