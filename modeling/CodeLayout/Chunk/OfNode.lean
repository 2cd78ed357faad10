import CodeLayout.Chunk.Declaration
import CodeLayout.Chunk.Expression
import CodeLayout.Chunk.Statement

/-!
# The chunks of a syntax tree

The builders of all kinds of nodes are tied together. The chunks of a whole text have each of its
tokens and comments once and in order, or building is a fault.
-/

namespace CodeLayout

namespace Build

variable (x : BuildContext)

/-- The chunk of a node in terms of the chunks of the nodes below it. -/
def production (build : NodeBuilder) : NodeBuilder
  | .leaf id t => some <$> token x id t
  | .branch kind start stop children =>
    let n : Node := .branch kind start stop children
    match kind with
    | .packageDecl | .importDecl => qualified build n
    | .typeDecl => typeDecl x build n
    | .modifiers => modifiers x build false n
    | .annot => annot x build n
    | .annotArgs => list x build .annotationArguments children
    | .clause => clause x build .superinterfaces n
    | .typeList => typeList x build n
    | .typeBody | .switchBody | .block => block x build n
    | .enumBody => enumBody x build n
    | .enumConstant => enumConstant x build n
    | .pair | .initializer | .tryStmt | .switchStmt => spacedNodes build children
    | .method => method x build n
    | .params => list x build .methodParameters children
    | .param => param x build n
    | .varDecl => varDecl x build false n
    | .declarators => declarators x build n
    | .declarator => declarator x build n
    | .type => type x build n
    | .ifStmt => ifStmt x build n
    | .whileStmt | .synchronizedStmt | .catchClause | .finallyClause => wordStmt x build n
    | .doStmt => doStmt x build n
    | .forStmt => forStmt x build n
    | .forControl => forControl x build n
    | .resources => resources x build n
    | .switchCase => switchCase x build n
    | .returnStmt | .throwStmt | .jump | .yieldStmt | .assertStmt => simpleStmt build n
    | .labeled => labeled x build n
    | .binary => binary x build n
    | .assign => assign x build n
    | .conditional => conditional x build n
    | .unary => unary build n
    | .cast => cast build n
    | .call => call x build n
    | .args => list x build .invocationArguments children
    | .select => selectChain x build n
    | .creation => creation x build n
    | .arrayInit => arrayInit x build n
    | .lambda => lambda x build n
    | .exprStmt | .emptyStmt | .operator | .postfixExpr | .paren | .index | .methodRef =>
      gluedNodes build children
    | .unit | .enumConstants | .raw => raw x build n

/-- The chunks of nodes with at most `depth` levels. -/
def within : Nat → NodeBuilder
  | 0 => fun _ => return none
  | depth + 1 => production x (within depth)

/-- The items of a whole text, with the comments at its end. -/
def unit (root : Node) : Build (List Chunk) := do
  let own ← items x (item x (within x root.depth)) root.children
  return own ++ (← detach x none true)

end Build

/-- The index of the comment that heads a file: a block comment that comes before all tokens. -/
def TokenStream.header? (s : TokenStream) : Option Nat :=
  match s.tokens.toList.zipIdx.find? fun (t, _) => t.kind != .space with
  | some (t, i) => if t.kind = .comment && CommentStyle.ofText t.text != .line then some i else none
  | none => none

/-- What building depends on for a stream. -/
def TokenStream.buildContext (s : TokenStream) (style : Style) : BuildContext where
  style
  tokens := s.tokens
  header := s.header?

/-- The indices of all tokens and comments of a stream. -/
def TokenStream.significant (s : TokenStream) : List Nat :=
  (s.tokens.toList.zipIdx.filter fun (t, _) => t.kind != .space).map (·.2)

/-- The chunks of the tree of a token stream. -/
def Chunk.ofNode (s : TokenStream) (root : Node) (style : Style) (regions : Regions) :
    Except Fault Chunk :=
  let (items, state) := (Build.unit (s.buildContext style) root).run
    { trivia := TriviaIndex.ofStream s style regions }
  let wanted := s.significant
  if state.placed.reverse = wanted then
    .ok (.block { breakAfter := .mandatory } none none false items)
  else .error (.uncovered state.placed.length wanted.length)

end CodeLayout
