import CodeLayout.Chunk.OfNode
import Mathlib.Data.List.Induction

/-!
# Chunks do not depend on policies

The policies of a style say how groups are laid out, not which groups there are. So the chunks of a
tree, and all that is read off the tokens before, are the same under any policies.
-/

namespace CodeLayout

/-- The style with other policies. -/
def Style.withPolicies (s : Style) (f : WrapContext → Policy) : Style :=
  { s with policies := f }

variable {f : WrapContext → Policy}

theorem Regions.ofStream_withPolicies (t : TokenStream) (s : Style) :
    Regions.ofStream t (s.withPolicies f) = Regions.ofStream t s :=
  rfl

namespace Trivia

/-- The source of the comments with other policies. -/
def Source.withPolicies (s : Source) (f : WrapContext → Policy) : Source :=
  { s with style := s.style.withPolicies f }

variable (s : Source)

theorem standsUnder_withPolicies : standsUnder (s.withPolicies f) = standsUnder s :=
  rfl

theorem stackedUnder_withPolicies (last : Entry) (es : List Entry) :
    stackedUnder (s.withPolicies f) last es = stackedUnder s last es := by
  fun_induction stackedUnder s last es with
  | case1 last space comment rest h more left heq ih =>
      rw [stackedUnder, standsUnder_withPolicies, if_pos h, ih, heq]
  | case2 last space comment rest h =>
      rw [stackedUnder, standsUnder_withPolicies, if_neg h]
  | case3 last es h =>
      unfold stackedUnder
      split
      · exact absurd rfl (h _ _ _)
      · rfl

theorem splitTrailing_withPolicies :
    splitTrailing (s.withPolicies f) = splitTrailing s := by
  funext atEnd pending
  simp only [splitTrailing, stackedUnder_withPolicies]

theorem add_withPolicies : Runs.add (s.withPolicies f) = Runs.add s :=
  rfl

theorem addGap_withPolicies : addGap (s.withPolicies f) = addGap s := by
  funext x prev pending next
  simp only [addGap, splitTrailing_withPolicies, add_withPolicies]

theorem addGaps_withPolicies (x : TriviaIndex) (prev : Option Entry) (pending es : List Entry) :
    addGaps (s.withPolicies f) x prev pending es = addGaps s x prev pending es := by
  induction es generalizing x prev pending with
  | nil => simp only [addGaps, addGap_withPolicies]
  | cons e es ih => simp only [addGaps, addGap_withPolicies, ih]

end Trivia

theorem TriviaIndex.ofStream_withPolicies (t : TokenStream) (s : Style) (regions : Regions) :
    TriviaIndex.ofStream t (s.withPolicies f) regions = TriviaIndex.ofStream t s regions :=
  Trivia.addGaps_withPolicies ⟨t.file, s, regions⟩ _ _ _ _

/-- What building depends on, with other policies. -/
def BuildContext.withPolicies (x : BuildContext) (f : WrapContext → Policy) : BuildContext :=
  { x with style := x.style.withPolicies f }

namespace Build

variable (x : BuildContext)

section Basic

theorem comment_withPolicies : comment (x.withPolicies f) = comment x :=
  rfl

theorem leadingComments_withPolicies (runs : List CommentRun) :
    leadingComments (x.withPolicies f) runs = leadingComments x runs := by
  induction runs with
  | nil => rfl
  | cons run runs ih => simp only [leadingComments, comment_withPolicies, ih]

@[simp] theorem token_withPolicies : token (x.withPolicies f) = token x := by
  funext id t
  simp only [token, leadingComments_withPolicies, comment_withPolicies]

@[simp] theorem detach_withPolicies : detach (x.withPolicies f) = detach x :=
  rfl

@[simp] theorem blankBefore_withPolicies : blankBefore (x.withPolicies f) = blankBefore x :=
  rfl

@[simp] theorem element_withPolicies : element (x.withPolicies f) = element x :=
  rfl

@[simp] theorem breaksBehind_withPolicies : breaksBehind (x.withPolicies f) = breaksBehind x :=
  rfl

end Basic

variable (build : NodeBuilder)

section Lists

@[simp] theorem items_withPolicies (item : NodeBuilder) (ns : List Node) :
    items (x.withPolicies f) item ns = items x item ns := by
  induction ns with
  | nil => rfl
  | cons n ns ih => simp only [items, detach_withPolicies, blankBefore_withPolicies, ih]

@[simp] theorem elements_withPolicies (sep : Bytes) (isFirst : Bool) (ns : List Node) :
    elements (x.withPolicies f) build sep isFirst ns = elements x build sep isFirst ns := by
  fun_induction elements x build sep isFirst ns with
  | case1 => rfl
  | case2 => simp only [elements, element_withPolicies]
  | case3 isFirst n s rest ihsame ihnext ihkept ihbehind =>
      simp only [elements, element_withPolicies, ihsame, ihnext, ihkept, ihbehind]

@[simp] theorem list_withPolicies : list (x.withPolicies f) = list x := by
  funext build context children
  simp only [list, elements_withPolicies]

@[simp] theorem annot_withPolicies : annot (x.withPolicies f) = annot x := by
  funext build n
  simp only [annot, list_withPolicies]

@[simp] theorem typePart_withPolicies : typePart (x.withPolicies f) = typePart x := by
  funext build acc n
  simp only [typePart, annot_withPolicies]

@[simp] theorem type_withPolicies : type (x.withPolicies f) = type x := by
  funext build n
  simp only [type, typePart_withPolicies]

@[simp] theorem modifiers_withPolicies : modifiers (x.withPolicies f) = modifiers x :=
  rfl

@[simp] theorem braces_withPolicies : braces (x.withPolicies f) = braces x := by
  funext build item n
  simp only [braces, items_withPolicies, detach_withPolicies]

@[simp] theorem assignment_withPolicies : assignment (x.withPolicies f) = assignment x :=
  rfl

@[simp] theorem param_withPolicies : param (x.withPolicies f) = param x := by
  funext build n
  simp only [param, modifiers_withPolicies]

@[simp] theorem varDecl_withPolicies : varDecl (x.withPolicies f) = varDecl x := by
  funext build decl n
  simp only [varDecl, modifiers_withPolicies]

@[simp] theorem item_withPolicies : item (x.withPolicies f) = item x := by
  funext build n
  simp only [item, varDecl_withPolicies]

@[simp] theorem block_withPolicies : block (x.withPolicies f) = block x := by
  funext build n
  simp only [block, braces_withPolicies, item_withPolicies]

end Lists

section Expressions

@[simp] theorem operands_withPolicies (ns : List Node) :
    operands (x.withPolicies f) build ns = operands x build ns := by
  fun_induction operands x build ns with
  | case1 => rfl
  | case2 => simp only [operands, element_withPolicies]
  | case3 op operand rest ih => simp only [operands, element_withPolicies, ih]

@[simp] theorem binary_withPolicies : binary (x.withPolicies f) = binary x := by
  funext build n
  simp only [binary, operands_withPolicies]

@[simp] theorem assign_withPolicies : assign (x.withPolicies f) = assign x := by
  funext build n
  simp only [assign, assignment_withPolicies]

@[simp] theorem branches_withPolicies (ns : List Node) :
    branches (x.withPolicies f) build ns = branches x build ns := by
  fun_induction branches x build ns with
  | case1 => rfl
  | case2 => simp only [branches, element_withPolicies]
  | case3 op branch rest ihsame ihbehind =>
      simp only [branches, element_withPolicies, ihsame, ihbehind]

@[simp] theorem conditional_withPolicies : conditional (x.withPolicies f) = conditional x := by
  funext build n
  simp only [conditional, branches_withPolicies]

@[simp] theorem call_withPolicies : call (x.withPolicies f) = call x := by
  funext build n
  simp only [call, list_withPolicies]

@[simp] theorem chainElements_withPolicies (start : Node) (parts : List Chunk)
    (steps : List Selection) :
    chainElements (x.withPolicies f) build start parts steps =
      chainElements x build start parts steps := by
  induction steps generalizing start parts with
  | nil => rfl
  | cons s steps ih => simp only [chainElements, element_withPolicies, ih]

@[simp] theorem selectChain_withPolicies : selectChain (x.withPolicies f) = selectChain x := by
  funext build n
  simp only [selectChain, chainElements_withPolicies]

@[simp] theorem creation_withPolicies : creation (x.withPolicies f) = creation x := by
  funext build n
  simp only [creation, list_withPolicies]

@[simp] theorem arrayInit_withPolicies : arrayInit (x.withPolicies f) = arrayInit x := by
  funext build n
  simp only [arrayInit, elements_withPolicies]

@[simp] theorem lambda_withPolicies : lambda (x.withPolicies f) = lambda x := by
  funext build n
  simp only [lambda, list_withPolicies]

end Expressions

section Statements

@[simp] theorem body_withPolicies : body (x.withPolicies f) = body x := by
  funext build parts n
  simp only [body, block_withPolicies, items_withPolicies, item_withPolicies]

@[simp] theorem ifParts_withPolicies (parts : List Chunk) (ns : List Node) :
    ifParts (x.withPolicies f) build parts ns = ifParts x build parts ns := by
  induction ns using List.twoStepInduction generalizing parts with
  | nil => rfl
  | singleton n => simp only [ifParts, body_withPolicies]
  | cons_cons n m rest ihrest ih =>
      have hnext := fun parts => ih m parts
      simp only [ifParts, body_withPolicies, ihrest, hnext]

@[simp] theorem ifStmt_withPolicies : ifStmt (x.withPolicies f) = ifStmt x := by
  funext build n
  simp only [ifStmt, ifParts_withPolicies]

@[simp] theorem wordStmt_withPolicies : wordStmt (x.withPolicies f) = wordStmt x := by
  funext build n
  simp only [wordStmt, param_withPolicies, body_withPolicies]

@[simp] theorem doStmt_withPolicies : doStmt (x.withPolicies f) = doStmt x := by
  funext build n
  simp only [doStmt, body_withPolicies]

@[simp] theorem forStmt_withPolicies : forStmt (x.withPolicies f) = forStmt x := by
  funext build n
  simp only [forStmt, body_withPolicies]

@[simp] theorem forParts_withPolicies (behindParen : Bool) (parts : List Chunk) (ns : List Node) :
    forParts (x.withPolicies f) build behindParen parts ns =
      forParts x build behindParen parts ns := by
  induction ns generalizing behindParen parts with
  | nil => rfl
  | cons n ns ih => simp only [forParts, varDecl_withPolicies, param_withPolicies, ih]

@[simp] theorem forControl_withPolicies : forControl (x.withPolicies f) = forControl x := by
  funext build n
  simp only [forControl, forParts_withPolicies]

@[simp] theorem resources_withPolicies : resources (x.withPolicies f) = resources x := by
  funext build n
  simp only [resources, elements_withPolicies]

@[simp] theorem caseParts_withPolicies (parts : List Chunk) (ns : List Node) :
    caseParts (x.withPolicies f) build parts ns = caseParts x build parts ns := by
  induction ns generalizing parts with
  | nil => rfl
  | cons n ns ih =>
      simp only [caseParts, items_withPolicies, item_withPolicies, param_withPolicies, ih]

@[simp] theorem switchCase_withPolicies : switchCase (x.withPolicies f) = switchCase x := by
  funext build n
  simp only [switchCase, caseParts_withPolicies]

@[simp] theorem labeled_withPolicies : labeled (x.withPolicies f) = labeled x := by
  funext build n
  simp only [labeled, item_withPolicies]

end Statements

section Declarations

@[simp] theorem clause_withPolicies : clause (x.withPolicies f) = clause x := by
  funext build context n
  simp only [clause, elements_withPolicies, element_withPolicies]

@[simp] theorem typeList_withPolicies : typeList (x.withPolicies f) = typeList x := by
  funext build n
  simp only [typeList, elements_withPolicies]

@[simp] theorem typeHeadPart_withPolicies : typeHeadPart (x.withPolicies f) = typeHeadPart x := by
  funext build h n
  simp only [typeHeadPart, modifiers_withPolicies, type_withPolicies, list_withPolicies,
    clause_withPolicies]

@[simp] theorem typeDecl_withPolicies : typeDecl (x.withPolicies f) = typeDecl x := by
  funext build n
  simp only [typeDecl, typeHeadPart_withPolicies]

@[simp] theorem constants_withPolicies : constants (x.withPolicies f) = constants x := by
  funext build nodes
  simp only [constants, detach_withPolicies, blankBefore_withPolicies, elements_withPolicies]

@[simp] theorem enumBody_withPolicies : enumBody (x.withPolicies f) = enumBody x := by
  funext build n
  simp only [enumBody, constants_withPolicies, items_withPolicies, item_withPolicies,
    detach_withPolicies]

@[simp] theorem enumConstant_withPolicies : enumConstant (x.withPolicies f) = enumConstant x := by
  funext build n
  simp only [enumConstant, modifiers_withPolicies, list_withPolicies]

@[simp] theorem method_withPolicies : method (x.withPolicies f) = method x := by
  funext build n
  simp only [method, modifiers_withPolicies, list_withPolicies, clause_withPolicies]

@[simp] theorem declarators_withPolicies : declarators (x.withPolicies f) = declarators x := by
  funext build n
  simp only [declarators, elements_withPolicies]

@[simp] theorem declaratorParts_withPolicies (parts : List Chunk) (ns : List Node) :
    declaratorParts (x.withPolicies f) build parts ns = declaratorParts x build parts ns := by
  induction ns generalizing parts with
  | nil => rfl
  | cons n ns ih => simp only [declaratorParts, assignment_withPolicies, ih]

@[simp] theorem declarator_withPolicies : declarator (x.withPolicies f) = declarator x := by
  funext build n
  simp only [declarator, declaratorParts_withPolicies]

mutual

theorem rawPart_withPolicies (acc : List Chunk × Option Nat) :
    ∀ n : Node, rawPart (x.withPolicies f) build acc n = rawPart x build acc n
  | .leaf id t => rfl
  | .branch kind start stop children => by
      have hchildren := rawParts_withPolicies acc children
      simp only [rawPart, block_withPolicies, hchildren]

theorem rawParts_withPolicies (acc : List Chunk × Option Nat) :
    ∀ ns : List Node, rawParts (x.withPolicies f) build acc ns = rawParts x build acc ns
  | [] => rfl
  | n :: ns => by
      have hrest := fun acc => rawParts_withPolicies acc ns
      simp only [rawParts, rawPart_withPolicies acc n, hrest]

end

@[simp] theorem raw_withPolicies : raw (x.withPolicies f) = raw x := by
  funext build n
  simp only [raw, rawPart_withPolicies]

end Declarations

@[simp] theorem production_withPolicies : production (x.withPolicies f) = production x := by
  funext build n
  cases n with
  | leaf id t => simp only [production, token_withPolicies]
  | branch kind start stop children => cases kind <;> simp [production]

theorem within_withPolicies (depth : Nat) : within (x.withPolicies f) depth = within x depth := by
  induction depth with
  | zero => rfl
  | succ depth ih => rw [within, within, production_withPolicies, ih]

theorem unit_withPolicies (root : Node) : unit (x.withPolicies f) root = unit x root := by
  simp only [unit, within_withPolicies, items_withPolicies, item_withPolicies, detach_withPolicies]

end Build

theorem Chunk.ofNode_withPolicies (t : TokenStream) (root : Node) (s : Style) (regions : Regions) :
    Chunk.ofNode t root (s.withPolicies f) regions = Chunk.ofNode t root s regions := by
  have hunit := Build.unit_withPolicies (f := f) (t.buildContext s) root
  have hcontext : t.buildContext (s.withPolicies f) = (t.buildContext s).withPolicies f := rfl
  simp only [Chunk.ofNode, TriviaIndex.ofStream_withPolicies, hcontext, hunit]

end CodeLayout
