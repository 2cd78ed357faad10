import CodeLayout.Text.Decimal

/-!
# Wrap contexts

The constructs of a program whose elements may be distributed over several lines. Each context has
a policy of its own in a style, under a key of its own.
-/

namespace CodeLayout

/-- The construct that a group of wrappable elements comes from. -/
inductive WrapContext where
  /-- A plain sequence, which takes no optional breaks. -/
  | plain
  | invocationArguments
  | methodParameters
  | allocationArguments
  | enumConstantArguments
  | annotationArguments
  | binaryExpression
  | arrayInitializer
  | selectorChain
  | superclass
  | superinterfaces
  | throwsClause
  | multipleFields
  | enumConstants
  | conditionalExpression
  | assignment
  | tryResources
  /-- A number that stands for no construct. -/
  | unknown (code : Nat)
  deriving DecidableEq, Repr, Inhabited

namespace WrapContext

/-- The contexts that have a policy, in the order of their numbers, which start at one. -/
def configurable : List WrapContext :=
  [invocationArguments, methodParameters, allocationArguments, enumConstantArguments,
    annotationArguments, binaryExpression, arrayInitializer, selectorChain, superclass,
    superinterfaces, throwsClause, multipleFields, enumConstants, conditionalExpression,
    assignment, tryResources]

/-- Whether a context has a policy. -/
def isConfigurable : WrapContext → Bool
  | .plain | .unknown _ => false
  | _ => true

/-- The context with a given number. -/
def ofCode (n : Nat) : WrapContext :=
  match (plain :: configurable)[n]? with
  | some c => c
  | none => unknown n

/-- What a context is called. -/
def name : WrapContext → Bytes
  | .plain => ascii "none"
  | .invocationArguments => ascii "arguments_in_method_invocation"
  | .methodParameters => ascii "parameters_in_method_declaration"
  | .allocationArguments => ascii "arguments_in_allocation_expression"
  | .enumConstantArguments => ascii "arguments_in_enum_constant"
  | .annotationArguments => ascii "arguments_in_annotation"
  | .binaryExpression => ascii "binary_expression"
  | .arrayInitializer => ascii "expressions_in_array_initializer"
  | .selectorChain => ascii "selector_in_method_invocation"
  | .superclass => ascii "superclass_in_type_declaration"
  | .superinterfaces => ascii "superinterfaces_in_type_declaration"
  | .throwsClause => ascii "throws_clause_in_method_declaration"
  | .multipleFields => ascii "multiple_fields"
  | .enumConstants => ascii "enum_constants"
  | .conditionalExpression => ascii "conditional_expression"
  | .assignment => ascii "assignment"
  | .tryResources => ascii "resources_in_try"
  | .unknown code => ascii "WrapContext(" ++ natDigits code ++ ascii ")"

/-- The option key for the policy of a context; empty for a context without one. -/
def key (c : WrapContext) : Bytes :=
  if c.isConfigurable then ascii "alignment_for_" ++ c.name else []

/-- The context that a key configures. -/
def ofKey? (k : Bytes) : Option WrapContext :=
  configurable.find? fun c => c.key == k

/-- The context with a name. -/
def ofName? (n : Bytes) : Option WrapContext :=
  (plain :: configurable).find? fun c => c.name == n

end WrapContext

end CodeLayout
