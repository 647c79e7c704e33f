import SyntaxForest.Kind.Classes
/-!
# Roles of parts

A canonical node is made from parts, each in a role that only some kinds can play.
-/

namespace SyntaxForest

/-- The part that a node plays in a canonical node, and so which kinds it may have. -/
inductive Role
  | parameter | functionName | functionParameters | functionBody | declaredName | assignmentTarget
  | statement | expression | argument
  deriving DecidableEq, Repr

namespace Role

/-- Whether a node of a kind may play the part. -/
def accepts : Role → Kind → Bool
  | .parameter, kind =>
    [.identifier, .defaultValue, .iterRest, .arrayPattern, .objectPattern].contains kind
  | .functionName, kind => kind == .identifier
  | .functionParameters, kind => kind == .paramList
  | .functionBody, kind => kind == .block
  | .declaredName, kind => kind == .identifier
  | .assignmentTarget, kind =>
    [.identifier, .getProp, .getElem, .arrayPattern, .objectPattern].contains kind
  | .statement, kind => kind.mayBeStatement
  | .expression, kind => kind.mayBeExpression
  | .argument, kind => kind == .iterSpread || kind.mayBeExpression

/-- What is said of a node of a kind that may not play the part. -/
def refusal : Role → Kind → String
  | .parameter, kind => s!"parameter cannot be a {kind} node"
  | .functionName, kind => s!"function name cannot be a {kind} node"
  | .functionParameters, kind => s!"function parameters cannot be a {kind} node"
  | .functionBody, kind => s!"function body cannot be a {kind} node"
  | .declaredName, kind => s!"declared name cannot be a {kind} node"
  | .assignmentTarget, kind => s!"assignment target cannot be a {kind} node"
  | .statement, kind => s!"{kind} node is not a statement"
  | .expression, kind => s!"{kind} node is not an expression"
  | .argument, kind => s!"{kind} node is not an expression"

end Role

end SyntaxForest
