import SyntaxForest.NodeId
import SyntaxForest.Role
/-!
# Faults

Why an operation was refused. A fault is a cause; `Fault.message` is the only place that words it.
-/

namespace SyntaxForest

/-- The operations that messages name. -/
inductive Operation
  -- changes of the tree
  | prependChild | appendChild | appendChildren | insertAfter | insertBefore
  | detach | removeChild | replaceWith
  -- construction of canonical nodes
  | paramList | block | script | function | exprResult | returnStmt | varDecl | call | assign | getProp
  -- access to payloads
  | readText | writeText | readNumber | writeNumber
  deriving DecidableEq, Repr

/-- The name of an operation in messages. -/
def Operation.name : Operation → String
  | .prependChild => "add_child_front"
  | .appendChild => "add_child_back"
  | .appendChildren => "add_children_back"
  | .insertAfter => "add_child_after"
  | .insertBefore => "add_child_before"
  | .detach => "detach"
  | .removeChild => "remove_child"
  | .replaceWith => "replace_with"
  | .paramList => "param_list"
  | .block => "block"
  | .script => "script"
  | .function => "function"
  | .exprResult => "expr_result"
  | .returnStmt => "return"
  | .varDecl => "var"
  | .call => "call"
  | .assign => "assign"
  | .getProp => "getprop"
  | .readText => "string"
  | .writeText => "set_string"
  | .readNumber => "number"
  | .writeNumber => "set_number"

instance : ToString Operation := ⟨Operation.name⟩

/-- What is wrong with an argument, whatever the state of the forest. -/
inductive ArgumentFault
  /-- A node of the kind cannot be made without a payload. -/
  | payloadRequired (kind : Kind)
  /-- A node of the kind does not carry a text. -/
  | notTextKind (kind : Kind)
  /-- A node of the kind carries a text, and none was given. -/
  | textRequired (kind : Kind)
  /-- A node of the kind cannot play the role it was given for. -/
  | unfit (role : Role) (kind : Kind)
  deriving DecidableEq, Repr

/-- The wording of an argument fault. -/
def ArgumentFault.message : ArgumentFault → String
  | .payloadRequired kind => s!"{kind} nodes require a {kind.shape} payload"
  | .notTextKind kind => s!"{kind} is a {kind.shape} kind, not a text kind"
  | .textRequired kind => s!"{kind} node requires a text value"
  | .unfit role kind => role.refusal kind

/-- What is wrong with the links of a node for the operation that looked at it. -/
inductive LinkFault
  | hasParent | hasSibling | ownParent | ownDescendant | listedTwice | attached
  | siblingHasNoParent | noParent | notChildOf (parent : NodeId) | hasInitializer
  deriving DecidableEq, Repr

/-- The wording of a link fault. -/
def LinkFault.message : LinkFault → String
  | .hasParent => "node already has a parent"
  | .hasSibling => "node still has a sibling link"
  | .ownParent => "node cannot parent itself"
  | .ownDescendant => "node cannot become a descendant of itself"
  | .listedTwice => "node listed twice"
  | .attached => "node is already attached"
  | .siblingHasNoParent => "sibling has no parent"
  | .noParent => "node has no parent"
  | .notChildOf parent => s!"node is not a child of {parent}"
  | .hasInitializer => "declared name already has an initializer"

/-- Why an operation on a forest was refused. -/
inductive Fault
  /-- An argument is missing or of the wrong kind. -/
  | argument (cause : ArgumentFault)
  /-- A link would break the shape of the forest. -/
  | link (node : NodeId) (operation : Operation) (cause : LinkFault)
  /-- The payload of a node of the kind is not what the operation needs. -/
  | payload (operation : Operation) (kind : Kind)
  /-- A handle is not of this forest, which has only `size` nodes. -/
  | outOfRange (size index : Nat)
  /-- A walk along links takes more steps than there are nodes, so it would never end. -/
  | endless
  deriving DecidableEq, Repr

/-- The wording of a fault. -/
def Fault.message : Fault → String
  | .argument cause => "invalid argument: " ++ cause.message
  | .link node operation cause =>
    s!"invalid tree state at node {node}: {operation}: " ++ cause.message
  | .payload operation kind => s!"unsupported operation `{operation}` on {kind} node"
  | .outOfRange size index => s!"index out of bounds: the len is {size} but the index is {index}"
  | .endless => "links form a loop"

end SyntaxForest
