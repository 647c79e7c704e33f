import SyntaxForest.Construction
import SyntaxForest.Forest.Attributes
import SyntaxForest.Forest.Copy
import SyntaxForest.Forest.Detach
/-!
# Commands

Every change that can be made to a forest, as data. A forest is reachable when some sequence of
commands makes it from the empty one, whatever the commands answered.
-/

namespace SyntaxForest

/-- One change of a forest, with its arguments. -/
inductive Command
  | newNode (kind : Kind) (position : Position)
  | newText (kind : Kind) (value : Option String) (position : Position)
  | newNumber (value : Double) (position : Position)
  | construct (construction : Construction)
  | prependChild (parent child : NodeId)
  | appendChild (parent child : NodeId)
  | appendChildren (parent : NodeId) (children : List NodeId)
  | insertAfter (child sibling : NodeId)
  | insertBefore (child sibling : NodeId)
  | detach (id : NodeId)
  | removeChild (parent child : NodeId)
  | removeFirstChild (parent : NodeId)
  | detachChildren (parent : NodeId)
  | replaceWith (old replacement : NodeId)
  | copyNode (id : NodeId)
  | copyTree (root : NodeId)
  | setText (id : NodeId) (value : String)
  | setNumber (id : NodeId) (value : Double)
  | setPosition (id : NodeId) (position : Position)
  | copyPosition (id source : NodeId)
  | putBool (id : NodeId) (key : PropertyKey) (value : Bool)
  | putInt (id : NodeId) (key : PropertyKey) (value : Int)
  | putObject (id : NodeId) (key : PropertyKey) (value : PropertyObject)
  | removeProperty (id : NodeId) (key : PropertyKey)
  | setTypeText (id : NodeId) (text : Option String)
  deriving DecidableEq, Repr

/-- What a command answers. -/
inductive Reply
  | done
  | node (id : NodeId)
  | node? (id : Option NodeId)
  | nodes (ids : List NodeId)
  deriving DecidableEq, Repr

/-- Makes the change. -/
def Command.run : Command → Edit Reply
  | .newNode kind position => .node <$> Edit.newNode kind position
  | .newText kind value position => .node <$> Edit.newText kind value position
  | .newNumber value position => .node <$> Edit.newNumber value position
  | .construct construction => .node <$> construction.run
  | .prependChild parent child => do Edit.prependChild parent child; return .done
  | .appendChild parent child => do Edit.appendChild parent child; return .done
  | .appendChildren parent children => do Edit.appendChildren parent children; return .done
  | .insertAfter child sibling => do Edit.insertAfter child sibling; return .done
  | .insertBefore child sibling => do Edit.insertBefore child sibling; return .done
  | .detach id => do Edit.detach id; return .done
  | .removeChild parent child => do Edit.removeChild parent child; return .done
  | .removeFirstChild parent => .node? <$> Edit.removeFirstChild parent
  | .detachChildren parent => .nodes <$> Edit.detachChildren parent
  | .replaceWith old replacement => do Edit.replaceWith old replacement; return .done
  | .copyNode id => .node <$> Edit.copyNode id
  | .copyTree root => .node <$> Edit.copyTree root
  | .setText id value => do Edit.setText id value; return .done
  | .setNumber id value => do Edit.setNumber id value; return .done
  | .setPosition id position => do Edit.setPosition id position; return .done
  | .copyPosition id source => do Edit.copyPosition id source; return .done
  | .putBool id key value => do Edit.putBool id key value; return .done
  | .putInt id key value => do Edit.putInt id key value; return .done
  | .putObject id key value => do Edit.putObject id key value; return .done
  | .removeProperty id key => do Edit.removeProperty id key; return .done
  | .setTypeText id text => do Edit.setTypeText id text; return .done

/-- The nodes that a canonical node is made from. -/
def Construction.parts : Construction → List NodeId
  | .paramList parts | .block parts | .script parts => parts
  | .function name parameters body => [name, parameters, body]
  | .exprResult expression => [expression]
  | .returnStmt value => value.toList
  | .varDecl name value => name :: value.toList
  | .call target arguments => target :: arguments
  | .assign target value => [target, value]
  | .getProp target _ => [target]
  | .empty | .identifier _ | .stringLit _ | .numberLit _ | .trueLit | .falseLit | .nullLit
  | .thisRef => []

namespace Command

/-- The nodes that a command names. A node inside a property is only carried, not named. -/
def targets : Command → List NodeId
  | .newNode .. | .newText .. | .newNumber .. => []
  | .construct construction => construction.parts
  | .prependChild parent child | .appendChild parent child | .removeChild parent child =>
    [parent, child]
  | .appendChildren parent children => parent :: children
  | .insertAfter child sibling | .insertBefore child sibling => [child, sibling]
  | .replaceWith old replacement => [old, replacement]
  | .copyPosition id source => [id, source]
  | .detach id | .removeFirstChild id | .detachChildren id | .copyNode id | .copyTree id
  | .setText id _ | .setNumber id _ | .setPosition id _ | .putBool id _ _ | .putInt id _ _
  | .putObject id _ _ | .removeProperty id _ | .setTypeText id _ => [id]

/-- Whether a command can allocate nodes. -/
def allocates : Command → Bool
  | .newNode .. | .newText .. | .newNumber .. | .construct _ | .copyNode _ | .copyTree _ => true
  | _ => false

end Command

/-- The forests that commands make from the empty one. -/
inductive Forest.Reachable : Forest → Prop
  | empty : Reachable .empty
  | step {f : Forest} (command : Command) : Reachable f → Reachable (command.run.after f)

end SyntaxForest
