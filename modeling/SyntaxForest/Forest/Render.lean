import SyntaxForest.Double.Shortest
import SyntaxForest.Forest.Queries
/-!
# Text of nodes and trees

A node reads as its kind, its payload, and whatever of its line, properties and type the options ask
for. Properties are listed by ascending key. A property that points at a node or at a value of another
owner shows as a placeholder and is never followed.
-/

namespace SyntaxForest

/-- What is shown of a node besides its kind and payload. -/
structure RenderOptions where
  source : Bool := false
  annotations : Bool := false
  types : Bool := false
  deriving DecidableEq, Repr

/-- Everything is shown. -/
def RenderOptions.all : RenderOptions := ⟨true, true, true⟩

/-- The value of a property: its object if it has one, otherwise its integer. -/
def Property.renderValue (p : Property) : String :=
  match p.object with
  | none => toString p.int
  | some (.text value) => value
  | some (.node _) => "<node>"
  | some (.external _) => "<opaque>"

/-- All properties of a list, by ascending key. -/
def PropertyList.render (l : PropertyList) : String :=
  String.join <| l.sortedKeys.map fun key =>
    match l.find? key with
    | some p => s!" [{key}: " ++ p.renderValue ++ "]"
    | none => ""

namespace Forest

variable (f : Forest)

/-- The name of a function node: the text of its first child, if that is a text other than the empty
one. -/
def functionName? (node : Node) : Except Fault (Option String) := do
  match node.firstChild with
  | none => return none
  | some first => return (← f.payload first).text?.filter (!·.isEmpty)

/-- What is shown of a node's payload. A function shows its name. -/
def renderPayload (node : Node) : Except Fault String := do
  match node.payload with
  | .text value => return " " ++ value
  | .number value => return " " ++ value.render
  | .generic =>
    if node.kind.isFunction then
      match ← f.functionName? node with
      | some name => return " " ++ name
      | none => return ""
    else return ""

/-- The line of a node, if it is known. -/
def renderLine (node : Node) : String :=
  if node.position.line = Position.unknownWord then "" else s!" {node.position.line}"

/-- The type of a node, if it has one. -/
def renderType (node : Node) : String :=
  match node.typeText with
  | some text => " : " ++ text
  | none => ""

/-- The text of one node. -/
def renderNode (options : RenderOptions) (id : NodeId) : Except Fault String := do
  let node ← f.node id
  let payload ← f.renderPayload node
  let line := if options.source then renderLine node else ""
  let properties := if options.annotations then node.properties.render else ""
  let type := if options.types then renderType node else ""
  return node.kind.name ++ payload ++ line ++ properties ++ type

/-- The line of one node in a listing, two spaces deeper for each level. Any depth is indented: that a formatter
may refuse to pad beyond a width of 65535 is left out. -/
def renderListed (options : RenderOptions) (id : NodeId) (depth : Nat) : Except Fault String :=
  return "".pushn ' ' (2 * depth) ++ (← f.renderNode options id) ++ "\n"

/-- Writes the lines of the trees in `pending` behind `text`; `steps` more nodes are allowed. -/
def renderPending (options : RenderOptions) :
    (steps : Nat) → (pending : List (NodeId × Nat)) → (text : String) → Except Fault String
  | _, [], text => .ok text
  | 0, _ :: _, _ => .error .endless
  | steps + 1, (id, depth) :: pending, text => do
    let line ← f.renderListed options id depth
    let children ← f.children id
    renderPending options steps (children.map (·, depth + 1) ++ pending) (text ++ line)

/-- The tree under `root`, one line for each node. -/
def renderTree (options : RenderOptions) (root : NodeId) : Except Fault String :=
  f.renderPending options (f.size + 1) [(root, 0)] ""

end Forest

end SyntaxForest
