import SyntaxForest.Forest.Basic
/-!
# Creation of nodes

A new node stands alone, and its payload has the shape that its kind asks for.
-/

namespace SyntaxForest

namespace Edit

/-- Creates a node of a kind without payload. -/
def newNode (kind : Kind) (position : Position := .unknown) : Edit NodeId :=
  if kind.hasPayload then throw (.argument (.payloadRequired kind))
  else allocate { kind := kind, payload := .generic, position := position }

/-- Creates a node of a text kind. -/
def newText (kind : Kind) (value : Option String) (position : Position := .unknown) : Edit NodeId :=
  if kind.shape ≠ .text then throw (.argument (.notTextKind kind))
  else
    match value with
    | none => throw (.argument (.textRequired kind))
    | some text => allocate { kind := kind, payload := .text text, position := position }

/-- Creates a number node. -/
def newNumber (value : Double) (position : Position := .unknown) : Edit NodeId :=
  allocate { kind := .numberLit, payload := .number value, position := position }

end Edit

end SyntaxForest
