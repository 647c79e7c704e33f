import SyntaxForest.Forest.Create
import SyntaxForest.Forest.Attach
/-!
# Growing many nodes

A chain of nodes, each the child of the one before, and a fan of nodes under one parent. Growth stops
at the first fault; the nodes made before it stay.
-/

namespace SyntaxForest

namespace Edit

/-- Grows `count` nodes downwards from `tip` and returns the lowest. -/
def growChain (kind : Kind) : (count : Nat) → (tip : NodeId) → Edit NodeId
  | 0, tip => return tip
  | count + 1, tip => do
    let child ← newNode kind
    appendChild tip child
    growChain kind count child

/-- Grows `count` nodes under `parent` and returns how many children it then has. -/
def growFan (kind : Kind) (parent : NodeId) : (count : Nat) → Edit Nat
  | 0 => ask (·.childCount parent)
  | count + 1 => do
    let child ← newNode kind
    appendChild parent child
    growFan kind parent count

end Edit

end SyntaxForest
