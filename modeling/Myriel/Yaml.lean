import Myriel.Platform

/-! The nodes of yaml-cpp, as far as the configuration reads and builds them. -/
namespace Myriel.YAML

inductive Node where
  | null
  | scalar (text : Text)
  | sequence (items : List Node)
  | map (items : List (Node × Node))

namespace Node

/-- `Scalar()`: the empty string for a node that is no scalar. -/
def scalarText : Node → Text
  | .scalar text => text
  | _ => []

def isScalar : Node → Bool
  | .scalar _ => true
  | _ => false

def isMap : Node → Bool
  | .map _ => true
  | _ => false

theorem scalar_of_text {node : Node} (nonempty : node.scalarText ≠ []) : ∃ text, node = .scalar text := by
  cases node with
  | scalar text => exact ⟨text,rfl⟩
  | null | sequence | map => exact absurd rfl nonempty

end Node

end Myriel.YAML
