import SyntaxForest.Double.Basic
import SyntaxForest.Node
/-!
# Equality of numbers and payloads

Equality of values is symmetric and transitive, and it is reflexive exactly off NaN. The same then holds
of payloads.
-/

namespace SyntaxForest

namespace Double

theorem equal_iff {x y : Double} :
    x.equal y = true ↔ x.isNaN = false ∧ y.isNaN = false ∧ (x = y ∨ (x.isZero ∧ y.isZero)) := by
  simp [equal, and_assoc]

theorem equal_self_iff {x : Double} : x.equal x = true ↔ x.isNaN = false := by
  simp [equal_iff]

theorem equal_comm (x y : Double) : x.equal y = y.equal x := by
  rw [Bool.eq_iff_iff, equal_iff, equal_iff]
  constructor <;> rintro ⟨hx, hy, h⟩ <;> exact ⟨hy, hx, h.imp Eq.symm And.symm⟩

theorem equal_trans {x y z : Double} (hxy : x.equal y = true) (hyz : y.equal z = true) :
    x.equal z = true := by
  rw [equal_iff] at *
  obtain ⟨hx, -, hxy⟩ := hxy
  obtain ⟨-, hz, hyz⟩ := hyz
  refine ⟨hx, hz, ?_⟩
  rcases hxy with rfl | ⟨zx, zy⟩
  · exact hyz
  · rcases hyz with rfl | ⟨-, zz⟩
    · exact .inr ⟨zx, zy⟩
    · exact .inr ⟨zx, zz⟩

end Double

namespace Payload

/-- Whether a payload is the number that equals nothing. -/
def isNaN : Payload → Bool
  | .number value => value.isNaN
  | _ => false

theorem same_self_iff {p : Payload} : p.same p = true ↔ p.isNaN = false := by
  cases p <;> simp [same, isNaN, Double.equal_self_iff]

theorem same_comm (p q : Payload) : p.same q = q.same p := by
  cases p <;> cases q <;> simp only [same]
  · exact BEq.comm
  · exact Double.equal_comm _ _

theorem same_trans {p q r : Payload} (hpq : p.same q = true) (hqr : q.same r = true) :
    p.same r = true := by
  cases p <;> cases q <;> cases r <;> simp_all [same]
  exact Double.equal_trans hpq hqr

end Payload

end SyntaxForest
