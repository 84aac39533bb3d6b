import ConvexProgram.Elimination.Basic
import ConvexProgram.Solution

/-!
# Carrying solutions back

A solution of the reduced problem has values for the stand-ins.  Each declared variable gets the
value of its stand-in, unpacked to a full matrix if it is symmetric; a variable whose stand-in has
no value gets none.
-/

namespace ConvexProgram

variable {α : Type} [Scalar α]

/-- The value of the declared variable, if its stand-in has one. -/
def Row.recover (σ : Assignment α) (r : Row α) : Except Fault (Option (Value α)) :=
  match σ r.standIn.id with
  | none => .ok none
  | some c =>
    if r.declared.isSymmetric then
      (UpperTriangle.unpack r.declared.shape.rows c).map fun m =>
        some (if r.declared.shape.isScalar then .scalar (m.entry 0 0) else .dense m)
    else .ok (some c)

/-- The values of the declared variables, up to the first fault. -/
def Row.recoverAll (σ : Assignment α) : List (Row α) → Except Fault (Table α)
  | [] => .ok ∅
  | r :: rs => do
    let c ← r.recover σ
    let t ← recoverAll σ rs
    return match c with
      | some c => t.insert r.declared.id c
      | none => t

/-- The solution in terms of the declared variables; status, objective value and duals are kept. -/
def Inverse.recover (inv : Inverse α) (s : Solution α) : Except Fault (Solution α) := do
  let primal ← Row.recoverAll s.primal.assignment inv.rows
  return { s with primal := primal }

end ConvexProgram
