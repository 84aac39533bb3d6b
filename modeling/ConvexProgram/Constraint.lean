import ConvexProgram.Expr.Eval
import ConvexProgram.Expr.Leaves
import ConvexProgram.Expr.Subst

/-!
# Constraints

A constraint compares an expression with zero, entry by entry or as a matrix, or bounds the norm of
one expression by another.  Its violation is the amount by which it fails under given values, and
zero where it holds.

* `Spectral`                 scalars with a routine for the smallest eigenvalue;
* `Relation.violation`       the amount by which a matrix fails a comparison with zero;
* `Constraint.violation`     the amount by which a constraint fails;
* `Constraint.equal`, `Constraint.atMost`, …   the constraints on a difference of two sides.
-/

namespace ConvexProgram

/-- Scalars with a routine for the smallest eigenvalue of a symmetric matrix, which may have no
answer.  Nothing is assumed of the routine but that its answer depends on the matrix alone. -/
class Spectral (α : Type) where
  smallest? : Matrix α → Option α

inductive Relation where
  | zero
  | nonneg
  | nonpos
  | psd
  | nsd
deriving DecidableEq

/-- A comparison with zero, or a second-order cone: the norm of `arg` is at most `bound`. -/
inductive Body (α : Type) where
  | compare (relation : Relation) (arg : Expr α)
  | cone (bound arg : Expr α)

/-- A constraint; its id keys its dual value. -/
structure Constraint (α : Type) where
  id : Ident
  body : Body α

section
variable {α : Type} [Scalar α] [Spectral α]

/-- The smallest eigenvalue of the symmetric part of a square matrix. -/
def Matrix.smallestEigenvalue (m : Matrix α) : Except Fault α := do
  let m ← m.square
  match Spectral.smallest? m.symmetricPart with
  | some x => .ok x
  | none => .error .spectrum

/-- The amount by which a matrix fails a comparison with zero. -/
def Relation.violation (m : Matrix α) : Relation → Except Fault α
  | .zero => .ok m.greatestAbs
  | .nonneg => .ok (Scalar.larger (-m.least) 0)
  | .nonpos => .ok (Scalar.larger m.greatest 0)
  | .psd => do
    let x ← m.smallestEigenvalue
    return Scalar.larger (-x) 0
  | .nsd => do
    let x ← m.neg.smallestEigenvalue
    return Scalar.larger (-x) 0

end

namespace Body

variable {α : Type}

def args : Body α → List (Expr α)
  | .compare _ a => [a]
  | .cone bound a => [bound, a]

def subst (θ : Substitution α) : Body α → Body α
  | .compare r a => .compare r (a.subst θ)
  | .cone bound a => .cone (bound.subst θ) (a.subst θ)

theorem args_subst (θ : Substitution α) (b : Body α) :
    (b.subst θ).args = b.args.map (Expr.subst θ) := by
  cases b with
  | compare r a => rfl
  | cone bound a => rfl

theorem subst_eq_self {θ : Substitution α} {b : Body α} (h : ∀ a ∈ b.args, a.subst θ = a) :
    b.subst θ = b := by
  cases b with
  | compare r a => rw [subst, h a (List.mem_singleton_self a)]
  | cone bound a =>
    rw [subst, h bound List.mem_cons_self, h a (List.mem_cons_of_mem _ (List.mem_singleton_self a))]

variable [Scalar α] [Spectral α]

/-- The amount by which the constraint fails.  The bound of a cone is looked at before its
argument. -/
def violation (σ : Assignment α) : Body α → Except Fault α
  | .compare r a => do
    let v ← a.value σ
    r.violation v.toMatrix
  | .cone bound a => do
    let t := (← bound.value σ).toMatrix
    if t.size = 1 then
      let v ← a.value σ
      return Scalar.larger (v.toMatrix.norm + -t.entry 0 0) 0
    else .error (.coneBound t.extent)

end Body

namespace Constraint

variable {α : Type}

/-! ## Constructors -/

def draw (b : Body α) : Fresh (Constraint α) := fun next => (⟨next, b⟩, next + 1)

/-- The difference of two sides, compared with zero. -/
def difference (r : Relation) (a b : Expr α) : Fresh (Constraint α) := draw (.compare r (a.sub b))

/-- `a = b`. -/
def equal (a b : Expr α) : Fresh (Constraint α) := difference .zero a b

/-- `a ≤ b`, entry by entry. -/
def atMost (a b : Expr α) : Fresh (Constraint α) := difference .nonpos a b

/-- `a ≥ b`, entry by entry. -/
def atLeast (a b : Expr α) : Fresh (Constraint α) := difference .nonneg a b

/-- `a - b` is positive semidefinite. -/
def psd (a b : Expr α) : Fresh (Constraint α) := difference .psd a b

/-- `a - b` is negative semidefinite. -/
def nsd (a b : Expr α) : Fresh (Constraint α) := difference .nsd a b

/-- The norm of `a` is at most `bound`. -/
def cone (bound a : Expr α) : Fresh (Constraint α) := draw (.cone bound a)

/-! ## Views -/

/-- The variables of the constraint, argument by argument and with repetitions. -/
def leaves (c : Constraint α) : List Variable := c.body.args.flatMap Expr.leaves

def variableIds (c : Constraint α) : List Ident := Variable.sortedIds c.leaves

/-- The constraint with its variables replaced, under the same id. -/
def subst (θ : Substitution α) (c : Constraint α) : Constraint α := ⟨c.id, c.body.subst θ⟩

theorem leaves_subst (θ : Substitution α) (c : Constraint α) :
    (c.subst θ).leaves = c.leaves.flatMap fun v => ((Expr.var v).subst θ).leaves := by
  unfold leaves subst
  rw [Body.args_subst, List.flatMap_map, List.flatMap_assoc]
  exact congrArg List.flatten (List.map_congr_left fun a _ => Expr.leaves_subst θ a)

theorem subst_eq_self {θ : Substitution α} {c : Constraint α}
    (h : ∀ v ∈ c.leaves, (Expr.var v).subst θ = .var v) : c.subst θ = c := by
  have hbody : c.body.subst θ = c.body := Body.subst_eq_self fun a ha =>
    Expr.subst_eq_self fun v hv => h v (List.mem_flatMap.mpr ⟨a, ha, hv⟩)
  rw [subst, hbody]

variable [Scalar α] [Spectral α]

/-- The amount by which the constraint fails. -/
def violation (σ : Assignment α) (c : Constraint α) : Except Fault α := c.body.violation σ

/-- The constraint fails by at most `tol`. -/
def isSatisfied (σ : Assignment α) (tol : α) (c : Constraint α) : Except Fault Bool := do
  let x ← c.violation σ
  return decide (x ≤ tol)

end Constraint
end ConvexProgram
