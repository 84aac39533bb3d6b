import ConvexProgram.Shape
import ConvexProgram.Matrix.Sparse

/-!
# Values

A value is a number, a dense matrix or a sparse one.  Evaluation reads every value as a matrix
(`Value.toMatrix`); the three forms differ only in what they store and show.
-/

namespace ConvexProgram

/-- A number or a matrix, as given by a caller or found by a solver. -/
inductive Value (α : Type) where
  | scalar (x : α)
  | dense (m : Matrix α)
  | sparse (s : Sparse α)

namespace Value

variable {α : Type} [Scalar α]

/-- Matrices of any size have a matrix shape, and a number the scalar shape. -/
def shape : Value α → Shape
  | .scalar _ => .scalar
  | .dense m => .matrix m.rows m.cols
  | .sparse s => .matrix s.rows s.cols

def size : Value α → Nat
  | .scalar _ => 1
  | .dense m => m.size
  | .sparse s => s.size

def ofColumn (xs : Array α) : Value α := .dense (.column xs)

/-- The number, also where it is stored as a dense `1 × 1` matrix. -/
def asScalar? : Value α → Option α
  | .scalar x => some x
  | .dense m => if m.rows = 1 ∧ m.cols = 1 then some (m.entry 0 0) else none
  | .sparse _ => none

/-- The value as a dense matrix, `1 × 1` for a number. -/
def toMatrix : Value α → Matrix α
  | .scalar x => .single x
  | .dense m => m
  | .sparse s => s.toMatrix

/-- The entries that are stored, by columns. -/
def stored : Value α → List α
  | .scalar x => [x]
  | .dense m => m.entries.toList
  | .sparse s => s.stored.map Triplet.value

/-- Every stored entry is at least zero. -/
def isNonneg (v : Value α) : Bool := v.stored.all fun x => decide (0 ≤ x)

def isNonpos (v : Value α) : Bool := v.stored.all fun x => decide (x ≤ 0)

def isSymmetric (v : Value α) : Bool := v.toMatrix.isSymmetric

end Value
end ConvexProgram
