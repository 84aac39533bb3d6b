import ConvexProgram.Fault
import ConvexProgram.Expr.Shape

/-!
# Evaluation

The matrix of an expression under values for its variables.  Arguments are evaluated before the
atom, first argument first, and the first fault wins.  A few atoms look at the declared shape of
an argument: a vector on the left of a product is a row, and the diagonal of a vector is a matrix.

* `Assignment`         the values of the variables, by id;
* `UnaryAtom.apply`, `BinaryAtom.apply`, `Direction.apply`   the rule of each node on matrices;
* `Expr.matrix`        the matrix of an expression;
* `Expr.value`         the same, as a number if the declared shape is scalar.
-/

namespace ConvexProgram

variable {α : Type} [Scalar α]

/-- The values of the variables that have one. -/
abbrev Assignment (α : Type) := Ident → Option (Value α)

namespace Matrix

def extent (m : Matrix α) : Extent := ⟨m.rows, m.cols⟩

/-- The entries by columns under the sizes of a shape. -/
def withShape (s : Shape) (m : Matrix α) : Except Fault (Matrix α) :=
  match m.reshape? s.rows s.cols with
  | some r => .ok r
  | none => .error .storage

/-- `f` on the entries at each position, or on each entry and the other operand's only one. -/
def elementwise (f : α → α → α) (a b : Matrix α) : Except Fault (Matrix α) :=
  if a.rows = b.rows ∧ a.cols = b.cols then
    .ok (.ofFn a.rows a.cols fun i j => f (a.entry i j) (b.entry i j))
  else if b.size = 1 then .ok (a.map fun x => f x (b.entry 0 0))
  else if a.size = 1 then .ok (b.map fun y => f (a.entry 0 0) y)
  else .error (.operandSizes a.extent b.extent)

def square (m : Matrix α) : Except Fault (Matrix α) :=
  if m.rows = m.cols then .ok m else .error (.notSquare m.extent)

end Matrix

/-- The indices of one entry of an index, in a dim of the given length. -/
def Span.select (dim : Nat) : Option Span → Except Fault Selection
  | none => .ok (.whole dim)
  | some s => if s.Fits dim then .ok s.selection else .error (.indexRange s.start s.stop dim)

/-- The entries at the first range of rows and the second of columns; a range that is not there
takes all. -/
def Ranges.select (ranges : Ranges) (m : Matrix α) : Except Fault (Matrix α) := do
  let rows ← Span.select m.rows (ranges[0]?.getD none)
  let cols ← Span.select m.cols (ranges[1]?.getD none)
  return m.select rows cols

/-- A unary atom on a matrix; `s` is the declared shape of the argument. -/
@[inline] def UnaryAtom.apply (op : UnaryAtom) (s : Shape) (m : Matrix α) : Except Fault (Matrix α) :=
  match op with
  | .neg => .ok m.neg
  | .abs => .ok (m.map Scalar.abs)
  | .sum none => .ok (.single m.sum)
  | .sum (some axis) =>
    .ok (if s.ndim ≤ 1 then .single m.sum else if axis = 0 then m.colSums else m.rowSums)
  | .reshape target =>
    if m.size = target.size then m.withShape target else .error (.reshapeSize target m.extent)
  | .index ranges => ranges.select m
  | .transpose => .ok m.transpose
  | .trace => m.square.map fun m => .single m.trace
  | .diag =>
    if s.isVector then if m.cols = 0 then .error .noColumn else .ok m.ofDiagonal
    else .ok m.diagonal
  | .norm => .ok (.single m.norm)
  | .sumSquares => .ok (.single m.sumSquares)

/-- The product of two operands of declared shapes `s` and `t`; a vector on the left is a row, and
its product with a matrix is a column again. -/
def Matrix.product (s t : Shape) (a b : Matrix α) : Except Fault (Matrix α) :=
  let left := if s.isVector then a.transpose else a
  if left.cols = b.rows then
    .ok (if s.isVector && t.isMatrix then (left.mul b).transpose else left.mul b)
  else .error (.contraction b.rows left.extent t)

/-- `x' P x` for the entries `x` by columns. -/
def Matrix.quadForm (x p : Matrix α) : Except Fault (Matrix α) :=
  if p.rows = x.size ∧ p.cols = x.size then
    let col : Matrix α := .column x.entries
    .ok ((col.transpose.mul p).mul col)
  else .error (.quadForm p.extent)

/-- A binary atom on two matrices; `s` and `t` are the declared shapes of the arguments. -/
@[inline] def BinaryAtom.apply (op : BinaryAtom) (s t : Shape) (a b : Matrix α) : Except Fault (Matrix α) :=
  match op with
  | .add => a.elementwise (· + ·) b
  | .mul => a.elementwise (· * ·) b
  | .matmul => Matrix.product s t a b
  | .quadForm => a.quadForm b

/-- The first part that is not as wide as asked, if there is one, is a fault. -/
def Matrix.checkCols (cols : Nat) : List (Matrix α) → Except Fault Unit
  | [] => .ok ()
  | m :: ms => if m.cols = cols then checkCols cols ms else .error (.stackCols cols m.extent)

/-- The first part that is not as high as asked, if there is one, is a fault. -/
def Matrix.checkRows (rows : Nat) : List (Matrix α) → Except Fault Unit
  | [] => .ok ()
  | m :: ms => if m.rows = rows then checkRows rows ms else .error (.stackRows rows m.extent)

/-- The parts as one matrix, all of them as wide or as high as the first; without parts it is a
single zero. -/
def Direction.apply (d : Direction) : List (Matrix α) → Except Fault (Matrix α)
  | [] => .ok (.single 0)
  | m :: ms =>
    match d with
    | .vertical => (Matrix.checkCols m.cols ms).map fun _ => .vstack m.cols (m :: ms)
    | .horizontal => (Matrix.checkRows m.rows ms).map fun _ => .hstack m.rows (m :: ms)

/-- The matrix of a variable: its value, under the sizes of its shape. -/
def Variable.matrix (σ : Assignment α) (v : Variable) : Except Fault (Matrix α) :=
  match σ v.id with
  | none => .error (.unassigned v.label)
  | some c =>
    if c.toMatrix.size = v.shape.size then c.toMatrix.withShape v.shape
    else .error (.valueSize v.shape c.shape)

namespace Expr

mutual
def matrix (σ : Assignment α) : Expr α → Except Fault (Matrix α)
  | .var v => v.matrix σ
  | .const _ c => .ok c.toMatrix
  | .unary op a => do
    let m ← matrix σ a
    op.apply a.shape m
  | .binary op a b => do
    let m ← matrix σ a
    let n ← matrix σ b
    op.apply a.shape b.shape m n
  | .stack d parts => do
    let ms ← matrices σ parts
    d.apply ms

def matrices (σ : Assignment α) : List (Expr α) → Except Fault (List (Matrix α))
  | [] => .ok []
  | e :: es => do
    let m ← matrix σ e
    let ms ← matrices σ es
    return m :: ms
end

theorem matrices_cons (σ : Assignment α) (e : Expr α) (es : List (Expr α)) :
    matrices σ (e :: es) = (e.matrix σ).bind fun m => (matrices σ es).bind fun ms => .ok (m :: ms) :=
  rfl

@[simp] theorem matrix_var (σ : Assignment α) (v : Variable) :
    (Expr.var v).matrix σ = v.matrix σ := rfl

@[simp] theorem matrix_const (σ : Assignment α) (id : Ident) (c : Value α) :
    (Expr.const id c).matrix σ = .ok c.toMatrix := rfl

@[simp] theorem matrix_unary (σ : Assignment α) (op : UnaryAtom) (a : Expr α) :
    (Expr.unary op a).matrix σ = (a.matrix σ).bind (op.apply a.shape) := rfl

@[simp] theorem matrix_binary (σ : Assignment α) (op : BinaryAtom) (a b : Expr α) :
    (Expr.binary op a b).matrix σ =
      (a.matrix σ).bind fun m => (b.matrix σ).bind (op.apply a.shape b.shape m) := rfl

@[simp] theorem matrix_stack (σ : Assignment α) (d : Direction) (parts : List (Expr α)) :
    (Expr.stack d parts).matrix σ = (matrices σ parts).bind d.apply := rfl

/-- The value of an expression: a number if it is declared a scalar and has one entry, and a dense
matrix otherwise. -/
def value (σ : Assignment α) (e : Expr α) : Except Fault (Value α) := do
  let m ← e.matrix σ
  return if e.shape.isScalar ∧ m.size = 1 then .scalar (m.entry 0 0) else .dense m

end Expr
end ConvexProgram
