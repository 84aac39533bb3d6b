import ConvexProgram.Expr.Basic

/-!
# Declared shapes

Every expression declares a shape, computed from the shapes of its arguments without any value.
Where operands do not fit, the declared shape is the scalar one.

* `UnaryAtom.shape`, `BinaryAtom.shape`, `Direction.shape`   the rule of each node;
* `Expr.shape`       the shape of an expression;
* `Expr.flatten`     an expression as a vector of its declared size.
-/

namespace ConvexProgram

/-- The dims an index keeps: a span keeps its count if that is more than one, and a dim taken
whole is kept where the argument has it. -/
def Ranges.keptDims : Ranges → List Nat → List Nat
  | [], _ => []
  | some s :: rs, dims =>
    if 1 < s.count then s.count :: keptDims rs dims.tail else keptDims rs dims.tail
  | none :: rs, [] => keptDims rs []
  | none :: rs, d :: dims => d :: keptDims rs dims

/-- The shape of a unary atom, from the shape of its argument. -/
def UnaryAtom.shape (op : UnaryAtom) (s : Shape) : Shape :=
  match op with
  | .neg | .abs => s
  | .sum none => .scalar
  | .sum (some axis) =>
    if s.ndim ≤ 1 then .scalar else if axis = 0 then .vector s.cols else .vector s.rows
  | .reshape target => target
  | .index ranges => ⟨Ranges.keptDims ranges s.dims⟩
  | .transpose => s.transpose
  | .diag => if s.isVector then .matrix s.size s.size else .vector (min s.rows s.cols)
  | .trace | .norm | .sumSquares => .scalar

def BinaryAtom.shape (op : BinaryAtom) (s t : Shape) : Shape :=
  match op with
  | .add | .mul => (s.broadcast t).getD .scalar
  | .matmul => (s.matmul t).getD .scalar
  | .quadForm => .scalar

/-- The shape of a stack, from the shapes of its parts; without parts it is a scalar. -/
def Direction.shape (d : Direction) : List Shape → Shape
  | [] => .scalar
  | s :: ss =>
    match d with
    | .vertical => .matrix ((s :: ss).foldr (fun t n => t.rows + n) 0) s.cols
    | .horizontal => .matrix s.rows ((s :: ss).foldr (fun t n => t.cols + n) 0)

namespace Expr

variable {α : Type}

mutual
def shape : Expr α → Shape
  | .var v => v.shape
  | .const _ c => c.shape
  | .unary op a => op.shape a.shape
  | .binary op a b => op.shape a.shape b.shape
  | .stack d parts => d.shape (shapes parts)

def shapes : List (Expr α) → List Shape
  | [] => []
  | e :: es => e.shape :: shapes es
end

theorem shapes_eq_map (es : List (Expr α)) : shapes es = es.map shape := by
  induction es with
  | nil => rfl
  | cons e es ih => rw [shapes, ih, List.map_cons]

@[simp] theorem shape_var (v : Variable) : (Expr.var v : Expr α).shape = v.shape := by
  simp only [shape]

@[simp] theorem shape_const (id : Ident) (c : Value α) : (Expr.const id c).shape = c.shape := by
  simp only [shape]

@[simp] theorem shape_unary (op : UnaryAtom) (a : Expr α) :
    (Expr.unary op a).shape = op.shape a.shape := by
  simp only [shape]

@[simp] theorem shape_binary (op : BinaryAtom) (a b : Expr α) :
    (Expr.binary op a b).shape = op.shape a.shape b.shape := by
  simp only [shape]

@[simp] theorem shape_stack (d : Direction) (parts : List (Expr α)) :
    (Expr.stack d parts).shape = d.shape (parts.map shape) := by
  simp only [shape, shapes_eq_map]

/-- The entries of an expression as a vector of its declared size. -/
def flatten (a : Expr α) : Expr α := a.reshape (.vector a.shape.size)

end Expr
end ConvexProgram
