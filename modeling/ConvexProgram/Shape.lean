/-!
# Shapes of expressions

A shape is a list of dims: `()` is a scalar, `(n,)` a vector of length `n`, which is a column when
it is materialised, and `(m, n)` an `m × n` matrix.  Longer lists are allowed as declarations.

* `Shape.size`       the number of entries, never below one;
* `Shape.rows`, `Shape.cols`   the matrix a shape materialises to;
* `Shape.broadcast`  the common shape of two operands, aligned at their last dims;
* `Shape.matmul`     the shape of a product, where a leading vector is a row;
* `Shape.text`       the written form, `()`, `(n,)` or `(a, b, …)`.
-/

namespace ConvexProgram

/-- The dims of an expression, first dim first. -/
structure Shape where
  dims : List Nat
deriving DecidableEq

namespace Shape

def scalar : Shape := ⟨[]⟩
def vector (n : Nat) : Shape := ⟨[n]⟩
def matrix (m n : Nat) : Shape := ⟨[m, n]⟩

def ndim (s : Shape) : Nat := s.dims.length

/-- The product of the dims, at least one: a dim of zero still counts as one entry. -/
def size (s : Shape) : Nat := max (s.dims.foldr (· * ·) 1) 1

def isScalar (s : Shape) : Bool := s.dims.isEmpty
def isVector (s : Shape) : Bool := s.ndim == 1
def isMatrix (s : Shape) : Bool := s.ndim == 2

/-- Scalars and `n × n` matrices are square; vectors and longer shapes are not. -/
def isSquare (s : Shape) : Bool :=
  match s.dims with
  | [] => true
  | [m, n] => m == n
  | _ => false

/-- The first dim, and one for a scalar. -/
def rows (s : Shape) : Nat := s.dims.headD 1

/-- The second dim, and one for scalars and vectors. -/
def cols (s : Shape) : Nat :=
  match s.dims with
  | _ :: n :: _ => n
  | _ => 1

/-- A vector becomes one row; every other shape has its dims reversed. -/
def transpose (s : Shape) : Shape :=
  match s.dims with
  | [n] => matrix 1 n
  | dims => ⟨dims.reverse⟩

/-! ## Broadcasting -/

/-- The dim two aligned dims agree on: they are equal, or one of them is one. -/
def commonDim? (a b : Nat) : Option Nat :=
  if a = b ∨ b = 1 then some a else if a = 1 then some b else none

/-- `commonDim?` along two lists that start at the aligned end; a missing dim is one. -/
def commonDims? : List Nat → List Nat → Option (List Nat)
  | [], bs => some bs
  | as, [] => some as
  | a :: as, b :: bs => (commonDim? a b).bind fun c => (commonDims? as bs).map (c :: ·)

/-- The shape of an elementwise operation, aligned at the last dims, if the operands allow one. -/
def broadcast (s t : Shape) : Option Shape :=
  (commonDims? s.dims.reverse t.dims.reverse).map fun dims => ⟨dims.reverse⟩

/-- The shape of a product of vectors and matrices: a vector on the left is a row, a vector on
the right a column, and two vectors give their inner product. -/
def matmul (s t : Shape) : Option Shape :=
  match s.dims, t.dims with
  | [m, k], [k', n] => if k = k' then some (matrix m n) else none
  | [m, k], [k'] => if k = k' then some (vector m) else none
  | [k], [k', n] => if k = k' then some (vector n) else none
  | [k], [k'] => if k = k' then some scalar else none
  | _, _ => none

/-! ## Written forms -/

/-- The dims with a comma and a blank between two of them. -/
def dimsText (s : Shape) : String := ", ".intercalate (s.dims.map Nat.repr)

/-- `()` for a scalar, `(n,)` for a vector, and otherwise the dims in parentheses. -/
def text (s : Shape) : String :=
  match s.dims with
  | [] => "()"
  | [n] => "(" ++ n.repr ++ ",)"
  | _ => "(" ++ s.dimsText ++ ")"

/-- The dims as a bracketed list with the name of the type in front. -/
def taggedText (s : Shape) : String := "Shape([" ++ s.dimsText ++ "])"

/-! ## First facts -/

@[simp] theorem size_scalar : scalar.size = 1 := rfl
@[simp] theorem rows_scalar : scalar.rows = 1 := rfl
@[simp] theorem cols_scalar : scalar.cols = 1 := rfl
@[simp] theorem rows_vector (n : Nat) : (vector n).rows = n := rfl
@[simp] theorem cols_vector (n : Nat) : (vector n).cols = 1 := rfl
@[simp] theorem rows_matrix (m n : Nat) : (matrix m n).rows = m := rfl
@[simp] theorem cols_matrix (m n : Nat) : (matrix m n).cols = n := rfl

theorem size_pos (s : Shape) : 0 < s.size := by
  unfold size
  omega

theorem size_vector {n : Nat} (h : 0 < n) : (vector n).size = n := by
  show max (n * 1) 1 = n
  omega

theorem size_matrix {m n : Nat} (h : 0 < m * n) : (matrix m n).size = m * n := by
  show max (m * (n * 1)) 1 = m * n
  rw [Nat.mul_one]
  omega

theorem isSquare_cases {s : Shape} (h : s.isSquare = true) :
    s = .scalar ∨ ∃ n, s = .matrix n n := by
  obtain ⟨dims⟩ := s
  match dims, h with
  | [], _ => exact Or.inl rfl
  | [m, n], h =>
    have hmn : m = n := beq_iff_eq.mp h
    exact Or.inr ⟨n, by rw [hmn]; rfl⟩

theorem cols_of_isSquare {s : Shape} (h : s.isSquare = true) : s.cols = s.rows := by
  obtain rfl | ⟨n, rfl⟩ := isSquare_cases h
  · rfl
  · rfl

theorem size_of_isSquare {s : Shape} (h : s.isSquare = true) (hpos : 0 < s.rows) :
    s.size = s.rows * s.rows := by
  obtain rfl | ⟨n, rfl⟩ := isSquare_cases h
  · rfl
  · exact size_matrix (Nat.mul_pos hpos hpos)

theorem size_of_rows_zero {s : Shape} (h : s.rows = 0) : s.size = 1 := by
  obtain ⟨dims⟩ := s
  match dims, h with
  | d :: ds, h =>
    have hd : d = 0 := h
    subst hd
    show max (0 * _) 1 = 1
    rw [Nat.zero_mul]
    rfl

@[simp] theorem commonDims?_nil (ds : List Nat) : commonDims? ds [] = some ds := by
  cases ds <;> rfl

end Shape
end ConvexProgram
