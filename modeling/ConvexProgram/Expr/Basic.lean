import ConvexProgram.Value
import ConvexProgram.Variable

/-!
# Expressions

An expression is a variable, a constant, an atom of one or two arguments, or a stack of parts.
What an atom means is said once per atom, not once per traversal: `Expr.Shape` gives the declared
shape, `Expr.Eval` the matrix.

* `UnaryAtom`, `BinaryAtom`, `Direction`   the inner nodes, with what they carry;
* `Expr.ind`         induction over expressions, the parts of a stack included;
* `Expr.children`    the arguments of a node, in order;
* `Expr.sub`, `Expr.flatten`, `Expr.scale`, `Expr.eye`, …   expressions built from others.
-/

namespace ConvexProgram

/-- The indices `start`, `start + step`, … below `stop`. -/
structure Span where
  start : Nat
  stop : Nat
  step : Nat
deriving DecidableEq

namespace Span

def element (i : Nat) : Span := ⟨i, i + 1, 1⟩

def range (start stop : Nat) : Span := ⟨start, stop, 1⟩

/-- How many indices there are, where a step of zero counts as one. -/
def count (s : Span) : Nat := (s.stop - s.start + (max s.step 1 - 1)) / max s.step 1

/-- The span lies within `dim` indices and moves on. -/
def Fits (s : Span) (dim : Nat) : Prop := s.start ≤ s.stop ∧ s.stop ≤ dim ∧ s.step ≠ 0

instance (s : Span) (dim : Nat) : Decidable (s.Fits dim) := inferInstanceAs (Decidable (_ ∧ _))

def selection (s : Span) : Selection := ⟨s.start, s.count, s.step⟩

end Span

/-- One entry per dim; without a span the whole dim is taken. -/
abbrev Ranges := List (Option Span)

inductive UnaryAtom where
  | neg
  | abs
  /-- the sum of all entries, of each column (axis `0`) or of each row (any other axis) -/
  | sum (axis : Option Nat)
  /-- the entries by columns under another shape -/
  | reshape (target : Shape)
  | index (ranges : Ranges)
  | transpose
  | trace
  /-- the diagonal matrix of a vector, and the diagonal of anything else -/
  | diag
  /-- the Euclidean norm of all entries -/
  | norm
  | sumSquares
deriving DecidableEq

inductive BinaryAtom where
  | add
  /-- the elementwise product -/
  | mul
  | matmul
  /-- `x' P x` -/
  | quadForm
deriving DecidableEq

inductive Direction where
  | vertical
  | horizontal
deriving DecidableEq

/-- Expressions with constants in `α`. -/
inductive Expr (α : Type) where
  | var (v : Variable)
  | const (id : Ident) (value : Value α)
  | unary (op : UnaryAtom) (arg : Expr α)
  | binary (op : BinaryAtom) (left right : Expr α)
  | stack (direction : Direction) (parts : List (Expr α))

namespace Expr

variable {α : Type}

/-- Induction over expressions, with the hypothesis for every part of a stack. -/
@[elab_as_elim]
theorem ind {P : Expr α → Prop} (var : ∀ v, P (.var v)) (const : ∀ id c, P (.const id c))
    (unary : ∀ op a, P a → P (.unary op a))
    (binary : ∀ op a b, P a → P b → P (.binary op a b))
    (stack : ∀ d es, (∀ e ∈ es, P e) → P (.stack d es)) (e : Expr α) : P e :=
  Expr.rec (motive_1 := P) (motive_2 := fun es => ∀ e ∈ es, P e) var const unary binary stack
    (fun _ h => nomatch h)
    (fun _ _ hd tl _ he => by
      rcases List.mem_cons.mp he with rfl | he
      · exact hd
      · exact tl _ he) e

/-! ## Views -/

/-- The arguments of a node, in order. -/
def children : Expr α → List (Expr α)
  | .var _ | .const _ _ => []
  | .unary _ a => [a]
  | .binary _ a b => [a, b]
  | .stack _ parts => parts

def asVariable? : Expr α → Option Variable
  | .var v => some v
  | _ => none

def constantValue? : Expr α → Option (Value α)
  | .const _ c => some c
  | _ => none

/-- Applies `f` to a variable and leaves every other expression alone. -/
def mapVariable (f : Variable → Variable) : Expr α → Expr α
  | .var v => .var (f v)
  | e => e

/-! ## Atoms -/

def neg (a : Expr α) : Expr α := .unary .neg a
def abs (a : Expr α) : Expr α := .unary .abs a
def sum (a : Expr α) : Expr α := .unary (.sum none) a
def sumAxis (axis : Nat) (a : Expr α) : Expr α := .unary (.sum (some axis)) a
def reshape (target : Shape) (a : Expr α) : Expr α := .unary (.reshape target) a
def index (ranges : Ranges) (a : Expr α) : Expr α := .unary (.index ranges) a
def transpose (a : Expr α) : Expr α := .unary .transpose a
def trace (a : Expr α) : Expr α := .unary .trace a
def diag (a : Expr α) : Expr α := .unary .diag a
def norm (a : Expr α) : Expr α := .unary .norm a
def sumSquares (a : Expr α) : Expr α := .unary .sumSquares a
def add (a b : Expr α) : Expr α := .binary .add a b
def mul (a b : Expr α) : Expr α := .binary .mul a b
def matmul (a b : Expr α) : Expr α := .binary .matmul a b
def quadForm (x p : Expr α) : Expr α := .binary .quadForm x p
def vstack (parts : List (Expr α)) : Expr α := .stack .vertical parts
def hstack (parts : List (Expr α)) : Expr α := .stack .horizontal parts

/-- `a + (-b)`. -/
def sub (a b : Expr α) : Expr α := a.add b.neg

def dot (a b : Expr α) : Expr α := a.matmul b

def entry (i : Nat) (a : Expr α) : Expr α := a.index [some (.element i)]

def slice (start stop : Nat) (a : Expr α) : Expr α := a.index [some (.range start stop)]

/-! ## Constants -/

/-- A constant with a fresh id. -/
def constant (c : Value α) : Fresh (Expr α) := fun next => (.const next c, next + 1)

def number (x : α) : Fresh (Expr α) := constant (.scalar x)

/-- `k * a`, with `k` as a constant on the left. -/
def scale (k : α) (a : Expr α) : Fresh (Expr α) := do return (← number k).mul a

variable [Scalar α]

/-- `a / k`, as a product with one over `k`. -/
def divide (a : Expr α) (k : α) : Fresh (Expr α) := a.scale (1 / k)

/-- A constant of the given shape whose entries are all `x`. -/
def filled (s : Shape) (x : α) : Fresh (Expr α) :=
  if s.isScalar then number x else constant (.dense (.filled s.rows s.cols x))

def zeros (s : Shape) : Fresh (Expr α) := filled s 0
def ones (s : Shape) : Fresh (Expr α) := filled s 1

def eye (n : Nat) : Fresh (Expr α) := constant (.dense (.identity n))

end Expr
end ConvexProgram
