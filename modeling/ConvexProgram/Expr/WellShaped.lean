import ConvexProgram.Expr.Shape

/-!
# Well-shaped expressions

An expression is well-shaped if, at every node, the declared shapes of the arguments are such that
the node has a meaning.  Each atom has its own rule, beside its rule for shapes.

* `Shape.Proper`       a scalar, a vector or a matrix with no dim of zero;
* `Ranges.Accepts`     ranges that pick part of a vector or a matrix, a single row only with a
                       single column;
* `UnaryAtom.Accepts`, `BinaryAtom.Accepts`, `Direction.Accepts`   what a node asks of its arguments;
* `Expr.WellShaped`    all of this at every node.
-/

namespace ConvexProgram

def Shape.Proper (s : Shape) : Prop := s.ndim ≤ 2 ∧ ∀ d ∈ s.dims, 1 ≤ d

instance (s : Shape) : Decidable s.Proper := inferInstanceAs (Decidable (_ ∧ _))

namespace Span

/-- The span picks something, within `dim` indices. -/
def Within (s : Span) (dim : Nat) : Prop := s.start < s.stop ∧ s.stop ≤ dim ∧ 1 ≤ s.step

instance (s : Span) (dim : Nat) : Decidable (s.Within dim) := inferInstanceAs (Decidable (_ ∧ _))

/-- How many of `dim` indices are picked; without a span all are. -/
def picked (dim : Nat) : Option Span → Nat
  | none => dim
  | some s => s.count

end Span

/-- One range for a vector and two for a matrix.  A span that picks a single row drops the dim of
the rows from the declared shape, so it has to come with a single column. -/
def Ranges.Accepts (ranges : Ranges) (s : Shape) : Prop :=
  match s.dims, ranges with
  | [n], [r] => ∀ t ∈ r, t.Within n
  | [m, n], [r, c] =>
    (∀ t ∈ r, t.Within m) ∧ (∀ t ∈ c, t.Within n) ∧ ((∃ t ∈ r, t.count = 1) → Span.picked n c = 1)
  | _, _ => False

instance (ranges : Ranges) (s : Shape) : Decidable (ranges.Accepts s) :=
  match s, ranges with
  | ⟨[n]⟩, [r] => inferInstanceAs (Decidable (∀ t ∈ r, t.Within n))
  | ⟨[m, n]⟩, [r, c] =>
    inferInstanceAs (Decidable ((∀ t ∈ r, t.Within m) ∧ (∀ t ∈ c, t.Within n) ∧
      ((∃ t ∈ r, t.count = 1) → Span.picked n c = 1)))
  | ⟨[]⟩, _ | ⟨[_]⟩, [] | ⟨[_]⟩, _ :: _ :: _ | ⟨[_, _]⟩, [] | ⟨[_, _]⟩, [_]
  | ⟨[_, _]⟩, _ :: _ :: _ :: _ | ⟨_ :: _ :: _ :: _⟩, _ => inferInstanceAs (Decidable False)

def UnaryAtom.Accepts (op : UnaryAtom) (s : Shape) : Prop :=
  match op with
  | .reshape target => target.Proper ∧ target.size = s.size
  | .index ranges => ranges.Accepts s
  | .trace => s.rows = s.cols
  | .neg | .abs | .sum _ | .transpose | .diag | .norm | .sumSquares => True

instance (op : UnaryAtom) (s : Shape) : Decidable (op.Accepts s) :=
  match op with
  | .reshape target => inferInstanceAs (Decidable (target.Proper ∧ target.size = s.size))
  | .index ranges => inferInstanceAs (Decidable (ranges.Accepts s))
  | .trace => inferInstanceAs (Decidable (s.rows = s.cols))
  | .neg | .abs | .sum _ | .transpose | .diag | .norm | .sumSquares => .isTrue trivial

def BinaryAtom.Accepts (op : BinaryAtom) (s t : Shape) : Prop :=
  match op with
  | .add | .mul => s = t ∨ s = .scalar ∨ t = .scalar
  | .matmul => (s.matmul t).isSome
  | .quadForm => t.rows = s.size ∧ t.cols = s.size

instance (op : BinaryAtom) (s t : Shape) : Decidable (op.Accepts s t) :=
  match op with
  | .add | .mul => inferInstanceAs (Decidable (s = t ∨ s = .scalar ∨ t = .scalar))
  | .matmul => inferInstanceAs (Decidable (s.matmul t).isSome)
  | .quadForm => inferInstanceAs (Decidable (t.rows = s.size ∧ t.cols = s.size))

/-- At least one part, and all of them as wide or as high as the others. -/
def Direction.Accepts (d : Direction) (ss : List Shape) : Prop :=
  ss ≠ [] ∧
    match d with
    | .vertical => ∀ s ∈ ss, ∀ t ∈ ss, s.cols = t.cols
    | .horizontal => ∀ s ∈ ss, ∀ t ∈ ss, s.rows = t.rows

instance (d : Direction) (ss : List Shape) : Decidable (d.Accepts ss) :=
  match d with
  | .vertical => inferInstanceAs (Decidable (ss ≠ [] ∧ ∀ s ∈ ss, ∀ t ∈ ss, s.cols = t.cols))
  | .horizontal => inferInstanceAs (Decidable (ss ≠ [] ∧ ∀ s ∈ ss, ∀ t ∈ ss, s.rows = t.rows))

namespace Expr

variable {α : Type}

mutual
def WellShaped : Expr α → Prop
  | .var v => v.shape.Proper
  | .const _ c => c.shape.Proper
  | .unary op a => WellShaped a ∧ op.Accepts a.shape
  | .binary op a b => WellShaped a ∧ WellShaped b ∧ op.Accepts a.shape b.shape
  | .stack d parts => WellShapedList parts ∧ d.Accepts (shapes parts)

def WellShapedList : List (Expr α) → Prop
  | [] => True
  | e :: es => WellShaped e ∧ WellShapedList es
end

theorem wellShapedList_iff {es : List (Expr α)} :
    WellShapedList es ↔ ∀ e ∈ es, e.WellShaped := by
  induction es with
  | nil => exact ⟨fun _ _ he => absurd he List.not_mem_nil, fun _ => trivial⟩
  | cons e es ih => rw [WellShapedList, ih, List.forall_mem_cons]

theorem wellShaped_unary {op : UnaryAtom} {a : Expr α} :
    (Expr.unary op a).WellShaped ↔ a.WellShaped ∧ op.Accepts a.shape := Iff.rfl

theorem wellShaped_binary {op : BinaryAtom} {a b : Expr α} :
    (Expr.binary op a b).WellShaped ↔
      a.WellShaped ∧ b.WellShaped ∧ op.Accepts a.shape b.shape := Iff.rfl

theorem wellShaped_stack {d : Direction} {parts : List (Expr α)} :
    (Expr.stack d parts).WellShaped ↔
      (∀ e ∈ parts, e.WellShaped) ∧ d.Accepts (parts.map shape) := by
  rw [← shapes_eq_map, ← wellShapedList_iff]
  rfl

mutual
def decWellShaped : (e : Expr α) → Decidable e.WellShaped
  | .var v => inferInstanceAs (Decidable v.shape.Proper)
  | .const _ c => inferInstanceAs (Decidable c.shape.Proper)
  | .unary op a =>
    have := decWellShaped a
    inferInstanceAs (Decidable (_ ∧ op.Accepts a.shape))
  | .binary op a b =>
    have := decWellShaped a
    have := decWellShaped b
    inferInstanceAs (Decidable (_ ∧ _ ∧ op.Accepts a.shape b.shape))
  | .stack d parts =>
    have := decWellShapedList parts
    inferInstanceAs (Decidable (_ ∧ d.Accepts (shapes parts)))

def decWellShapedList : (es : List (Expr α)) → Decidable (WellShapedList es)
  | [] => .isTrue trivial
  | e :: es =>
    have := decWellShaped e
    have := decWellShapedList es
    inferInstanceAs (Decidable (_ ∧ _))
end

instance (e : Expr α) : Decidable e.WellShaped := decWellShaped e

end Expr
end ConvexProgram
