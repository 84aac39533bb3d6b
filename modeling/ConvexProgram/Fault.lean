import ConvexProgram.Shape

/-!
# Faults

What can go wrong when an expression is evaluated or a problem reduced, one constructor a cause.
A fault is of one of three kinds: shapes that do not fit, a problem that is not valid, or a
breakdown, where an operation on matrices is asked for something it does not define.  Breakdowns
carry no text.

* `Fault.kind`      which of the three kinds a cause belongs to;
* `Fault.message`   the full text of a cause.
-/

namespace ConvexProgram

inductive Fault.Kind where
  | shapeMismatch
  | invalidProblem
  | breakdown
deriving DecidableEq

/-- The size of a matrix, for texts. -/
structure Extent where
  rows : Nat
  cols : Nat
deriving DecidableEq

/-- Why there is no result. -/
inductive Fault where
  | unassigned (label : String)
  | valueSize (declared given : Shape)
  | reshapeSize (target : Shape) (given : Extent)
  | operandSizes (left right : Extent)
  /-- an index range is reversed, has no step, or ends after the dim -/
  | indexRange (start stop dim : Nat)
  | stackCols (cols : Nat) (given : Extent)
  | stackRows (rows : Nat) (given : Extent)
  | notSquare (given : Extent)
  | contraction (needed : Nat) (left : Extent) (right : Shape)
  | quadForm (given : Extent)
  | coneBound (given : Extent)
  | symmetricShape (declared : Shape)
  | packedLength (needed : Nat) (given : Shape)
  /-- stored entries were read as a matrix with another number of entries -/
  | storage
  /-- the first column of a matrix without columns was needed -/
  | noColumn
  /-- eigenvalues were needed of a matrix that has none to offer -/
  | spectrum
deriving DecidableEq

/-- `(rows, cols)`. -/
def Extent.text (e : Extent) : String := (Shape.matrix e.rows e.cols).text

namespace Fault

def kind : Fault → Kind
  | unassigned _ | indexRange _ _ _ => .invalidProblem
  | storage | noColumn | spectrum => .breakdown
  | _ => .shapeMismatch

/-- The text of two shapes that do not fit. -/
def mismatchText (expected got : String) : String :=
  "Shape mismatch: expected " ++ expected ++ ", got " ++ got

def invalidText (reason : String) : String := "Invalid problem: " ++ reason

def message : Fault → String
  | unassigned label => invalidText ("no value assigned to variable " ++ label)
  | valueSize declared given => mismatchText declared.text given.text
  | reshapeSize target given => mismatchText target.text given.text
  | operandSizes left right => mismatchText left.text right.text
  | indexRange start stop dim =>
    invalidText ("invalid index range " ++ start.repr ++ ".." ++ stop.repr ++
      " for dimension " ++ dim.repr)
  | stackCols cols given => mismatchText (cols.repr ++ " columns") given.text
  | stackRows rows given => mismatchText (rows.repr ++ " rows") given.text
  | notSquare given => mismatchText "square matrix" given.text
  | contraction needed left right =>
    mismatchText (needed.repr ++ " columns on the left operand") (left.text ++ " @ " ++ right.text)
  | quadForm given => mismatchText "square matrix matching x" given.text
  | coneBound given => mismatchText "scalar bound" given.text
  | symmetricShape declared => mismatchText "square symmetric variable" declared.text
  | packedLength needed given => mismatchText (Shape.vector needed).text given.text
  | storage | noColumn | spectrum => ""

end Fault
end ConvexProgram
