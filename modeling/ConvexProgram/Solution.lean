import Std.Data.ExtTreeMap
import ConvexProgram.Constraint

/-!
# Solutions

What a solver returns: a status, perhaps an objective value, the values of variables, and the dual
values of constraints.

* `Table`               values by id, listed in increasing order of the ids;
* `Solution.scalarAt`   the number found for a variable;
* `Solution.matrixAt`   the dense matrix found for a variable.
-/

namespace ConvexProgram

abbrev Table (α : Type) := Std.ExtTreeMap Ident (Value α)

namespace Table

variable {α : Type}

/-- The table of a list of pairs; of those with one id, the last. -/
def ofPairs (ps : List (Ident × Value α)) : Table α := ps.foldl (fun t p => t.insert p.1 p.2) ∅

def assignment (t : Table α) : Assignment α := fun id => t[id]?

end Table

inductive Status where
  | optimal
  | optimalInaccurate
  | infeasible
  | unbounded
  | maxIterations
  | numericalError
  | unknown
deriving DecidableEq

/-- The status comes with values for the variables. -/
def Status.hasSolution : Status → Bool
  | .optimal | .optimalInaccurate => true
  | _ => false

structure Solution (α : Type) where
  status : Status
  value : Option α
  primal : Table α
  dual : Table α

/-- Why a solution has no entry of the form asked for. -/
inductive LookupFault where
  | notVariable
  | absent
  | notScalar
  | scalarValue
  | sparseValue
deriving DecidableEq

namespace LookupFault

def reason : LookupFault → String
  | notVariable => "Expression is not a variable"
  | absent => "Variable not in solution"
  | notScalar => "Variable is not scalar; use index operator for vectors/matrices"
  | scalarValue => "Variable is scalar, use .value() method instead of indexing"
  | sparseValue => "Variable value is sparse"

/-- The text of a lookup of a number that reports its fault. -/
def message (f : LookupFault) : String := Fault.invalidText f.reason

/-- The last words of a lookup of a number that must not fail. -/
def abortText (f : LookupFault) : String :=
  "failed to get scalar value: InvalidProblem(\"" ++ f.reason ++ "\")"

end LookupFault

namespace Solution

variable {α : Type}

/-- A solution that carries a status alone. -/
def failure (status : Status) : Solution α := ⟨status, none, ∅, ∅⟩

def hasDuals (s : Solution α) : Bool := !s.dual.isEmpty

def value? (s : Solution α) (id : Ident) : Option (Value α) := s.primal[id]?

def dual? (s : Solution α) (c : Constraint α) : Option (Value α) := s.dual[c.id]?

/-- The value found for a variable. -/
def valueAt (s : Solution α) (e : Expr α) : Except LookupFault (Value α) :=
  match e.asVariable? with
  | none => .error .notVariable
  | some v =>
    match s.value? v.id with
    | none => .error .absent
    | some c => .ok c

/-- The dense matrix found for a variable. -/
def matrixAt (s : Solution α) (e : Expr α) : Except LookupFault (Matrix α) := do
  match ← s.valueAt e with
  | .dense m => .ok m
  | .scalar _ => .error .scalarValue
  | .sparse _ => .error .sparseValue

/-- The number found for a variable, also where it is stored as a dense `1 × 1` matrix. -/
def scalarAt [Scalar α] (s : Solution α) (e : Expr α) : Except LookupFault α := do
  match (← s.valueAt e).asScalar? with
  | some x => .ok x
  | none => .error .notScalar

end Solution
end ConvexProgram
