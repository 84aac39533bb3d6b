import ConvexProgram.Expr.Basic

/-!
# Leaves

The variables of an expression as they stand in it, left to right, one entry for each place.
-/

namespace ConvexProgram
namespace Expr

variable {α : Type}

mutual
/-- The variables of an expression, from left to right and with repetitions. -/
def leaves : Expr α → List Variable
  | .var v => [v]
  | .const _ _ => []
  | .unary _ a => a.leaves
  | .binary _ a b => a.leaves ++ b.leaves
  | .stack _ parts => leavesList parts

def leavesList : List (Expr α) → List Variable
  | [] => []
  | e :: es => e.leaves ++ leavesList es
end

theorem leavesList_eq_flatMap (es : List (Expr α)) : leavesList es = es.flatMap leaves := by
  induction es with
  | nil => rfl
  | cons e es ih => rw [leavesList, ih, List.flatMap_cons]

@[simp] theorem leaves_var (v : Variable) : (Expr.var v : Expr α).leaves = [v] := rfl

@[simp] theorem leaves_const (id : Ident) (c : Value α) : (Expr.const id c).leaves = [] := rfl

@[simp] theorem leaves_unary (op : UnaryAtom) (a : Expr α) :
    (Expr.unary op a).leaves = a.leaves := rfl

@[simp] theorem leaves_binary (op : BinaryAtom) (a b : Expr α) :
    (Expr.binary op a b).leaves = a.leaves ++ b.leaves := rfl

@[simp] theorem leaves_stack (d : Direction) (parts : List (Expr α)) :
    (Expr.stack d parts).leaves = parts.flatMap leaves := leavesList_eq_flatMap parts

def variableIds (e : Expr α) : List Ident := Variable.sortedIds e.leaves

end Expr
end ConvexProgram
