import ConvexProgram.Problem

/-!
# Ids that occur

Variables, constants and constraints share one counter.  `Problem.ids` lists the ids of all three,
as they stand in a problem.
-/

namespace ConvexProgram

variable {α : Type}

namespace Expr

mutual
/-- The ids of the constants of an expression, from left to right and with repetitions. -/
def constantIds : Expr α → List Ident
  | .var _ => []
  | .const id _ => [id]
  | .unary _ a => a.constantIds
  | .binary _ a b => a.constantIds ++ b.constantIds
  | .stack _ parts => constantIdsList parts

def constantIdsList : List (Expr α) → List Ident
  | [] => []
  | e :: es => e.constantIds ++ constantIdsList es
end

theorem constantIdsList_eq_flatMap (es : List (Expr α)) :
    constantIdsList es = es.flatMap constantIds := by
  induction es with
  | nil => rfl
  | cons e es ih => rw [constantIdsList, ih, List.flatMap_cons]

@[simp] theorem constantIds_var (v : Variable) : (Expr.var v : Expr α).constantIds = [] := rfl

@[simp] theorem constantIds_const (id : Ident) (c : Value α) :
    (Expr.const id c).constantIds = [id] := rfl

@[simp] theorem constantIds_unary (op : UnaryAtom) (a : Expr α) :
    (Expr.unary op a).constantIds = a.constantIds := rfl

@[simp] theorem constantIds_binary (op : BinaryAtom) (a b : Expr α) :
    (Expr.binary op a b).constantIds = a.constantIds ++ b.constantIds := rfl

@[simp] theorem constantIds_stack (d : Direction) (parts : List (Expr α)) :
    (Expr.stack d parts).constantIds = parts.flatMap constantIds := constantIdsList_eq_flatMap parts

end Expr

def Constraint.constantIds (c : Constraint α) : List Ident := c.body.args.flatMap Expr.constantIds

namespace Problem

def constantIds (p : Problem α) : List Ident :=
  p.objective.constantIds ++ p.constraints.flatMap Constraint.constantIds

/-- The ids of the variables, the constants and the constraints. -/
def ids (p : Problem α) : List Ident :=
  p.leaves.map Variable.id ++ p.constantIds ++ p.constraints.map Constraint.id

theorem id_mem_ids {p : Problem α} {v : Variable} (h : v ∈ p.leaves) : v.id ∈ p.ids :=
  List.mem_append_left _ (List.mem_append_left _ (List.mem_map_of_mem h))

end Problem
end ConvexProgram
