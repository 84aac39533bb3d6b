import ConvexProgram.Constraint

/-!
# Problems

A problem minimises or maximises an expression under constraints.

* `Problem.leaves`        its variables where they stand, objective first;
* `Problem.unknowns`      each variable as it stands first;
* `Problem.subst`         the problem with variables replaced throughout;
* `Problem.maxViolation`  the largest violation of a constraint.
-/

namespace ConvexProgram

inductive Sense where
  | minimize
  | maximize
deriving DecidableEq

structure Problem (α : Type) where
  sense : Sense
  objective : Expr α
  constraints : List (Constraint α)

namespace Problem

variable {α : Type}

/-- The variables of the objective and of each constraint in order, with repetitions. -/
def leaves (p : Problem α) : List Variable :=
  p.objective.leaves ++ p.constraints.flatMap Constraint.leaves

/-- The distinct variables in the order in which they appear; of those with one id, the first. -/
def unknowns (p : Problem α) : List Variable := Variable.firstOfEach p.leaves

def variableIds (p : Problem α) : List Ident := Variable.sortedIds p.leaves

def subst (θ : Substitution α) (p : Problem α) : Problem α where
  sense := p.sense
  objective := p.objective.subst θ
  constraints := p.constraints.map (Constraint.subst θ)

theorem leaves_subst (θ : Substitution α) (p : Problem α) :
    (p.subst θ).leaves = p.leaves.flatMap fun v => ((Expr.var v).subst θ).leaves := by
  unfold leaves subst
  rw [List.flatMap_append, Expr.leaves_subst, List.flatMap_map, List.flatMap_assoc]
  have hcs : p.constraints.flatMap (fun c => (c.subst θ).leaves)
      = p.constraints.flatMap fun c => c.leaves.flatMap fun v => ((Expr.var v).subst θ).leaves :=
    congrArg List.flatten (List.map_congr_left fun c _ => Constraint.leaves_subst θ c)
  rw [hcs]

theorem subst_eq_self {θ : Substitution α} {p : Problem α}
    (h : ∀ v ∈ p.leaves, (Expr.var v).subst θ = .var v) : p.subst θ = p := by
  have hobj : p.objective.subst θ = p.objective :=
    Expr.subst_eq_self fun v hv => h v (List.mem_append_left _ hv)
  have hcs : ∀ c ∈ p.constraints, c.subst θ = c := fun c hc => Constraint.subst_eq_self fun v hv =>
    h v (List.mem_append_right _ (List.mem_flatMap.mpr ⟨c, hc, hv⟩))
  rw [subst, hobj, List.map_congr_left hcs, List.map_id']

variable [Scalar α] [Spectral α]

omit [Spectral α] in
def objectiveValue (σ : Assignment α) (p : Problem α) : Except Fault (Value α) :=
  p.objective.value σ

/-- The larger of `worst` and the violation of each constraint, up to the first fault. -/
def worstViolation (σ : Assignment α) (worst : α) : List (Constraint α) → Except Fault α
  | [] => .ok worst
  | c :: cs => do
    let x ← c.violation σ
    worstViolation σ (Scalar.larger worst x) cs

/-- The largest violation of a constraint; zero if all hold or there is none. -/
def maxViolation (σ : Assignment α) (p : Problem α) : Except Fault α :=
  worstViolation σ 0 p.constraints

end Problem
end ConvexProgram
