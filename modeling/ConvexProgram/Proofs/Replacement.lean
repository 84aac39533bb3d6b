import ConvexProgram.Proofs.Arithmetic
import ConvexProgram.Proofs.Leaf

/-!
# Values behind a substitution

A substitution is undone by the right values: where each variable that is replaced is given the
entries of its replacement, the given expression evaluates as the one after the substitution does
(`subst_same_outcome`).  Nothing is asked of a variable that does not occur.
-/

namespace ConvexProgram

open Fault

section
variable {α : Type} [Scalar α]

/-- The values `τ` are those that a substitution puts in place of the variable under `σ`. -/
structure Substitution.Traces (θ : Substitution α) (σ τ : Assignment α) (v : Variable) : Prop where
  shape : ∀ a, θ v.id = some a → a.shape = v.shape
  /-- the replacement evaluates in the sizes of the variable, which has its entries -/
  entries : ∀ a, θ v.id = some a → ∃ c d, a.value σ = .ok c ∧ τ v.id = some d ∧
    c.toMatrix.HasShape v.shape ∧ v.shape.rows * v.shape.cols = v.shape.size ∧
    d.toMatrix.entries = c.toMatrix.entries
  /-- a variable that stays keeps its value -/
  stays : θ v.id = none → τ v.id = σ v.id

namespace Substitution.Traces

variable {θ : Substitution α} {σ τ : Assignment α} {v : Variable}

theorem keepsShape (h : θ.Traces σ τ v) : θ.KeepsShape v := by
  unfold KeepsShape
  rw [Expr.subst_var]
  cases hθ : θ v.id with
  | none => exact Expr.shape_var v
  | some a => exact h.shape a hθ

theorem keepsMatrix (h : θ.Traces σ τ v) : θ.KeepsMatrix σ τ v := by
  unfold KeepsMatrix
  rw [Expr.subst_var]
  cases hθ : θ v.id with
  | none => exact Variable.outcome_matrix_congr rfl (h.stays hθ).symm
  | some a =>
    obtain ⟨c, d, hc, hd, hshape, hsize, hentries⟩ := h.entries a hθ
    have ha : a.matrix σ = .ok c.toMatrix := Expr.matrix_of_value hc
    have hcount : d.toMatrix.size = v.shape.size := by
      rw [← d.toMatrix.size_entries, hentries, c.toMatrix.size_entries, hshape.size, hsize]
    obtain ⟨m, hm, hms, hme⟩ := Variable.exists_matrix hd hcount hsize.symm
    -- both have the sizes of the variable and the same entries
    have hmc : m = c.toMatrix := hms.ext hshape (hme.trans hentries)
    rw [Option.getD_some, ha, hm, hmc]

theorem keeps_of_forall {vs : List Variable} (h : ∀ v ∈ vs, θ.Traces σ τ v) :
    (∀ v ∈ vs, θ.KeepsShape v) ∧ ∀ v ∈ vs, θ.KeepsMatrix σ τ v :=
  ⟨fun v hv => (h v hv).keepsShape, fun v hv => (h v hv).keepsMatrix⟩

end Substitution.Traces

end

/-- **Substitution lemma.**  An expression, a constraint and a problem have the outcome after a
substitution that they have before it under the values that it puts in; and an expression keeps its
shape. -/
theorem subst_same_outcome {α : Type} [Scalar α] [Spectral α] {θ : Substitution α}
    {σ τ : Assignment α} :
    (∀ e : Expr α, (∀ v ∈ e.leaves, θ.Traces σ τ v) →
      (e.subst θ).shape = e.shape ∧ outcome ((e.subst θ).value σ) = outcome (e.value τ)) ∧
    (∀ c : Constraint α, (∀ v ∈ c.leaves, θ.Traces σ τ v) →
      outcome ((c.subst θ).violation σ) = outcome (c.violation τ)) ∧
    ∀ p : Problem α, (∀ v ∈ p.leaves, θ.Traces σ τ v) →
      outcome ((p.subst θ).objectiveValue σ) = outcome (p.objectiveValue τ) ∧
      outcome ((p.subst θ).maxViolation σ) = outcome (p.maxViolation τ) := by
  refine ⟨?_, ?_, ?_⟩
  · intro e h
    obtain ⟨hs, hm⟩ := Substitution.Traces.keeps_of_forall h
    exact ⟨Expr.shape_subst hs, Expr.outcome_value_subst hs hm⟩
  · intro c h
    obtain ⟨hs, hm⟩ := Substitution.Traces.keeps_of_forall h
    exact Constraint.outcome_violation_subst hs hm
  · intro p h
    obtain ⟨hs, hm⟩ := Substitution.Traces.keeps_of_forall h
    unfold Problem.leaves at hs hm
    rw [List.forall_mem_append] at hs hm
    exact ⟨Expr.outcome_value_subst hs.1 hm.1, Problem.outcome_worstViolation_subst hs.2 hm.2⟩

/-! ## Two vectors that change places -/

/-- The squares of `x` are minimised while `x - y` is nonpositive and the norm of `y` is at most `z`. -/
def Problem.ordered : Problem ℚ where
  sense := .minimize
  objective := (Expr.var ⟨0, .vector 2, none, {}⟩).sumSquares
  constraints :=
    [⟨3, .compare .nonpos ((Expr.var ⟨0, .vector 2, none, {}⟩).sub
        (.var ⟨1, .vector 2, none, {}⟩))⟩,
     ⟨4, .cone (.var ⟨2, .scalar, none, {}⟩) (.var ⟨1, .vector 2, none, {}⟩)⟩]

/-- `y` for `x`, and `x + x` for `y`. -/
def Substitution.crossed : Substitution ℚ
  | 0 => some (.var ⟨1, .vector 2, none, {}⟩)
  | 1 => some ((Expr.var ⟨0, .vector 2, none, {}⟩).add (.var ⟨0, .vector 2, none, {}⟩))
  | _ => none

/-- The values of `x`, `y` and `z`. -/
def Assignment.ofTriple (x y : Array ℚ) (z : ℚ) : Assignment ℚ
  | 0 => some (.ofColumn x)
  | 1 => some (.ofColumn y)
  | 2 => some (.scalar z)
  | _ => none

theorem Substitution.crossed_traces : ∀ v ∈ Problem.ordered.leaves,
    crossed.Traces (.ofTriple #[1, 2] #[3, 4] 7) (.ofTriple #[3, 4] #[2, 4] 7) v := by
  have hx : crossed.Traces (.ofTriple #[1, 2] #[3, 4] 7) (.ofTriple #[3, 4] #[2, 4] 7)
      ⟨0, .vector 2, none, {}⟩ := by
    refine ⟨?_, ?_, nofun⟩
    · intro a ha
      cases ha
      rfl
    · intro a ha
      cases ha
      exact ⟨_, _, rfl, rfl, ⟨rfl, rfl⟩, rfl, rfl⟩
  have hy : crossed.Traces (.ofTriple #[1, 2] #[3, 4] 7) (.ofTriple #[3, 4] #[2, 4] 7)
      ⟨1, .vector 2, none, {}⟩ := by
    refine ⟨?_, ?_, nofun⟩
    · intro a ha
      cases ha
      rfl
    · intro a ha
      cases ha
      exact ⟨_, _, rfl, rfl, ⟨rfl, rfl⟩, rfl, by decide +kernel⟩
  have hz : crossed.Traces (.ofTriple #[1, 2] #[3, 4] 7) (.ofTriple #[3, 4] #[2, 4] 7)
      ⟨2, .scalar, none, {}⟩ := ⟨nofun, nofun, fun _ => rfl⟩
  have hl : Problem.ordered.leaves = [⟨0, .vector 2, none, {}⟩, ⟨0, .vector 2, none, {}⟩,
      ⟨1, .vector 2, none, {}⟩, ⟨2, .scalar, none, {}⟩, ⟨1, .vector 2, none, {}⟩] := rfl
  rw [hl]
  simp only [List.forall_mem_cons]
  exact ⟨hx, hx, hy, hz, hy, nofun⟩

theorem subst_same_outcome_crossed :
    (∀ v ∈ Problem.ordered.leaves, Substitution.crossed.Traces
      (.ofTriple #[1, 2] #[3, 4] 7) (.ofTriple #[3, 4] #[2, 4] 7) v) ∧
    outcome ((Problem.ordered.subst .crossed).objectiveValue (.ofTriple #[1, 2] #[3, 4] 7))
      = outcome (Problem.ordered.objectiveValue (.ofTriple #[3, 4] #[2, 4] 7)) ∧
    (Problem.ordered.subst .crossed).maxViolation (.ofTriple #[1, 2] #[3, 4] 7) = .ok 1 := by
  obtain ⟨hobj, hmax⟩ := subst_same_outcome.2.2 Problem.ordered Substitution.crossed_traces
  refine ⟨Substitution.crossed_traces, hobj, eq_ok_of_outcome hmax ?_⟩
  decide +kernel

end ConvexProgram
