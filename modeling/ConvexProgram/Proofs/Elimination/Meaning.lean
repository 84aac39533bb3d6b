import ConvexProgram.Proofs.Elimination.Rows
import ConvexProgram.Proofs.Leaf
import ConvexProgram.Proofs.Unpacking

/-!
# An elimination keeps the meaning of a problem

A solution of the reduced problem is carried back to the declared variables.  Under the recovered
values every leaf has the matrix that its replacement has under the values found
(`Row.Made.outcome_matrix`): a relaxed variable has the value of its stand-in, and a packed one is
the symmetric matrix that its fill matrix makes of the packed column.  So the objective and every
given constraint have the same outcome on both sides (`eliminate_same_outcome`).
-/

namespace ConvexProgram

open Fault

variable {α : Type} [Scalar α]

/-! ## Rows -/

namespace Row

theorem recover_of_not_symmetric {r : Row α} (σ : Assignment α)
    (h : r.declared.isSymmetric = false) : r.recover σ = .ok (σ r.standIn.id) := by
  unfold recover
  cases σ r.standIn.id with
  | none => rfl
  | some c =>
    show (if r.declared.isSymmetric then _ else _) = _
    rw [h]
    rfl

/-- The value of a variable that was unpacked to `m`. -/
def fullValue (s : Shape) (m : Matrix α) : Value α :=
  if s.isScalar then .scalar (m.entry 0 0) else .dense m

theorem toMatrix_fullValue {s : Shape} {m : Matrix α} (hr : m.rows = s.rows) (hc : m.cols = s.cols) :
    (fullValue s m).toMatrix = m := by
  unfold fullValue
  split
  · next h =>
    have hs : s = .scalar := by
      obtain ⟨dims⟩ := s
      have hd : dims = [] := List.isEmpty_iff.mp h
      rw [hd]
      rfl
    subst hs
    exact Matrix.single_entry hr hc
  · rfl

theorem recover_of_none {r : Row α} {σ : Assignment α} (h : σ r.standIn.id = none) :
    r.recover σ = .ok none := by
  unfold recover
  rw [h]

/-- The value of a symmetric variable is unpacked from that of its stand-in. -/
theorem recover_of_value {r : Row α} {σ : Assignment α} {c : Value α}
    (h : r.declared.isSymmetric = true) (hc : σ r.standIn.id = some c) :
    r.recover σ = (UpperTriangle.unpack r.declared.shape.rows c).map fun m =>
      some (fullValue r.declared.shape m) := by
  unfold recover
  rw [hc]
  exact if_pos h

theorem recover_of_size {r : Row α} {σ : Assignment α} {c : Value α}
    (h : r.declared.isSymmetric = true) (hc : σ r.standIn.id = some c)
    (hsize : c.size = UpperTriangle.length r.declared.shape.rows) :
    r.recover σ = .ok (some (fullValue r.declared.shape
      (UpperTriangle.symmetrize r.declared.shape.rows c.toMatrix.entries))) := by
  rw [recover_of_value h hc, UpperTriangle.unpack_of_size hsize]
  rfl

/-- What is recovered of a symmetric variable. -/
theorem recover_of_symmetric {r : Row α} {σ : Assignment α} {o : Option (Value α)}
    (h : r.declared.isSymmetric = true) (hr : r.recover σ = .ok o) :
    (σ r.standIn.id = none ∧ o = none) ∨
    ∃ c, σ r.standIn.id = some c ∧ c.size = UpperTriangle.length r.declared.shape.rows ∧
      o = some (fullValue r.declared.shape
        (UpperTriangle.symmetrize r.declared.shape.rows c.toMatrix.entries)) := by
  cases hc : σ r.standIn.id with
  | none =>
    rw [recover_of_none hc] at hr
    exact Or.inl ⟨rfl, (Except.ok.inj hr).symm⟩
  | some c =>
    by_cases hsize : c.size = UpperTriangle.length r.declared.shape.rows
    · rw [recover_of_size h hc hsize] at hr
      exact Or.inr ⟨c, rfl, hsize, (Except.ok.inj hr).symm⟩
    · rw [recover_of_value h hc, UpperTriangle.unpack_of_size_ne hsize] at hr
      cases hr

/-- Replacing a packed variable is evaluating its column, filling and reshaping. -/
theorem matrix_unpacked (v : Variable) (id fillId : Ident) (σ : Assignment α) :
    (unpacked v id fillId).matrix σ = ((v.packed id).matrix σ).bind fun col =>
      (Matrix.product (.matrix (UpperTriangle.fill v.shape.rows : Sparse α).rows
          (UpperTriangle.fill v.shape.rows : Sparse α).cols) (v.packed id).shape
        (UpperTriangle.fill v.shape.rows : Sparse α).toMatrix col).bind
      ((UnaryAtom.reshape v.shape).apply ((Expr.const fillId
        (.sparse (UpperTriangle.fill v.shape.rows : Sparse α))).matmul (.var (v.packed id))).shape) := by
  unfold unpacked Expr.reshape Expr.matmul
  rw [Expr.matrix_unary, Expr.matrix_binary, Expr.matrix_const, Expr.matrix_var]
  cases (v.packed id).matrix σ with
  | error f => rfl
  | ok col => rfl

variable [Scalar.UnitLaws α]

theorem matrix_unpacked_of_size {v : Variable} {id fillId : Ident} {σ : Assignment α} {c : Value α}
    (hsq : v.shape.isSquare = true) (hpos : 0 < v.shape.rows) (hc : σ id = some c)
    (hsize : c.size = UpperTriangle.length v.shape.rows) :
    (unpacked v id fillId).matrix σ
      = .ok (UpperTriangle.symmetrize v.shape.rows c.toMatrix.entries) := by
  rw [← c.size_toMatrix] at hsize
  have hlen : 0 < UpperTriangle.length v.shape.rows :=
    Nat.zero_lt_of_lt (UpperTriangle.position_lt (le_refl 0) hpos)
  have hshape : (v.packed id).shape = .vector c.toMatrix.size := by rw [hsize]; rfl
  have hcol : (v.packed id).matrix σ = .ok (.column c.toMatrix.entries) := by
    rw [Variable.matrix_of_value hc, hshape, Matrix.withShape_vector]
    rw [hshape, Shape.size_vector (hsize ▸ hlen)]
  have hprod : Matrix.product (.matrix (UpperTriangle.fill v.shape.rows : Sparse α).rows
      (UpperTriangle.fill v.shape.rows : Sparse α).cols) (v.packed id).shape
      (UpperTriangle.fill v.shape.rows : Sparse α).toMatrix (.column c.toMatrix.entries)
      = .ok ((UpperTriangle.fill v.shape.rows : Sparse α).toMatrix.mul
        (.column c.toMatrix.entries)) := by
    refine if_pos ?_
    show (UpperTriangle.fill v.shape.rows : Sparse α).toMatrix.cols = c.toMatrix.entries.size
    rw [Sparse.cols_toMatrix, UpperTriangle.cols_fill, c.toMatrix.size_entries, hsize]
  have hfill := UpperTriangle.reshape?_fill_mul v.shape.rows c.toMatrix.entries
  rw [matrix_unpacked, hcol]
  show (Matrix.product _ _ _ _).bind _ = _
  rw [hprod]
  show (if _ then _ else _) = _
  rw [if_pos]
  · refine Matrix.withShape_of_reshape? ?_
    rw [Shape.cols_of_isSquare hsq]
    exact hfill
  · rw [Shape.size_of_isSquare hsq hpos]
    exact (Matrix.reshape?_eq_some_iff.mp hfill).1

/-- The expression of a packed variable against the variable under its unpacked value. -/
theorem outcome_matrix_unpacked {v w : Variable} {id fillId : Ident} {σ τ : Assignment α}
    {c : Value α} (hsq : v.shape.isSquare = true) (hs : v.shape = w.shape) (hc : σ id = some c)
    (hsize : c.size = UpperTriangle.length v.shape.rows)
    (hτ : τ w.id = some (fullValue v.shape
      (UpperTriangle.symmetrize v.shape.rows c.toMatrix.entries))) :
    outcome ((unpacked v id fillId).matrix σ) = outcome (w.matrix τ) := by
  have hcols : v.shape.rows = v.shape.cols := (Shape.cols_of_isSquare hsq).symm
  have hm := toMatrix_fullValue (s := v.shape)
    (m := UpperTriangle.symmetrize v.shape.rows c.toMatrix.entries) rfl hcols
  rcases Nat.eq_zero_or_pos v.shape.rows with h0 | hpos
  · -- without rows, both the column and the matrix have no entry where one is declared
    have hcol : outcome ((v.packed id).matrix σ) = .error .shapeMismatch := by
      refine Variable.outcome_matrix_of_size_ne hc ?_
      rw [c.size_toMatrix, hsize, h0, Shape.size_of_rows_zero]
      · decide
      · show UpperTriangle.length v.shape.rows = 0
        rw [h0]
        rfl
    rw [matrix_unpacked, outcome_bind_of_error _ hcol]
    symm
    refine Variable.outcome_matrix_of_size_ne hτ ?_
    rw [hm, ← hs, Shape.size_of_rows_zero h0]
    show v.shape.rows * v.shape.rows ≠ 1
    rw [h0]
    decide
  · rw [matrix_unpacked_of_size hsq hpos hc hsize, Variable.matrix_of_value hτ, hm, ← hs,
      Matrix.withShape_self rfl hcols]
    rw [hm, ← hs, Shape.size_of_isSquare hsq hpos]
    rfl

/-- **Each replacement evaluates as the declared variable does under its recovered value.** -/
theorem Made.outcome_matrix {r : Row α} (hr : r.Made) {v : Variable} {σ τ : Assignment α}
    (hs : r.declared.shape = v.shape) (hτ : r.recover σ = .ok (τ v.id)) :
    outcome (r.replacement.matrix σ) = outcome (v.matrix τ) := by
  cases hr with
  | packed w id fillId hsym hsq =>
    obtain ⟨hn, hv⟩ | ⟨c, hc, hsize, hv⟩ := recover_of_symmetric hsym hτ
    · have hcol := Variable.outcome_matrix_of_none (v := w.packed id) hn
      show outcome ((unpacked w id fillId).matrix σ) = outcome (v.matrix τ)
      rw [Variable.outcome_matrix_of_none hv, matrix_unpacked, outcome_bind_of_error _ hcol]
    · exact outcome_matrix_unpacked hsq hs hc hsize hv
  | relaxed w id rel hsym hrel =>
    rw [recover_of_not_symmetric σ hsym] at hτ
    exact Variable.outcome_matrix_congr hs (Except.ok.inj hτ)
  | kept w hsym hrel =>
    rw [recover_of_not_symmetric σ hsym] at hτ
    exact Variable.outcome_matrix_congr hs (Except.ok.inj hτ)

omit [Scalar.UnitLaws α] in
theorem Made.shape_replacement {r : Row α} (hr : r.Made) : r.replacement.shape = r.declared.shape := by
  cases hr with
  | packed w id fillId hsym hsq => exact Expr.shape_unary _ _
  | relaxed w id rel hsym hrel => exact Expr.shape_var _
  | kept w hsym hrel => exact Expr.shape_var _

end Row

/-! ## The reduced problem -/

section
variable {p : Problem α} {e : Elimination α} {s r : Solution α}

theorem Elimination.Reduces.keepsShape (h : e.Reduces p)
    (hshape : ∀ v ∈ p.leaves, ∀ w ∈ p.leaves, v.id = w.id → v.shape = w.shape) :
    ∀ v ∈ p.leaves, Substitution.KeepsShape e.inverse.replacement? v := by
  intro v hv
  obtain ⟨row, hrow, hid, hfind⟩ := h.exists_row hv
  unfold Substitution.KeepsShape Inverse.replacement?
  rw [Expr.subst_var, hfind]
  show row.replacement.shape = v.shape
  rw [(h.made row hrow).shape_replacement]
  exact hshape _ (h.declared_mem_leaves hrow) v hv hid

theorem Elimination.Reduces.keepsMatrix [Scalar.UnitLaws α] (h : e.Reduces p)
    (hshape : ∀ v ∈ p.leaves, ∀ w ∈ p.leaves, v.id = w.id → v.shape = w.shape)
    (hr : e.inverse.recover s = .ok r) :
    ∀ v ∈ p.leaves, Substitution.KeepsMatrix e.inverse.replacement? s.primal.assignment
      r.primal.assignment v := by
  intro v hv
  obtain ⟨row, hrow, hid, hfind⟩ := h.exists_row hv
  have hrec := Row.recover_of_recoverAll (Inverse.recover_eq_ok hr).1 h.pairwise_rows row hrow
  rw [hid] at hrec
  unfold Substitution.KeepsMatrix Inverse.replacement?
  rw [Expr.subst_var, hfind]
  exact (h.made row hrow).outcome_matrix (hshape _ (h.declared_mem_leaves hrow) v hv hid) hrec

end

/-- **The reduced problem means what the given one means.**  Under a solution of the reduced
problem its objective, and each of its constraints that comes from a given one, has the outcome
that the given one has under the recovered solution. -/
theorem eliminate_same_outcome [Scalar.UnitLaws α] [Spectral α] {p : Problem α}
    {next next' : Ident} {e : Elimination α} {s r : Solution α}
    (hshape : ∀ v ∈ p.leaves, ∀ w ∈ p.leaves, v.id = w.id → v.shape = w.shape)
    (he : p.eliminate next = (.ok e, next')) (hr : e.inverse.recover s = .ok r) :
    outcome (e.problem.objectiveValue s.primal.assignment)
        = outcome (p.objectiveValue r.primal.assignment) ∧
    ∀ (i : Nat) (c : Constraint α), p.constraints[i]? = some c →
      ∃ c', e.problem.constraints[i]? = some c' ∧
        outcome (c'.violation s.primal.assignment) = outcome (c.violation r.primal.assignment) := by
  have hred := Problem.eliminate_reduces he
  have hs := hred.keepsShape hshape
  have hm := hred.keepsMatrix hshape hr
  refine ⟨?_, fun i c hi => ?_⟩
  · unfold Problem.objectiveValue
    rw [hred.objective]
    exact Expr.outcome_value_subst (fun v hv => hs v (List.mem_append_left _ hv))
      (fun v hv => hm v (List.mem_append_left _ hv))
  · obtain ⟨added, _, hcs⟩ := hred.constraints
    refine ⟨c.subst e.inverse.replacement?, ?_,
      Problem.outcome_violation_of_mem hs hm (List.mem_of_getElem? hi)⟩
    have hlt : i < (p.constraints.map (Constraint.subst e.inverse.replacement?)).length := by
      rw [List.length_map]
      exact (List.getElem?_eq_some_iff.mp hi).1
    rw [hcs, List.getElem?_append_left hlt, List.getElem?_map, hi]
    rfl

/-! ## A problem with both kinds of stand-ins -/

/-- A symmetric matrix `X` and a nonnegative number `y`: the sum of `X` is minimised while its trace
is at least `y`. -/
def Problem.traceAbove : Problem ℚ where
  sense := .minimize
  objective := (Expr.var ⟨0, .matrix 2 2, none, { symmetric := true }⟩).sum
  constraints := [⟨2, .compare .nonneg
    ((Expr.var ⟨0, .matrix 2 2, none, { symmetric := true }⟩).trace.sub
      (.var ⟨1, .scalar, none, { nonneg := true }⟩))⟩]

/-- `X = [1, 2; 2, 3]` and `y = 2` in terms of the stand-ins. -/
def Solution.traceAbove : Solution ℚ where
  status := .optimal
  value := some 8
  primal := Table.ofPairs [(3, .ofColumn #[1, 2, 3]), (5, .scalar 2)]
  dual := ∅

theorem eliminate_same_outcome_traceAbove : ∃ e next r,
    Problem.traceAbove.eliminate 3 = (.ok e, next) ∧
    e.inverse.recover Solution.traceAbove = .ok r ∧
    outcome (e.problem.objectiveValue Solution.traceAbove.primal.assignment)
      = outcome (Problem.traceAbove.objectiveValue r.primal.assignment) ∧
    ∀ (i : Nat) (c : Constraint ℚ), Problem.traceAbove.constraints[i]? = some c →
      ∃ c', e.problem.constraints[i]? = some c' ∧
        outcome (c'.violation Solution.traceAbove.primal.assignment)
          = outcome (c.violation r.primal.assignment) :=
  ⟨_, _, _, rfl, rfl, eliminate_same_outcome (p := Problem.traceAbove) (by decide) rfl rfl⟩

end ConvexProgram
