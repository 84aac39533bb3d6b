import Mathlib.Algebra.BigOperators.Group.Finset.Sigma
import Mathlib.Algebra.BigOperators.Ring.Finset
import ConvexProgram.Matrix.Lemmas
import ConvexProgram.Proofs.Arithmetic

/-!
# Matrices over exact scalars

In exact arithmetic the order of a sum does not matter (`Scalar.sumTo_eq_sum`), so the sums of a
matrix may be taken by columns or by rows, and products may be regrouped:

* `Matrix.sum_eq`                          all entries, by columns;
* `Matrix.sum_colSums`, `Matrix.sum_rowSums`, `Matrix.sum_diagonal`   sums of sums;
* `Matrix.mul_assoc`, `Matrix.transpose_mul`, `Matrix.mul_identity`   the laws of products.
-/

namespace ConvexProgram

open Finset

theorem Scalar.sumTo_eq_sum {α : Type} [ExactScalar α] (n : Nat) (f : Nat → α) :
    sumTo n f = ∑ k ∈ range n, f k := by
  induction n with
  | zero => rfl
  | succ n ih => rw [sumTo_succ, sum_range_succ, ih]

/-- Places in a stored list are counted column by column. -/
theorem sum_range_mul {M : Type} [AddCommMonoid M] (r c : Nat) (f : Nat → Nat → M) :
    ∑ k ∈ range (r * c), f (k % r) (k / r) = ∑ j ∈ range c, ∑ i ∈ range r, f i j := by
  induction c with
  | zero => rfl
  | succ c ih =>
    rw [Nat.mul_succ, sum_range_add, ih, sum_range_succ]
    refine congrArg _ (sum_congr rfl fun i hi => ?_)
    have hi : i < r := mem_range.mp hi
    rw [Nat.add_comm, Nat.mul_comm, Matrix.place_mod c hi, Matrix.place_div c hi]

namespace Matrix

variable {α : Type} [ExactScalar α]

/-! ## Sums -/

theorem sum_eq (m : Matrix α) :
    m.sum = ∑ j ∈ range m.cols, ∑ i ∈ range m.rows, m.entry i j := by
  rw [sum, Scalar.sumTo_eq_sum, size, ← sum_range_mul]
  exact sum_congr rfl fun k _ => m.getD_entries k

theorem sum_of_cols_one {m : Matrix α} (h : m.cols = 1) :
    m.sum = ∑ i ∈ range m.rows, m.entry i 0 := by
  rw [sum_eq, h, sum_range_one]

theorem sum_colSums (m : Matrix α) : m.colSums.sum = m.sum := by
  rw [sum_of_cols_one rfl, sum_eq]
  refine sum_congr rfl fun j hj => ?_
  rw [colSums, entry_ofFn _ (mem_range.mp hj) Nat.one_pos, Scalar.sumTo_eq_sum]

theorem sum_rowSums (m : Matrix α) : m.rowSums.sum = m.sum := by
  rw [sum_of_cols_one rfl, sum_eq, sum_comm]
  refine sum_congr rfl fun i hi => ?_
  rw [rowSums, entry_ofFn _ (mem_range.mp hi) Nat.one_pos, Scalar.sumTo_eq_sum]

theorem sum_diagonal {m : Matrix α} (h : m.rows = m.cols) : m.diagonal.sum = m.trace := by
  have hmin : min m.rows m.cols = m.rows := by omega
  rw [sum_of_cols_one rfl, trace, Scalar.sumTo_eq_sum]
  show ∑ i ∈ range (min m.rows m.cols), _ = _
  rw [hmin]
  refine sum_congr rfl fun i hi => ?_
  rw [entry_diagonal (hmin.symm ▸ mem_range.mp hi)]

/-! ## Products -/

theorem entry_mul_eq_sum {a b : Matrix α} {i j : Nat} (hi : i < a.rows) (hj : j < b.cols) :
    (a.mul b).entry i j = ∑ k ∈ range a.cols, a.entry i k * b.entry k j := by
  rw [entry_mul hi hj, Scalar.sumTo_eq_sum]

protected theorem mul_assoc {a b c : Matrix α} (h : a.cols = b.rows) :
    (a.mul b).mul c = a.mul (b.mul c) := by
  refine ext_entry rfl rfl fun i j (hi : i < a.rows) (hj : j < c.cols) => ?_
  have hleft : ((a.mul b).mul c).entry i j =
      ∑ k ∈ range b.cols, ∑ l ∈ range a.cols, a.entry i l * b.entry l k * c.entry k j := by
    rw [entry_mul_eq_sum (a := a.mul b) hi hj]
    refine sum_congr rfl fun k hk => ?_
    rw [entry_mul_eq_sum hi (mem_range.mp hk), sum_mul]
  have hright : (a.mul (b.mul c)).entry i j =
      ∑ l ∈ range a.cols, ∑ k ∈ range b.cols, a.entry i l * b.entry l k * c.entry k j := by
    rw [entry_mul_eq_sum (b := b.mul c) hi hj]
    refine sum_congr rfl fun l hl => ?_
    rw [entry_mul_eq_sum (h ▸ mem_range.mp hl) hj, mul_sum]
    exact sum_congr rfl fun k _ => (mul_assoc _ _ _).symm
  rw [hleft, hright, sum_comm]

theorem transpose_mul {a b : Matrix α} (h : a.cols = b.rows) :
    (a.mul b).transpose = b.transpose.mul a.transpose := by
  refine ext_entry rfl rfl fun i j (hi : i < b.cols) (hj : j < a.rows) => ?_
  rw [entry_transpose (m := a.mul b) hi hj, entry_mul_eq_sum hj hi,
    entry_mul_eq_sum (a := b.transpose) (b := a.transpose) hi hj, cols_transpose, h]
  refine sum_congr rfl fun k hk => ?_
  have hk : k < b.rows := mem_range.mp hk
  rw [entry_transpose hi hk, entry_transpose (h ▸ hk) hj, mul_comm]

theorem mul_identity {a : Matrix α} {n : Nat} (h : a.cols = n) : a.mul (identity n) = a := by
  refine ext_entry rfl h.symm fun i j (hi : i < a.rows) (hj : j < n) => ?_
  rw [entry_mul_eq_sum hi hj, h, sum_eq_single j]
  · rw [identity, entry_ofFn _ hj hj, if_pos rfl, mul_one]
  · intro k hk hne
    rw [identity, entry_ofFn _ (mem_range.mp hk) hj, if_neg hne, mul_zero]
  · intro hnot
    exact absurd (mem_range.mpr hj) hnot

end Matrix
end ConvexProgram
