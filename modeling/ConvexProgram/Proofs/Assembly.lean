import ConvexProgram.Matrix.Lemmas
import ConvexProgram.Value

/-!
# Assembly of sparse matrices

A list of triplets at distinct places of a matrix is stored as it is, whatever its order
(`Sparse.perm_stored_ofTriplets`), and the dense matrix has the value of a stored triplet at its
place, added to zero, and zero at every other place (`Sparse.entry_toMatrix_of_mem`,
`Sparse.entry_toMatrix_of_forall_ne`).
-/

namespace ConvexProgram

/-! ## Places -/

namespace Triplet

variable {α : Type}

/-- The triplet stands in row `i` and column `j`. -/
def At (t : Triplet α) (i j : Nat) : Prop := t.row = i ∧ t.col = j

/-- The two triplets stand at different places. -/
def Apart (s t : Triplet α) : Prop := ¬s.At t.row t.col

theorem Apart.symm {s t : Triplet α} (h : s.Apart t) : t.Apart s :=
  fun ⟨hr, hc⟩ => h ⟨hr.symm, hc.symm⟩

theorem Before.apart {s t : Triplet α} (h : s.Before t) : s.Apart t := by
  rintro ⟨hr, hc⟩
  rcases h with h | ⟨_, h⟩ <;> omega

/-- At a place that is still free a triplet goes into the list and changes nothing there. -/
theorem perm_insertSorted [Add α] {t : Triplet α} {ss : List (Triplet α)}
    (h : ∀ s ∈ ss, s.Apart t) : (insertSorted t ss).Perm (t :: ss) := by
  induction ss with
  | nil => exact .refl _
  | cons s ss ih =>
    rw [List.forall_mem_cons] at h
    rw [insertSorted]
    split
    · exact .refl _
    · next hts =>
      split
      · exact ((ih h.2).cons s).trans (.swap t s ss)
      · next hst => exact absurd (eq_pos_of_not_before hst hts) h.1

end Triplet

open Triplet

/-! ## Assembly -/

namespace Sparse

variable {α : Type} [Add α]

@[simp] theorem rows_insert (s : Sparse α) (t : Triplet α) : (s.insert t).rows = s.rows := by
  unfold insert
  split <;> rfl

@[simp] theorem cols_insert (s : Sparse α) (t : Triplet α) : (s.insert t).cols = s.cols := by
  unfold insert
  split <;> rfl

theorem rows_foldl_insert (s : Sparse α) (ts : List (Triplet α)) :
    (ts.foldl insert s).rows = s.rows := by
  induction ts generalizing s with
  | nil => rfl
  | cons t ts ih => rw [List.foldl_cons, ih, rows_insert]

theorem cols_foldl_insert (s : Sparse α) (ts : List (Triplet α)) :
    (ts.foldl insert s).cols = s.cols := by
  induction ts generalizing s with
  | nil => rfl
  | cons t ts ih => rw [List.foldl_cons, ih, cols_insert]

@[simp] theorem rows_ofTriplets (r c : Nat) (ts : List (Triplet α)) :
    (ofTriplets r c ts).rows = r := rows_foldl_insert _ ts

@[simp] theorem cols_ofTriplets (r c : Nat) (ts : List (Triplet α)) :
    (ofTriplets r c ts).cols = c := cols_foldl_insert _ ts

theorem perm_stored_insert {s : Sparse α} {t : Triplet α} (hr : t.row < s.rows)
    (hc : t.col < s.cols) (h : ∀ v ∈ s.stored, v.Apart t) :
    (s.insert t).stored.Perm (t :: s.stored) := by
  unfold insert
  rw [dif_pos ⟨hr, hc⟩]
  exact perm_insertSorted h

/-- Triplets at places of their own are all stored, with those that were there. -/
theorem perm_stored_foldl_insert {s : Sparse α} {ts : List (Triplet α)}
    (hin : ∀ t ∈ ts, t.row < s.rows ∧ t.col < s.cols) (hts : (s.stored ++ ts).Pairwise Apart) :
    (ts.foldl insert s).stored.Perm (s.stored ++ ts) := by
  induction ts generalizing s with
  | nil => rw [List.append_nil, List.foldl_nil]
  | cons t ts ih =>
    rw [List.forall_mem_cons] at hin
    have hfree : ∀ v ∈ s.stored, v.Apart t := fun v hv =>
      (List.pairwise_append.mp hts).2.2 v hv t List.mem_cons_self
    have hstep : ((s.insert t).stored ++ ts).Perm (s.stored ++ t :: ts) :=
      ((perm_stored_insert hin.1.1 hin.1.2 hfree).append_right ts).trans List.perm_middle.symm
    rw [List.foldl_cons]
    refine (ih (fun u hu => ?_) ?_).trans hstep
    · rw [rows_insert, cols_insert]
      exact hin.2 u hu
    · exact (hstep.pairwise_iff Apart.symm).mpr hts

/-- Assembly drops and merges no triplet of a list that stays inside and writes no place twice. -/
theorem perm_stored_ofTriplets {r c : Nat} {ts : List (Triplet α)}
    (hin : ∀ t ∈ ts, t.row < r ∧ t.col < c) (hts : ts.Pairwise Apart) :
    (ofTriplets r c ts).stored.Perm ts := perm_stored_foldl_insert (s := empty r c) hin hts

end Sparse

/-! ## The dense matrix -/

namespace Matrix

variable {α : Type} [Scalar α]

/-- The matrix with the triplets added at their places. -/
def addAll (m : Matrix α) (ts : List (Triplet α)) : Matrix α :=
  ts.foldl (fun m t => m.addAt t.row t.col t.value) m

@[simp] theorem rows_addAll (m : Matrix α) (ts : List (Triplet α)) :
    (m.addAll ts).rows = m.rows := by
  induction ts generalizing m with
  | nil => rfl
  | cons t ts ih => exact ih (m.addAt t.row t.col t.value)

@[simp] theorem cols_addAll (m : Matrix α) (ts : List (Triplet α)) :
    (m.addAll ts).cols = m.cols := by
  induction ts generalizing m with
  | nil => rfl
  | cons t ts ih => exact ih (m.addAt t.row t.col t.value)

theorem addAll_cons (m : Matrix α) (t : Triplet α) (ts : List (Triplet α)) :
    m.addAll (t :: ts) = (m.addAt t.row t.col t.value).addAll ts := rfl

theorem entry_addAll_of_forall_ne {m : Matrix α} {ts : List (Triplet α)} {i j : Nat}
    (hin : ∀ t ∈ ts, t.row < m.rows) (hi : i < m.rows) (hj : j < m.cols)
    (h : ∀ t ∈ ts, ¬t.At i j) : (m.addAll ts).entry i j = m.entry i j := by
  induction ts generalizing m with
  | nil => rfl
  | cons t ts ih =>
    rw [List.forall_mem_cons] at hin h
    have ht : ¬(i = t.row ∧ j = t.col) := fun ⟨hr, hc⟩ => h.1 ⟨hr.symm, hc.symm⟩
    have hrest := ih (m := m.addAt t.row t.col t.value) hin.2 hi hj h.2
    rw [addAll_cons, hrest, entry_addAt _ hin.1 hi hj, if_neg ht]

theorem entry_addAll_of_mem {m : Matrix α} {ts : List (Triplet α)} {t : Triplet α}
    (hin : ∀ t ∈ ts, t.row < m.rows ∧ t.col < m.cols) (hts : ts.Pairwise Apart) (ht : t ∈ ts) :
    (m.addAll ts).entry t.row t.col = m.entry t.row t.col + t.value := by
  induction ts generalizing m with
  | nil => exact absurd ht List.not_mem_nil
  | cons s ts ih =>
    have hrc := hin t ht
    rw [List.forall_mem_cons] at hin
    rw [List.pairwise_cons] at hts
    rw [addAll_cons]
    rcases List.mem_cons.mp ht with rfl | ht
    · have hrest := entry_addAll_of_forall_ne (m := m.addAt t.row t.col t.value)
        (fun u hu => (hin.2 u hu).1) hrc.1 hrc.2 fun u hu => (hts.1 u hu).symm
      rw [hrest, entry_addAt _ hrc.1 hrc.1 hrc.2, if_pos ⟨rfl, rfl⟩]
    · have hne : ¬(t.row = s.row ∧ t.col = s.col) := fun ⟨hr, hc⟩ =>
        hts.1 t ht ⟨hr.symm, hc.symm⟩
      have hrest := ih (m := m.addAt s.row s.col s.value) hin.2 hts.2 ht
      rw [hrest, entry_addAt _ hin.1.1 hrc.1 hrc.2, if_neg hne]

end Matrix

namespace Sparse

variable {α : Type} [Scalar α]

theorem toMatrix_eq_addAll (s : Sparse α) :
    s.toMatrix = (Matrix.filled s.rows s.cols 0).addAll s.stored := rfl

@[simp] theorem rows_toMatrix (s : Sparse α) : s.toMatrix.rows = s.rows := by
  rw [toMatrix_eq_addAll, Matrix.rows_addAll, Matrix.rows_filled]

@[simp] theorem cols_toMatrix (s : Sparse α) : s.toMatrix.cols = s.cols := by
  rw [toMatrix_eq_addAll, Matrix.cols_addAll, Matrix.cols_filled]

omit [Scalar α] in
theorem apart_stored (s : Sparse α) : s.stored.Pairwise Apart := s.sorted.imp Before.apart

theorem entry_toMatrix_of_mem {s : Sparse α} {t : Triplet α} (ht : t ∈ s.stored) :
    s.toMatrix.entry t.row t.col = 0 + t.value := by
  have hrc := s.inRange t ht
  rw [toMatrix_eq_addAll, Matrix.entry_addAll_of_mem s.inRange s.apart_stored ht,
    Matrix.entry_filled 0 hrc.1 hrc.2]

theorem entry_toMatrix_of_forall_ne {s : Sparse α} {i j : Nat} (hi : i < s.rows) (hj : j < s.cols)
    (h : ∀ t ∈ s.stored, ¬t.At i j) : s.toMatrix.entry i j = 0 := by
  rw [toMatrix_eq_addAll, Matrix.entry_addAll_of_forall_ne (fun t ht => (s.inRange t ht).1) hi hj h,
    Matrix.entry_filled 0 hi hj]

end Sparse

/-- Reading a value as a matrix keeps the number of its entries, whatever its form. -/
theorem Value.size_toMatrix {α : Type} [Scalar α] (c : Value α) : c.toMatrix.size = c.size := by
  cases c with
  | scalar x => rfl
  | dense m => rfl
  | sparse s =>
    show s.toMatrix.rows * s.toMatrix.cols = s.rows * s.cols
    rw [s.rows_toMatrix, s.cols_toMatrix]

end ConvexProgram
