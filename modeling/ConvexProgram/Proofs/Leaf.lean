import ConvexProgram.Matrix.Lemmas
import ConvexProgram.Proofs.Substitution

/-!
# The matrix of a variable

A variable evaluates to the entries of its value, in the sizes of its shape
(`Variable.exists_matrix`).  What an expression evaluates to is read back from its value
(`Expr.matrix_of_value`, `Expr.exists_value`).
-/

namespace ConvexProgram

open Fault

/-- The matrix has the sizes of the shape. -/
structure Matrix.HasShape {α : Type} (s : Shape) (m : Matrix α) : Prop where
  rows : m.rows = s.rows
  cols : m.cols = s.cols

theorem Matrix.HasShape.ext {α : Type} {s : Shape} {m n : Matrix α} (hm : m.HasShape s)
    (hn : n.HasShape s) (h : m.entries = n.entries) : m = n :=
  ext_entries (hm.rows.trans hn.rows.symm) (hm.cols.trans hn.cols.symm) h

theorem Matrix.HasShape.size {α : Type} {s : Shape} {m : Matrix α} (h : m.HasShape s) :
    m.size = s.rows * s.cols := by
  rw [Matrix.size, h.rows, h.cols]

/-! ## Entries under the sizes of a shape -/

section
variable {α : Type}

theorem Matrix.withShape_of_reshape? {s : Shape} {m n : Matrix α}
    (h : m.reshape? s.rows s.cols = some n) : m.withShape s = .ok n := by
  unfold withShape
  rw [h]

/-- Entries that are as many as the sizes ask for take these sizes. -/
theorem Matrix.exists_withShape {s : Shape} {m : Matrix α} (h : m.size = s.rows * s.cols) :
    ∃ n, m.withShape s = .ok n ∧ n.HasShape s ∧ n.entries = m.entries := by
  have hsize : m.entries.size = s.rows * s.cols := m.size_entries.trans h
  have hn : m.reshape? s.rows s.cols = some ⟨s.rows, s.cols, m.entries, hsize⟩ :=
    reshape?_eq_some_iff.mpr ⟨h, rfl, rfl, rfl⟩
  exact ⟨_, withShape_of_reshape? hn, ⟨rfl, rfl⟩, rfl⟩

/-- Other sizes do not change the entries. -/
theorem Matrix.entries_of_withShape {s : Shape} {m n : Matrix α} (h : m.withShape s = .ok n) :
    n.entries = m.entries := by
  unfold withShape at h
  cases hr : m.reshape? s.rows s.cols with
  | none =>
    rw [hr] at h
    cases h
  | some k =>
    rw [hr] at h
    obtain rfl : k = n := Except.ok.inj h
    exact (reshape?_eq_some_iff.mp hr).2.2.2

theorem Matrix.withShape_self {s : Shape} {m : Matrix α} (hr : m.rows = s.rows)
    (hc : m.cols = s.cols) : m.withShape s = .ok m := by
  refine withShape_of_reshape? (reshape?_eq_some_iff.mpr ⟨?_, hr, hc, rfl⟩)
  rw [size, hr, hc]

theorem Matrix.withShape_vector (m : Matrix α) :
    m.withShape (.vector m.size) = .ok (.column m.entries) := by
  refine withShape_of_reshape? (reshape?_eq_some_iff.mpr ⟨?_, m.size_entries, rfl, rfl⟩)
  show m.size = m.size * 1
  rw [Nat.mul_one]

end

variable {α : Type} [Scalar α]

/-! ## The matrix of a leaf -/

/-- The outcome of a variable depends on its shape and its value, and not on its name. -/
theorem Variable.outcome_matrix_congr {v w : Variable} {σ τ : Assignment α}
    (hs : v.shape = w.shape) (hσ : σ v.id = τ w.id) :
    outcome (v.matrix σ) = outcome (w.matrix τ) := by
  unfold matrix
  rw [hs, hσ]
  cases τ w.id with
  | none => rfl
  | some c => rfl

theorem Variable.outcome_matrix_of_toMatrix_eq {v : Variable} {σ τ : Assignment α} {c d : Value α}
    (hσ : σ v.id = some c) (hτ : τ v.id = some d) (h : c.toMatrix = d.toMatrix) :
    outcome (v.matrix σ) = outcome (v.matrix τ) := by
  unfold matrix
  rw [hσ, hτ]
  show outcome (if c.toMatrix.size = _ then _ else _) = outcome (if d.toMatrix.size = _ then _ else _)
  rw [h]
  split
  · rfl
  · rfl

theorem Variable.matrix_of_value {v : Variable} {σ : Assignment α} {c : Value α}
    (h : σ v.id = some c) (hc : c.toMatrix.size = v.shape.size) :
    v.matrix σ = c.toMatrix.withShape v.shape := by
  unfold matrix
  rw [h]
  exact if_pos hc

/-- A variable evaluates if its value has as many entries as its shape and its sizes ask for. -/
theorem Variable.exists_matrix {v : Variable} {σ : Assignment α} {c : Value α}
    (h : σ v.id = some c) (hc : c.toMatrix.size = v.shape.size)
    (hs : v.shape.size = v.shape.rows * v.shape.cols) :
    ∃ m, v.matrix σ = .ok m ∧ m.HasShape v.shape ∧ m.entries = c.toMatrix.entries := by
  obtain ⟨m, hm, hshape, hentries⟩ := Matrix.exists_withShape (hc.trans hs)
  exact ⟨m, (matrix_of_value h hc).trans hm, hshape, hentries⟩

/-- A variable that evaluates has a value with as many entries as its shape, and no others. -/
theorem Variable.exists_of_matrix_eq_ok {v : Variable} {σ : Assignment α} {m : Matrix α}
    (h : v.matrix σ = .ok m) :
    ∃ c, σ v.id = some c ∧ c.toMatrix.size = v.shape.size ∧ c.toMatrix.entries = m.entries := by
  unfold matrix at h
  cases hc : σ v.id with
  | none =>
    rw [hc] at h
    cases h
  | some c =>
    rw [hc] at h
    have h : (if c.toMatrix.size = v.shape.size then c.toMatrix.withShape v.shape
      else .error (.valueSize v.shape c.shape)) = .ok m := h
    by_cases hsize : c.toMatrix.size = v.shape.size
    · rw [if_pos hsize] at h
      exact ⟨c, rfl, hsize, (Matrix.entries_of_withShape h).symm⟩
    · rw [if_neg hsize] at h
      cases h

theorem Variable.outcome_matrix_of_size_ne {v : Variable} {σ : Assignment α} {c : Value α}
    (h : σ v.id = some c) (hc : c.toMatrix.size ≠ v.shape.size) :
    outcome (v.matrix σ) = .error .shapeMismatch := by
  unfold matrix
  rw [h]
  show outcome (if _ then _ else _) = _
  rw [if_neg hc]
  rfl

theorem Variable.outcome_matrix_of_none {v : Variable} {σ : Assignment α} (h : σ v.id = none) :
    outcome (v.matrix σ) = .error .invalidProblem := by
  unfold matrix
  rw [h]
  rfl

/-! ## The matrix of a value -/

/-- The value of an expression is its matrix, also where it is given as a number. -/
theorem Expr.matrix_of_value {e : Expr α} {σ : Assignment α} {c : Value α}
    (h : e.value σ = .ok c) : e.matrix σ = .ok c.toMatrix := by
  obtain ⟨m, hm, h⟩ := bind_eq_ok_iff.mp h
  have hc : (if e.shape.isScalar ∧ m.size = 1 then .scalar (m.entry 0 0) else .dense m) = c :=
    Except.ok.inj h
  rw [hm]
  by_cases hs : e.shape.isScalar ∧ m.size = 1
  · rw [if_pos hs] at hc
    have hrows : m.rows = 1 := Nat.eq_one_of_mul_eq_one_right hs.2
    have hcols : m.cols = 1 := Nat.eq_one_of_mul_eq_one_left hs.2
    rw [← hc]
    exact congrArg Except.ok (Matrix.single_entry hrows hcols).symm
  · rw [if_neg hs] at hc
    rw [← hc]
    rfl

namespace Expr

variable {σ : Assignment α}

/-- An expression with a matrix has a value, and its matrix is that one. -/
theorem exists_value {e : Expr α} {m : Matrix α} (h : e.matrix σ = .ok m) :
    ∃ c, e.value σ = .ok c ∧ c.toMatrix = m := by
  have hc : e.value σ =
      .ok (if e.shape.isScalar ∧ m.size = 1 then .scalar (m.entry 0 0) else .dense m) := by
    unfold value
    rw [h]
    rfl
  have hm := matrix_of_value hc
  rw [h] at hm
  exact ⟨_, hc, (Except.ok.inj hm).symm⟩

theorem exists_value_iff {e : Expr α} :
    (∃ c, e.value σ = .ok c) ↔ ∃ m, e.matrix σ = .ok m := by
  constructor
  · rintro ⟨c, hc⟩
    exact ⟨c.toMatrix, matrix_of_value hc⟩
  · rintro ⟨m, hm⟩
    obtain ⟨c, hc, _⟩ := exists_value hm
    exact ⟨c, hc⟩

/-- The expression evaluates, in the sizes that it declares. -/
def InShape (σ : Assignment α) (e : Expr α) : Prop :=
  ∃ z, e.value σ = .ok z ∧ z.toMatrix.HasShape e.shape

theorem InShape.exists_matrix {e : Expr α} (h : e.InShape σ) :
    ∃ m, e.matrix σ = .ok m ∧ m.HasShape e.shape := by
  obtain ⟨z, hz, hshape⟩ := h
  exact ⟨z.toMatrix, matrix_of_value hz, hshape⟩

theorem value_of_single {e : Expr α} {x : α} (hs : e.shape = .scalar)
    (h : e.matrix σ = .ok (.single x)) : e.value σ = .ok (.scalar x) := by
  unfold value
  rw [h, hs]
  exact congrArg (fun y => Except.ok (Value.scalar y)) (Matrix.entry_single x)

/-- One entry of an expression that is declared a scalar is given as a number. -/
theorem exists_scalar_of_value {e : Expr α} {c : Value α} (hs : e.shape = .scalar)
    (hc : e.value σ = .ok c) (hr : c.toMatrix.rows = 1) (hcols : c.toMatrix.cols = 1) :
    ∃ x, c = .scalar x := by
  have hm : e.matrix σ = .ok (.single (c.toMatrix.entry 0 0)) :=
    (matrix_of_value hc).trans (congrArg Except.ok (Matrix.single_entry hr hcols).symm)
  exact ⟨_, Except.ok.inj (hc.symm.trans (value_of_single hs hm))⟩

theorem value_of_isScalar_eq_false {e : Expr α} {m : Matrix α} (hs : e.shape.isScalar = false)
    (h : e.matrix σ = .ok m) : e.value σ = .ok (.dense m) := by
  unfold value
  rw [h, hs]
  rfl

theorem outcome_value_congr {e e' : Expr α} (hs : e.shape.isScalar = e'.shape.isScalar)
    (hm : outcome (e.matrix σ) = outcome (e'.matrix σ)) :
    outcome (e.value σ) = outcome (e'.value σ) := by
  unfold value
  rw [hs]
  exact outcome_bind hm fun _ => rfl

end Expr

end ConvexProgram
