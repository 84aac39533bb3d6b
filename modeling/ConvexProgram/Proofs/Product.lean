import ConvexProgram.Proofs.Elementwise
import ConvexProgram.Proofs.Indexing

/-!
# Products and their declared shapes

Whether two operands have a product is decided twice: `Shape.matmul` looks at the declared dims,
and evaluation turns a vector on the left into a row and compares the sizes of the matrices.  Both
compare the dim that the left operand contracts (`Shape.inner`) with the rows of the right one.  The
declared dims have to be those of vectors or matrices (`Shape.isSome_matmul_iff`), while a number is
evaluated as a matrix of one row and one column (`Matrix.exists_product_iff`).

* `Matrix.contraction`       an entry of a product as a sum over the contracted index;
* `Matrix.entry_product`     the entries of a product that has a declared shape;
* `matmul_evaluates_iff`     when a product of expressions evaluates, and to what.
-/

namespace ConvexProgram

open Fault

/-! ## Declared dims -/

namespace Shape

/-- The dim that a product contracts of its left operand, where a vector is a row. -/
def inner (s : Shape) : Nat := if s.isVector then s.rows else s.cols

theorem matmul_scalar (s : Shape) : s.matmul scalar = none := by
  cases h : s.matmul scalar with
  | none => rfl
  | some u =>
    obtain ⟨_, _, _, _, ht, _⟩ | ⟨_, _, _, ht, _⟩ | ⟨_, _, _, ht, _⟩ | ⟨_, _, ht, _⟩ :=
      matmul_cases h
    · cases ht
    · cases ht
    · cases ht
    · cases ht

/-- A product has a shape if neither operand is a scalar and the contracted dims agree. -/
theorem isSome_matmul_iff {s t : Shape} (hs : s.Proper) (ht : t.Proper) :
    (s.matmul t).isSome ↔ (s ≠ scalar ∧ t ≠ scalar) ∧ s.inner = t.rows := by
  have hite : ∀ {k n : Nat} {u : Shape}, (if k = n then some u else none).isSome ↔ k = n := by
    intro k n u
    rw [Option.isSome_ite]
  obtain rfl | ⟨k, _, rfl⟩ | ⟨m, k, _, _, rfl⟩ := hs.cases
  · exact iff_of_false nofun fun h => h.1.1 rfl
  · obtain rfl | ⟨n, _, rfl⟩ | ⟨n, l, _, _, rfl⟩ := ht.cases
    · rw [matmul_scalar]
      exact iff_of_false nofun fun h => h.1.2 rfl
    · exact hite.trans (and_iff_right ⟨nofun, nofun⟩).symm
    · exact hite.trans (and_iff_right ⟨nofun, nofun⟩).symm
  · obtain rfl | ⟨n, _, rfl⟩ | ⟨n, l, _, _, rfl⟩ := ht.cases
    · rw [matmul_scalar]
      exact iff_of_false nofun fun h => h.1.2 rfl
    · exact hite.trans (and_iff_right ⟨nofun, nofun⟩).symm
    · exact hite.trans (and_iff_right ⟨nofun, nofun⟩).symm

end Shape

variable {α : Type} [Scalar α]

/-! ## Products of matrices -/

namespace Matrix

/-- The entry of a product in row `i` and column `j`, as a sum over the contracted index.  A vector
on the left is a row, and its product with a matrix is listed as a column. -/
def contraction (s t : Shape) (a b : Matrix α) (i j : Nat) : α :=
  Scalar.sumTo b.rows fun k =>
    (if s.isVector then a.entry k 0 else a.entry i k) *
      b.entry k (if s.isVector && t.isMatrix then i else j)

/-- A matrix on the left is multiplied as it is. -/
theorem product_matrix (m n : Nat) (t : Shape) (a b : Matrix α) :
    product (.matrix m n) t a b =
      if a.cols = b.rows then .ok (a.mul b) else .error (.contraction b.rows a.extent t) := rfl

/-- A vector on the left is a row, and its product with a matrix is a column. -/
theorem product_vector (n : Nat) (t : Shape) (a b : Matrix α) :
    product (.vector n) t a b =
      if a.rows = b.rows then
        .ok (if t.isMatrix then (a.transpose.mul b).transpose else a.transpose.mul b)
      else .error (.contraction b.rows a.transpose.extent t) := rfl

/-- Evaluation compares the sizes of the matrices, so a number is multiplied as well. -/
theorem exists_product_iff {s t : Shape} {a b : Matrix α} (ha : a.HasShape s) (hb : b.HasShape t) :
    (∃ m, product s t a b = .ok m) ↔ s.inner = t.rows := by
  have hleft : (if s.isVector then a.transpose else a).cols = s.inner := by
    rw [Shape.inner, ← ha.rows, ← ha.cols]
    split
    · rfl
    · rfl
  show (∃ m, (if _ = b.rows then _ else _) = _) ↔ _
  rw [hleft, hb.rows]
  split
  · next h => exact iff_of_true ⟨_, rfl⟩ h
  · next h => exact iff_of_false nofun h

theorem entry_product_matrix {m n : Nat} {t : Shape} {a b z : Matrix α} (h : a.cols = b.rows)
    (hz : product (.matrix m n) t a b = .ok z) {i j : Nat} (hi : i < a.rows) (hj : j < b.cols) :
    z.entry i j = contraction (.matrix m n) t a b i j := by
  obtain rfl : a.mul b = z := Except.ok.inj ((if_pos h).symm.trans hz)
  rw [entry_mul hi hj, h]
  rfl

/-- A column, turned into a row, is multiplied with each column. -/
theorem entry_transpose_mul {a b : Matrix α} (hrow : 0 < a.cols) (h : a.rows = b.rows) {j : Nat}
    (hj : j < b.cols) :
    (a.transpose.mul b).entry 0 j = Scalar.sumTo b.rows fun k => a.entry k 0 * b.entry k j := by
  rw [entry_mul (a := a.transpose) hrow hj, cols_transpose, h]
  exact Scalar.sumTo_congr fun k hk => congrArg (· * _) (entry_transpose hrow (h.symm ▸ hk))

/-- Each entry of a product with a declared shape is the sum over the contracted index. -/
theorem entry_product {s t u : Shape} {a b m : Matrix α} (h : s.matmul t = some u)
    (ha : a.HasShape s) (hb : b.HasShape t) (hm : product s t a b = .ok m) {i j : Nat}
    (hi : i < u.rows) (hj : j < u.cols) : m.entry i j = contraction s t a b i j := by
  obtain ⟨r, k, c, rfl, rfl, rfl⟩ | ⟨r, k, rfl, rfl, rfl⟩ | ⟨k, c, rfl, rfl, rfl⟩ |
    ⟨k, rfl, rfl, rfl⟩ := Shape.matmul_cases h
  · have hk : a.cols = b.rows := ha.cols.trans hb.rows.symm
    exact entry_product_matrix hk hm (ha.rows.symm ▸ hi) (hb.cols.symm ▸ hj)
  · have hk : a.cols = b.rows := ha.cols.trans hb.rows.symm
    exact entry_product_matrix hk hm (ha.rows.symm ▸ hi) (hb.cols.symm ▸ hj)
  · -- the row times the matrix is a row, and its entry in column `i` is asked for
    have hk : a.rows = b.rows := ha.rows.trans hb.rows.symm
    have hrow : 0 < a.cols := ha.cols.symm ▸ Nat.one_pos
    have hi' : i < b.cols := hb.cols.symm ▸ hi
    obtain rfl : (a.transpose.mul b).transpose = m := Except.ok.inj ((if_pos hk).symm.trans hm)
    obtain rfl : j = 0 := Nat.lt_one_iff.mp hj
    exact (entry_transpose (m := a.transpose.mul b) hi' hrow).trans (entry_transpose_mul hrow hk hi')
  · have hk : a.rows = b.rows := ha.rows.trans hb.rows.symm
    have hrow : 0 < a.cols := ha.cols.symm ▸ Nat.one_pos
    obtain rfl : a.transpose.mul b = m := Except.ok.inj ((if_pos hk).symm.trans hm)
    obtain rfl : i = 0 := Nat.lt_one_iff.mp hi
    exact entry_transpose_mul hrow hk (hb.cols.symm ▸ hj)

end Matrix

/-! ## Products of expressions -/

def Expr.grid : Expr ℚ := .const 1 (.dense ⟨2, 3, #[2, 4, 6, 3, 5, 7], rfl⟩)

def Expr.seven : Expr ℚ := .const 2 (.scalar 7)

def Expr.row : Expr ℚ := .const 3 (.dense ⟨1, 2, #[3, 4], rfl⟩)

theorem Expr.matrix_matmul {σ : Assignment α} {a b : Expr α} {x y : Value α}
    (hx : a.value σ = .ok x) (hy : b.value σ = .ok y) :
    (a.matmul b).matrix σ = Matrix.product a.shape b.shape x.toMatrix y.toMatrix := by
  rw [matmul, matrix_binary, matrix_of_value hx, matrix_of_value hy]
  rfl

/-- **When a product evaluates.**  Operands of proper shapes that evaluate to matrices of these have
a product if their shapes have one, and also if one of them is a number and the contracted dims
agree.  If the shapes have a product, the result has its sizes, and each entry is the sum over the
contracted index. -/
theorem matmul_evaluates_iff {α : Type} [Scalar α] {σ : Assignment α} {a b : Expr α}
    {x y : Value α} (ha : a.shape.Proper) (hb : b.shape.Proper) (hx : a.value σ = .ok x)
    (hy : b.value σ = .ok y) (hxs : x.toMatrix.HasShape a.shape)
    (hys : y.toMatrix.HasShape b.shape) :
    ((∃ z, (a.matmul b).value σ = .ok z) ↔
      (a.shape.matmul b.shape).isSome ∨
        (a.shape = .scalar ∨ b.shape = .scalar) ∧ a.shape.inner = b.shape.rows) ∧
    ∀ u, a.shape.matmul b.shape = some u →
      ∃ z, (a.matmul b).value σ = .ok z ∧ z.toMatrix.HasShape u ∧
        ∀ i j, i < u.rows → j < u.cols →
          z.toMatrix.entry i j =
            Matrix.contraction a.shape b.shape x.toMatrix y.toMatrix i j := by
  have hmatrix := Expr.matrix_matmul hx hy
  refine ⟨?_, fun u hu => ?_⟩
  · have hvalue : (∃ z, (a.matmul b).value σ = .ok z) ↔ a.shape.inner = b.shape.rows := by
      rw [Expr.exists_value_iff, hmatrix]
      exact Matrix.exists_product_iff hxs hys
    rw [hvalue, Shape.isSome_matmul_iff ha hb, ← or_and_right, ← not_or]
    exact (and_iff_right (em' _)).symm
  · obtain ⟨m, hm, hshape⟩ := Matrix.product_ok hu hxs hys
    obtain ⟨z, hz, rfl⟩ := Expr.exists_value (hmatrix.trans hm)
    exact ⟨z, hz, hshape, fun i j hi hj => Matrix.entry_product hu hxs hys hm hi hj⟩

/-- A vector on the left of two rows of three entries. -/
theorem matmul_evaluates_iff_pair :
    Expr.pair.shape.Proper ∧ Expr.grid.shape.Proper ∧
    Expr.pair.shape.matmul Expr.grid.shape = some (.vector 3) ∧
    ∃ z, (Expr.pair.matmul Expr.grid).value .pair = .ok z ∧ z.toMatrix.HasShape (.vector 3) ∧
      z.toMatrix.entry 2 0 = 19 := by
  have hpair : Expr.pair.shape.Proper := by decide
  have hgrid : Expr.grid.shape.Proper := by decide
  have hx : Expr.pair.value .pair = .ok _ := rfl
  have hy : Expr.grid.value .pair = .ok _ := rfl
  obtain ⟨z, hz, hshape, hentry⟩ :=
    (matmul_evaluates_iff hpair hgrid hx hy ⟨rfl, rfl⟩ ⟨rfl, rfl⟩).2 (.vector 3) rfl
  refine ⟨hpair, hgrid, rfl, z, hz, hshape, (hentry 2 0 (by decide) (by decide)).trans ?_⟩
  decide +kernel

/-- Shapes of which one is a scalar have no product.  A number and a row evaluate to a row, which is
declared a number, and two numbers to a number. -/
theorem matmul_accepts_number :
    Expr.seven.shape.Proper ∧ Expr.row.shape.Proper ∧
    (∃ x, Expr.seven.value .pair = .ok x ∧ x.toMatrix.HasShape Expr.seven.shape) ∧
    (∃ y, Expr.row.value .pair = .ok y ∧ y.toMatrix.HasShape Expr.row.shape) ∧
    (Expr.seven.matmul Expr.row).MissesShape .pair ∧
    ¬((∃ z, (Expr.seven.matmul Expr.row).value .pair = .ok z) ↔
      (Expr.seven.shape.matmul Expr.row.shape).isSome) ∧
    ¬((∃ z, (Expr.seven.matmul Expr.seven).value .pair = .ok z) ↔
      (Expr.seven.shape.matmul Expr.seven.shape).isSome) := by
  have hrow : (Expr.seven.matmul Expr.row).value .pair = .ok _ := rfl
  have hnumber : (Expr.seven.matmul Expr.seven).value .pair = .ok _ := rfl
  refine ⟨by decide, by decide, ⟨_, rfl, rfl, rfl⟩, ⟨_, rfl, rfl, rfl⟩, ⟨_, hrow, fun h => ?_⟩,
    fun h => ?_, fun h => ?_⟩
  · have hcols : 2 = 1 := h.cols
    cases hcols
  · have hsome := h.mp ⟨_, hrow⟩
    cases hsome
  · have hsome := h.mp ⟨_, hnumber⟩
    cases hsome

end ConvexProgram
