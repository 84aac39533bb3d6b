import ConvexProgram.Proofs.Algebra
import ConvexProgram.Proofs.Product

/-!
# The same quantity by different atoms

`x' A x`, sums of squares, traces and sums along an axis have rules of their own, and each can also
be written with products, diagonals and sums.  In exact arithmetic both ways give the same value,
and where one has none the other has none either:

* `Expr.quadForm_eq_dot`, `Expr.matmul_eq_transpose_matmul`   products with a vector;
* `Expr.sumSquares_eq_dot`    the sum of squares, the inner product, and the quadratic form of the
                              identity;
* `Expr.trace_eq_sum_diag`, `Expr.sum_eq_sum_sumAxis`, `Expr.sumAxis_transpose`   sums;
* `same_quantity`             all of them.
-/

namespace ConvexProgram

open Fault

/-! ## Matrices of one column -/

namespace Matrix

section
variable {α : Type}

theorem size_of_cols_one {m : Matrix α} (h : m.cols = 1) : m.size = m.rows := by
  rw [size, h, Nat.mul_one]

theorem column_entries {m : Matrix α} (h : m.cols = 1) : column m.entries = m :=
  ext_entries (m.size_entries.trans (size_of_cols_one h)) h.symm rfl

end

variable {α : Type} [Scalar α]

theorem quadForm_of_cols_one {x : Matrix α} (h : x.cols = 1) (p : Matrix α) :
    x.quadForm p =
      if p.rows = x.rows ∧ p.cols = x.rows then .ok ((x.transpose.mul p).mul x)
      else .error (.quadForm p.extent) := by
  unfold quadForm
  rw [size_of_cols_one h, column_entries h]

theorem single_sumSquares {x : Matrix α} (h : x.cols = 1) :
    single x.sumSquares = x.transpose.mul x := by
  have hpos : 0 < x.cols := h.symm ▸ Nat.one_pos
  have hentry : (x.transpose.mul x).entry 0 0 = x.sumSquares := by
    rw [entry_transpose_mul hpos rfl hpos, sumSquares, size_of_cols_one h]
    refine Scalar.sumTo_congr fun k _ => ?_
    rw [entry, Nat.zero_mul, Nat.add_zero]
  rw [← hentry]
  exact single_entry h h

/-- The sums of the columns of the transpose are the sums of the rows. -/
theorem colSums_transpose (m : Matrix α) : m.transpose.colSums = m.rowSums :=
  ofFn_congr fun _ _ hi _ => Scalar.sumTo_congr fun _ hk => entry_transpose hk hi

end Matrix

/-! ## Products with a vector -/

namespace Expr

section
variable {α : Type} [Scalar α] {σ : Assignment α} {x a : Expr α} {n p q : Nat} {m k : Matrix α}

omit [Scalar α] in
theorem shape_dot_matmul (hx : x.shape = .vector n) (ha : a.shape = .matrix p q) :
    (x.dot (a.matmul x)).shape = .scalar ∧ (a.matmul x).shape.isMatrix = false := by
  rw [dot, matmul, matmul, shape_binary, shape_binary, hx, ha]
  show (Shape.matmul (.vector n) ((if q = n then some (.vector p) else none).getD .scalar)).getD _ = _ ∧
    ((if q = n then some (Shape.vector p) else none).getD .scalar).isMatrix = false
  split
  · refine ⟨?_, rfl⟩
    show (if n = p then some Shape.scalar else none).getD .scalar = .scalar
    split
    · rfl
    · rfl
  · exact ⟨rfl, rfl⟩

omit [Scalar α] in
theorem isScalar_transpose_matmul (hx : x.shape = .vector n) (ha : a.shape = .matrix p q) :
    (x.matmul a).shape.isScalar = (a.transpose.matmul x).shape.isScalar := by
  rw [matmul, matmul, transpose, shape_binary, shape_binary, shape_unary, hx, ha]
  show ((if n = p then some (Shape.vector q) else none).getD .scalar).isScalar =
    ((if p = n then some (Shape.vector q) else none).getD .scalar).isScalar
  by_cases h : n = p
  · rw [if_pos h, if_pos h.symm]
  · rw [if_neg h, if_neg (Ne.symm h)]

theorem outcome_matrix_quadForm (hx : x.shape = .vector n) (hm : x.matrix σ = .ok m)
    (hms : m.HasShape x.shape) (hk : a.matrix σ = .ok k) :
    outcome ((x.quadForm a).matrix σ) =
      if k.rows = m.rows ∧ k.cols = m.rows then .ok ((m.transpose.mul k).mul m)
      else .error .shapeMismatch := by
  have hcols : m.cols = 1 := hms.cols.trans (hx ▸ rfl)
  rw [quadForm, matrix_binary, hm, hk]
  show outcome (m.quadForm k) = _
  rw [Matrix.quadForm_of_cols_one hcols]
  split
  · rfl
  · rfl

theorem outcome_matrix_dot_matmul (hx : x.shape = .vector n) (ha : a.shape = .matrix p q)
    (hm : x.matrix σ = .ok m) (hk : a.matrix σ = .ok k) :
    outcome ((x.dot (a.matmul x)).matrix σ) =
      if k.rows = m.rows ∧ k.cols = m.rows then .ok (m.transpose.mul (k.mul m))
      else .error .shapeMismatch := by
  have hshape : (a.matmul x).shape.isMatrix = false := (shape_dot_matmul hx ha).2
  have hdot : (x.dot (a.matmul x)).matrix σ =
      (Matrix.product (.matrix p q) (.vector n) k m).bind
        (Matrix.product (.vector n) (a.matmul x).shape m) := by
    rw [dot, matmul, matmul, matrix_binary, matrix_binary, hm, hk, hx, ha]
    rfl
  rw [hdot, Matrix.product_matrix]
  by_cases hcols : k.cols = m.rows
  · rw [if_pos hcols]
    show outcome (Matrix.product (.vector n) (a.matmul x).shape m (k.mul m)) = _
    rw [Matrix.product_vector, hshape, if_neg Bool.false_ne_true, Matrix.rows_mul]
    by_cases hrows : k.rows = m.rows
    · rw [if_pos hrows.symm, if_pos ⟨hrows, hcols⟩]
      rfl
    · rw [if_neg (Ne.symm hrows), if_neg fun h => hrows h.1]
      rfl
  · rw [if_neg hcols, if_neg fun h => hcols h.2]
    rfl

theorem outcome_matrix_matmul (hx : x.shape = .vector n) (ha : a.shape = .matrix p q)
    (hm : x.matrix σ = .ok m) (hk : a.matrix σ = .ok k) :
    outcome ((x.matmul a).matrix σ) =
      if m.rows = k.rows then .ok (m.transpose.mul k).transpose else .error .shapeMismatch := by
  rw [matmul, matrix_binary, hm, hk, hx, ha]
  show outcome (Matrix.product (.vector n) (.matrix p q) m k) = _
  rw [Matrix.product_vector]
  split
  · rfl
  · rfl

theorem outcome_matrix_transpose_matmul (ha : a.shape = .matrix p q) (hm : x.matrix σ = .ok m)
    (hk : a.matrix σ = .ok k) :
    outcome ((a.transpose.matmul x).matrix σ) =
      if m.rows = k.rows then .ok (k.transpose.mul m) else .error .shapeMismatch := by
  rw [matmul, matrix_binary, transpose, matrix_unary, shape_unary, hm, hk, ha]
  show outcome (Matrix.product (.matrix q p) x.shape k.transpose m) = _
  rw [Matrix.product_matrix, Matrix.cols_transpose]
  by_cases h : m.rows = k.rows
  · rw [if_pos h, if_pos h.symm]
    rfl
  · rw [if_neg h, if_neg (Ne.symm h)]
    rfl

end

variable {α : Type} [ExactScalar α] {σ : Assignment α} {x a : Expr α} {n p q : Nat}

theorem quadForm_eq_dot (hx : x.shape = .vector n) (ha : a.shape = .matrix p q)
    (hxσ : x.InShape σ) (haσ : a.InShape σ) :
    outcome ((x.quadForm a).value σ) = outcome ((x.dot (a.matmul x)).value σ) := by
  obtain ⟨m, hm, hms⟩ := hxσ.exists_matrix
  obtain ⟨k, hk, _⟩ := haσ.exists_matrix
  refine outcome_value_congr ?_ ?_
  · rw [(shape_dot_matmul hx ha).1, quadForm, shape_binary]
    rfl
  · rw [outcome_matrix_quadForm hx hm hms hk, outcome_matrix_dot_matmul hx ha hm hk]
    by_cases h : k.rows = m.rows ∧ k.cols = m.rows
    · have hrow : m.transpose.cols = k.rows := h.1.symm
      rw [if_pos h, if_pos h, Matrix.mul_assoc hrow]
    · rw [if_neg h, if_neg h]

/-- A quadratic form has a value if the matrix is square and of the size of the vector, and then it
is a number. -/
theorem quadForm_evaluates_iff (hx : x.shape = .vector n) (ha : a.shape = .matrix p q)
    (hxσ : x.InShape σ) (haσ : a.InShape σ) :
    ((∃ z, (x.quadForm a).value σ = .ok z) ↔ p = n ∧ q = n) ∧
      ∀ z, (x.quadForm a).value σ = .ok z → ∃ r, z = .scalar r := by
  obtain ⟨m, hm, hms⟩ := hxσ.exists_matrix
  obtain ⟨k, hk, hks⟩ := haσ.exists_matrix
  have hmatrix := outcome_matrix_quadForm hx hm hms hk
  rw [hx] at hms
  rw [ha] at hks
  have hiff : k.rows = m.rows ∧ k.cols = m.rows ↔ p = n ∧ q = n := by
    rw [hms.rows, hks.rows, hks.cols]
    rfl
  refine ⟨exists_value_iff.trans ((exists_ok_iff_of_outcome hmatrix).trans hiff), fun z hz => ?_⟩
  have hz' := matrix_of_value hz
  have h := (exists_ok_iff_of_outcome hmatrix).mp ⟨_, hz'⟩
  rw [if_pos h, outcome_eq_ok_iff, hz'] at hmatrix
  have hone : z.toMatrix.rows = 1 ∧ z.toMatrix.cols = 1 := by
    rw [Except.ok.inj hmatrix]
    exact ⟨hms.cols, hms.cols⟩
  exact exists_scalar_of_value (shape_binary ..) hz hone.1 hone.2

theorem matmul_eq_transpose_matmul (hx : x.shape = .vector n) (ha : a.shape = .matrix p q)
    (hxσ : x.InShape σ) (haσ : a.InShape σ) :
    outcome ((x.matmul a).value σ) = outcome ((a.transpose.matmul x).value σ) := by
  obtain ⟨m, hm, _⟩ := hxσ.exists_matrix
  obtain ⟨k, hk, _⟩ := haσ.exists_matrix
  refine outcome_value_congr (isScalar_transpose_matmul hx ha) ?_
  rw [outcome_matrix_matmul hx ha hm hk, outcome_matrix_transpose_matmul ha hm hk]
  by_cases h : m.rows = k.rows
  · have hrow : m.transpose.cols = k.rows := h
    rw [if_pos h, if_pos h, Matrix.transpose_mul hrow, Matrix.transpose_transpose]
  · rw [if_neg h, if_neg h]

theorem matmul_evaluates_iff_of_vector (hx : x.shape = .vector n) (ha : a.shape = .matrix p q)
    (hxσ : x.InShape σ) (haσ : a.InShape σ) :
    (∃ z, (x.matmul a).value σ = .ok z) ↔ n = p := by
  obtain ⟨m, hm, hms⟩ := hxσ.exists_matrix
  obtain ⟨k, hk, hks⟩ := haσ.exists_matrix
  rw [exists_value_iff, exists_ok_iff_of_outcome (outcome_matrix_matmul hx ha hm hk)]
  rw [hx] at hms
  rw [ha] at hks
  rw [hms.rows, hks.rows]
  rfl

/-! ## Sums -/

theorem sumSquares_eq_dot (hx : x.shape = .vector n) (hxσ : x.InShape σ) (id : Ident) :
    ∃ r, x.sumSquares.value σ = .ok (.scalar r) ∧ (x.dot x).value σ = .ok (.scalar r) ∧
      (x.quadForm (eye n id).1).value σ = .ok (.scalar r) := by
  obtain ⟨m, hm, hms⟩ := hxσ.exists_matrix
  have hquad := outcome_matrix_quadForm (a := (eye n id).1) hx hm hms rfl
  rw [hx] at hms
  have hrows : m.rows = n := hms.rows
  have hsquares : m.transpose.mul m = .single m.sumSquares := (Matrix.single_sumSquares hms.cols).symm
  refine ⟨m.sumSquares, value_of_single (shape_unary ..) ?_, value_of_single ?_ ?_,
    value_of_single (shape_binary ..) ?_⟩
  · rw [sumSquares, matrix_unary, hm]
    rfl
  · rw [dot, matmul, shape_binary, hx]
    show (if n = n then some Shape.scalar else none).getD .scalar = .scalar
    rw [if_pos rfl]
    rfl
  · rw [dot, matmul, matrix_binary, hm, hx, ← hsquares]
    show Matrix.product (.vector n) (.vector n) m m = _
    rw [Matrix.product_vector, if_pos rfl]
    rfl
  · have hsame : n = m.rows ∧ n = m.rows := ⟨hrows.symm, hrows.symm⟩
    have hrow : m.transpose.cols = n := hrows
    rw [show Value.toMatrix (.dense (.identity n)) = Matrix.identity n from rfl,
      Matrix.rows_identity, Matrix.cols_identity, if_pos hsame, Matrix.mul_identity hrow,
      hsquares] at hquad
    exact outcome_eq_ok_iff.mp hquad

theorem trace_eq_sum_diag (ha : a.shape.isSquare = true) (haσ : a.InShape σ) :
    ∃ r, a.trace.value σ = .ok (.scalar r) ∧ a.diag.sum.value σ = .ok (.scalar r) := by
  obtain ⟨k, hk, hks⟩ := haσ.exists_matrix
  have hsquare : k.rows = k.cols := by
    rw [hks.rows, hks.cols, Shape.cols_of_isSquare ha]
  have hvector : a.shape.isVector = false := by
    obtain h | ⟨n, h⟩ := Shape.isSquare_cases ha
    · rw [h]
      rfl
    · rw [h]
      rfl
  refine ⟨k.trace, value_of_single (shape_unary ..) ?_, value_of_single (shape_unary ..) ?_⟩
  · rw [trace, matrix_unary, hk]
    show (if k.rows = k.cols then .ok k else _ : Except Fault (Matrix α)).map _ = _
    rw [if_pos hsquare]
    rfl
  · have hdiag : a.diag.matrix σ = .ok k.diagonal := by
      rw [diag, matrix_unary, hk]
      show (if a.shape.isVector then _ else _) = _
      rw [hvector]
      rfl
    rw [sum, matrix_unary, hdiag]
    exact congrArg (fun r => Except.ok (Matrix.single r)) (Matrix.sum_diagonal hsquare)

theorem matrix_sumAxis {k : Matrix α} (ha : a.shape = .matrix p q) (hk : a.matrix σ = .ok k) :
    (a.sumAxis 0).matrix σ = .ok k.colSums ∧ (a.sumAxis 1).matrix σ = .ok k.rowSums := by
  rw [sumAxis, sumAxis, matrix_unary, matrix_unary, hk, ha]
  exact ⟨rfl, rfl⟩

theorem sum_eq_sum_sumAxis (ha : a.shape = .matrix p q) (haσ : a.InShape σ) :
    ∃ r, a.sum.value σ = .ok (.scalar r) ∧ (a.sumAxis 0).sum.value σ = .ok (.scalar r) ∧
      (a.sumAxis 1).sum.value σ = .ok (.scalar r) := by
  obtain ⟨k, hk, _⟩ := haσ.exists_matrix
  obtain ⟨hcols, hrows⟩ := matrix_sumAxis ha hk
  refine ⟨k.sum, value_of_single (shape_unary ..) ?_, value_of_single (shape_unary ..) ?_,
    value_of_single (shape_unary ..) ?_⟩
  · rw [sum, matrix_unary, hk]
    rfl
  · rw [sum, matrix_unary, hcols]
    exact congrArg (fun r => Except.ok (Matrix.single r)) k.sum_colSums
  · rw [sum, matrix_unary, hrows]
    exact congrArg (fun r => Except.ok (Matrix.single r)) k.sum_rowSums

theorem sumAxis_transpose (ha : a.shape = .matrix p q) (haσ : a.InShape σ) :
    ∃ m, (a.sumAxis 1).value σ = .ok (.dense m) ∧
      (a.transpose.sumAxis 0).value σ = .ok (.dense m) := by
  obtain ⟨k, hk, _⟩ := haσ.exists_matrix
  have hshape : a.transpose.shape = .matrix q p := by
    rw [transpose, shape_unary, ha]
    rfl
  have htranspose : a.transpose.matrix σ = .ok k.transpose := by
    rw [transpose, matrix_unary, hk]
    rfl
  have hsums := (matrix_sumAxis hshape htranspose).1
  rw [Matrix.colSums_transpose] at hsums
  refine ⟨k.rowSums, value_of_isScalar_eq_false ?_ (matrix_sumAxis ha hk).2,
    value_of_isScalar_eq_false ?_ hsums⟩
  · rw [sumAxis, shape_unary, ha]
    rfl
  · rw [sumAxis, shape_unary, hshape]
    rfl

end Expr

def Expr.tile : Expr ℚ := .const 1 (.dense ⟨2, 2, #[1, 3, 2, 4], rfl⟩)

/-- **Atoms that compute the same quantity agree.**  In exact arithmetic, for operands that evaluate
in their declared sizes: the quadratic form of a vector and a matrix is the inner product with their
product, and a vector times a matrix is the transpose times the vector, or both sides fail; a sum of
squares is an inner product and the quadratic form of the identity; a trace is the sum of the
diagonal; and the sum of a matrix is the sum of its sums along either axis. -/
theorem same_quantity {α : Type} [ExactScalar α] (σ : Assignment α) :
    (∀ (x a : Expr α) (n p q : Nat), x.shape = .vector n → a.shape = .matrix p q →
      x.InShape σ → a.InShape σ →
        outcome ((x.quadForm a).value σ) = outcome ((x.dot (a.matmul x)).value σ) ∧
        ((∃ z, (x.quadForm a).value σ = .ok z) ↔ p = n ∧ q = n) ∧
        (∀ z, (x.quadForm a).value σ = .ok z → ∃ r, z = .scalar r) ∧
        outcome ((x.matmul a).value σ) = outcome ((a.transpose.matmul x).value σ) ∧
        ((∃ z, (x.matmul a).value σ = .ok z) ↔ n = p)) ∧
    (∀ (x : Expr α) (n : Nat) (id : Ident), x.shape = .vector n → x.InShape σ →
      ∃ r, x.sumSquares.value σ = .ok (.scalar r) ∧ (x.dot x).value σ = .ok (.scalar r) ∧
        (x.quadForm (Expr.eye n id).1).value σ = .ok (.scalar r)) ∧
    (∀ a : Expr α, a.shape.isSquare = true → a.InShape σ →
      ∃ r, a.trace.value σ = .ok (.scalar r) ∧ a.diag.sum.value σ = .ok (.scalar r)) ∧
    ∀ (a : Expr α) (p q : Nat), a.shape = .matrix p q → a.InShape σ →
      (∃ r, a.sum.value σ = .ok (.scalar r) ∧ (a.sumAxis 0).sum.value σ = .ok (.scalar r) ∧
        (a.sumAxis 1).sum.value σ = .ok (.scalar r)) ∧
      ∃ m, (a.sumAxis 1).value σ = .ok (.dense m) ∧
        (a.transpose.sumAxis 0).value σ = .ok (.dense m) := by
  refine ⟨fun x a n p q hx ha hxσ haσ => ?_, fun x n id hx hxσ => Expr.sumSquares_eq_dot hx hxσ id,
    fun a ha haσ => Expr.trace_eq_sum_diag ha haσ,
    fun a p q ha haσ => ⟨Expr.sum_eq_sum_sumAxis ha haσ, Expr.sumAxis_transpose ha haσ⟩⟩
  obtain ⟨hiff, hscalar⟩ := Expr.quadForm_evaluates_iff hx ha hxσ haσ
  exact ⟨Expr.quadForm_eq_dot hx ha hxσ haσ, hiff, hscalar,
    Expr.matmul_eq_transpose_matmul hx ha hxσ haσ, Expr.matmul_evaluates_iff_of_vector hx ha hxσ haσ⟩

/-- A vector of two entries and a matrix of two rows and two columns. -/
theorem same_quantity_pair :
    Expr.pair.shape = .vector 2 ∧ Expr.pair.InShape .pair ∧
    Expr.tile.shape = .matrix 2 2 ∧ Expr.tile.shape.isSquare = true ∧ Expr.tile.InShape .pair ∧
    (∃ r, (Expr.pair.quadForm Expr.tile).value .pair = .ok (.scalar r) ∧
      (Expr.pair.dot (Expr.tile.matmul Expr.pair)).value .pair = .ok (.scalar r)) ∧
    (∃ r, Expr.pair.sumSquares.value .pair = .ok (.scalar r) ∧
      (Expr.pair.quadForm (Expr.eye 2 5).1).value .pair = .ok (.scalar r)) ∧
    (∃ r, Expr.tile.trace.value .pair = .ok (.scalar r) ∧
      Expr.tile.diag.sum.value .pair = .ok (.scalar r)) ∧
    ∃ r, Expr.tile.sum.value .pair = .ok (.scalar r) ∧
      (Expr.tile.sumAxis 1).sum.value .pair = .ok (.scalar r) := by
  have hpair : Expr.pair.InShape .pair := ⟨_, rfl, rfl, rfl⟩
  have htile : Expr.tile.InShape .pair := ⟨_, rfl, rfl, rfl⟩
  obtain ⟨hproducts, hsquares, htrace, hsums⟩ := same_quantity Assignment.pair
  obtain ⟨heq, hiff, hscalar, _⟩ := hproducts Expr.pair Expr.tile 2 2 2 rfl rfl hpair htile
  obtain ⟨z, hz⟩ := hiff.mpr ⟨rfl, rfl⟩
  obtain ⟨r, rfl⟩ := hscalar z hz
  obtain ⟨s, hs, _, heye⟩ := hsquares Expr.pair 2 5 rfl hpair
  obtain ⟨t, ht⟩ := htrace Expr.tile rfl htile
  obtain ⟨u, hu, _, hrows⟩ := (hsums Expr.tile 2 2 rfl htile).1
  exact ⟨rfl, hpair, rfl, rfl, htile, ⟨r, hz, eq_ok_of_outcome heq.symm hz⟩, ⟨s, hs, heye⟩, ⟨t, ht⟩,
    u, hu, hrows⟩

end ConvexProgram
