import ConvexProgram.Proofs.WellShaped

/-!
# Declared and evaluated sizes of elementwise operations

The declared shape of `a + b` or `a * b` aligns the dims of the operands at the last one, so that a
vector beside a matrix stands for a row.  Evaluation goes by matrices, of which a vector is one with
a single column, and only spreads an operand of one entry.

* `Shape.broadcast_cases_of_agree`   the two rules give the same sizes, but for a vector of several
  entries beside a matrix of one column (`Shape.Crossed`);
* `Expr.flatten_evaluates_iff`       an expression can be flattened if it has as many entries as it
  declares;
* `elementwise_hasShape_iff`         when the result of an elementwise operation has its declared
  sizes, and when it can be flattened.
-/

namespace ConvexProgram

open Fault

/-! ## Broadcasting -/

namespace Shape

theorem commonDim?_one (d : Nat) : commonDim? d 1 = some d := if_pos (Or.inr rfl)

theorem commonDim?_comm (c d : Nat) : commonDim? c d = commonDim? d c := by
  unfold commonDim?
  split_ifs <;> grind

theorem broadcast_comm (s t : Shape) : s.broadcast t = t.broadcast s := by
  have hdims : ∀ cs ds : List Nat, commonDims? cs ds = commonDims? ds cs := by
    intro cs ds
    induction cs generalizing ds with
    | nil => rw [commonDims?_nil, commonDims?]
    | cons c cs ih =>
      cases ds with
      | nil => rw [commonDims?_nil, commonDims?]
      | cons d ds => rw [commonDims?, commonDims?, commonDim?_comm, ih]
  rw [broadcast, broadcast, hdims]

theorem vector_broadcast_vector (m n : Nat) :
    (vector m).broadcast (vector n) = (commonDim? m n).map vector := by
  show ((commonDim? m n).bind fun c => some [c]).map _ = _
  cases commonDim? m n with
  | none => rfl
  | some c => rfl

/-- A vector is aligned with the columns of a matrix. -/
theorem vector_broadcast_matrix (n m k : Nat) :
    (vector n).broadcast (matrix m k) = (commonDim? n k).map (matrix m) := by
  show ((commonDim? n k).bind fun c => some [c, m]).map _ = _
  cases commonDim? n k with
  | none => rfl
  | some c => rfl

theorem matrix_broadcast_single (m k : Nat) :
    (matrix m k).broadcast (matrix 1 1) = some (matrix m k) := by
  show ((commonDim? k 1).bind fun c => ((commonDim? m 1).bind fun r => some [r]).map (c :: ·)).map _
    = _
  rw [commonDim?_one, commonDim?_one]
  rfl

/-- One is a vector and the other a matrix of one column, in either order. -/
def Crossed (m n : Nat) (s t : Shape) : Prop :=
  s = vector n ∧ t = matrix m 1 ∨ s = matrix m 1 ∧ t = vector n

theorem Crossed.symm {m n : Nat} {s t : Shape} (h : Crossed m n s t) : Crossed m n t s :=
  Or.symm (h.imp And.symm And.symm)

theorem Crossed.unique {m n m' n' : Nat} {s t : Shape} (h : Crossed m n s t)
    (h' : Crossed m' n' s t) : m = m' ∧ n = n' := by
  rcases h with ⟨rfl, rfl⟩ | ⟨rfl, rfl⟩
  · rcases h' with ⟨hs, ht⟩ | ⟨hs, _⟩
    · cases hs
      cases ht
      exact ⟨rfl, rfl⟩
    · cases hs
  · rcases h' with ⟨hs, _⟩ | ⟨hs, ht⟩
    · cases hs
    · cases hs
      cases ht
      exact ⟨rfl, rfl⟩

theorem Crossed.ndim {m n : Nat} {s t : Shape} (h : Crossed m n s t) : s.ndim + t.ndim = 3 := by
  rcases h with ⟨rfl, rfl⟩ | ⟨rfl, rfl⟩
  · rfl
  · rfl

/-- Aligned with a column, a vector is spread over as many columns as it has entries. -/
theorem Crossed.broadcast {m n : Nat} {s t : Shape} (h : Crossed m n s t) :
    s.broadcast t = some (matrix m n) := by
  have hcolumn : (vector n).broadcast (matrix m 1) = some (matrix m n) := by
    rw [vector_broadcast_matrix, commonDim?_one]
    rfl
  rcases h with ⟨rfl, rfl⟩ | ⟨rfl, rfl⟩
  · exact hcolumn
  · rw [broadcast_comm]
    exact hcolumn

/-- Operands that agree in their sizes, or of which the second has one entry, have a common shape,
and it has the sizes of the first unless they are crossed. -/
theorem broadcast_cases_of_agree {s t : Shape} (hs : s.Proper) (ht : t.Proper)
    (h : s.rows = t.rows ∧ s.cols = t.cols ∨ t.rows = 1 ∧ t.cols = 1) :
    (∃ u, s.broadcast t = some u ∧ u.Proper ∧ u.rows = s.rows ∧ u.cols = s.cols ∧
      ∀ m n, 2 ≤ n → ¬Crossed m n s t) ∨
    ∃ m n, 2 ≤ n ∧ (m = 1 ∨ m = n) ∧ Crossed m n s t ∧ s.rows = n ∧ s.cols = 1 := by
  have hapart : s.ndim + t.ndim ≠ 3 → ∀ m n, 2 ≤ n → ¬Crossed m n s t :=
    fun hne _ _ _ hc => hne hc.ndim
  obtain rfl | ⟨n, hn, rfl⟩ | ⟨m, k, hm, hk, rfl⟩ := hs.cases
  · have hone : t.rows = 1 ∧ t.cols = 1 := by
      rcases h with ⟨hr, hc⟩ | h
      · exact ⟨hr.symm, hc.symm⟩
      · exact h
    have hdims : scalar.ndim + t.ndim ≠ 3 := by
      have h0 : scalar.ndim = 0 := rfl
      have h2 : t.ndim ≤ 2 := ht.1
      omega
    exact Or.inl ⟨t, scalar_broadcast t, ht, hone.1, hone.2, hapart hdims⟩
  · obtain rfl | ⟨l, hl, rfl⟩ | ⟨m, k, hm, hk, rfl⟩ := ht.cases
    · exact Or.inl ⟨_, broadcast_scalar _, hs, rfl, rfl, hapart (show 1 + 0 ≠ 3 by decide)⟩
    · have hu : commonDim? n l = some n := if_pos (h.imp And.left And.left)
      refine Or.inl ⟨vector n, ?_, hs, rfl, rfl, hapart (show 1 + 1 ≠ 3 by decide)⟩
      rw [vector_broadcast_vector, hu]
      rfl
    · -- the sizes are those of a column on both sides, but the shapes are crossed
      obtain ⟨hmn, rfl⟩ : (m = 1 ∨ m = n) ∧ k = 1 := by
        rcases h with ⟨hr, hc⟩ | ⟨hr, hc⟩
        · exact ⟨Or.inr hr.symm, hc.symm⟩
        · exact ⟨Or.inl hr, hc⟩
      have hcross : Crossed m n (vector n) (matrix m 1) := Or.inl ⟨rfl, rfl⟩
      by_cases h2 : 2 ≤ n
      · exact Or.inr ⟨m, n, h2, hmn, hcross, rfl, rfl⟩
      · obtain rfl : n = 1 := by omega
        obtain rfl : m = 1 := by omega
        refine Or.inl ⟨_, hcross.broadcast, ht, rfl, rfl, fun _ _ h2 hc => ?_⟩
        have := (hcross.unique hc).2
        omega
  · obtain rfl | ⟨n, hn, rfl⟩ | ⟨m', k', hm', hk', rfl⟩ := ht.cases
    · exact Or.inl ⟨_, broadcast_scalar _, hs, rfl, rfl, hapart (show 2 + 0 ≠ 3 by decide)⟩
    · rcases Nat.lt_or_ge 1 n with h2 | h1
      · obtain ⟨hr, hc⟩ | ⟨hr, _⟩ := h
        · obtain rfl : m = n := hr
          obtain rfl : k = 1 := hc
          exact Or.inr ⟨m, m, h2, Or.inr rfl, Or.inr ⟨rfl, rfl⟩, rfl, rfl⟩
        · have hr : n = 1 := hr
          omega
      · obtain rfl : n = 1 := by omega
        refine Or.inl ⟨matrix m k, ?_, hs, rfl, rfl, ?_⟩
        · rw [broadcast_comm, vector_broadcast_matrix, commonDim?_comm, commonDim?_one]
          rfl
        · rintro m' n' h2 (⟨hc, _⟩ | ⟨_, hc⟩)
          · cases hc
          · cases hc
            omega
    · refine Or.inl ⟨matrix m k, ?_, hs, rfl, rfl, hapart (show 2 + 2 ≠ 3 by decide)⟩
      rcases h with ⟨hr, hc⟩ | ⟨hr, hc⟩
      · obtain rfl : m = m' := hr
        obtain rfl : k = k' := hc
        exact broadcast_self _
      · obtain rfl : m' = 1 := hr
        obtain rfl : k' = 1 := hc
        exact matrix_broadcast_single m k

end Shape

variable {α : Type} [Scalar α]

/-! ## Elementwise operations on matrices -/

/-- The result has the sizes of an operand that the other agrees with or has a single entry
beside. -/
theorem Matrix.sizes_of_elementwise {f : α → α → α} {a b m : Matrix α}
    (h : a.elementwise f b = .ok m) :
    (a.rows = b.rows ∧ a.cols = b.cols ∨ b.size = 1) ∧ m.rows = a.rows ∧ m.cols = a.cols ∨
      a.size = 1 ∧ m.rows = b.rows ∧ m.cols = b.cols := by
  unfold elementwise at h
  split_ifs at h with hsame hb ha
  · obtain rfl := Except.ok.inj h
    exact Or.inl ⟨Or.inl hsame, rfl, rfl⟩
  · obtain rfl := Except.ok.inj h
    exact Or.inl ⟨Or.inr hb, rfl, rfl⟩
  · obtain rfl := Except.ok.inj h
    exact Or.inr ⟨ha, rfl, rfl⟩

/-- Either the result has the sizes of the common shape, or the operands are crossed and the result
is a column. -/
theorem Matrix.elementwise_cases {f : α → α → α} {s t : Shape} {a b m : Matrix α} (hs : s.Proper)
    (ht : t.Proper) (ha : a.HasShape s) (hb : b.HasShape t) (h : a.elementwise f b = .ok m) :
    (∃ u, s.broadcast t = some u ∧ u.Proper ∧ m.HasShape u ∧
      ∀ k n, 2 ≤ n → ¬Shape.Crossed k n s t) ∨
    ∃ k n, 2 ≤ n ∧ (k = 1 ∨ k = n) ∧ Shape.Crossed k n s t ∧ m.HasShape (.vector n) := by
  have hone : ∀ {r : Shape} {x : Matrix α}, x.HasShape r → x.size = 1 → r.rows = 1 ∧ r.cols = 1 := by
    intro r x hx hsize
    rw [← hx.rows, ← hx.cols]
    exact ⟨Nat.eq_one_of_mul_eq_one_right hsize, Nat.eq_one_of_mul_eq_one_left hsize⟩
  rcases sizes_of_elementwise h with ⟨hagree, hr, hc⟩ | ⟨hsize, hr, hc⟩
  · have hagree : s.rows = t.rows ∧ s.cols = t.cols ∨ t.rows = 1 ∧ t.cols = 1 := by
      rw [← ha.rows, ← ha.cols, ← hb.rows, ← hb.cols]
      refine hagree.imp id fun hsize => ?_
      rw [hb.rows, hb.cols]
      exact hone hb hsize
    rw [ha.rows] at hr
    rw [ha.cols] at hc
    obtain ⟨u, hu, hproper, hur, huc, hnot⟩ | ⟨k, n, h2, hk, hcross, hsr, hsc⟩ :=
      Shape.broadcast_cases_of_agree hs ht hagree
    · exact Or.inl ⟨u, hu, hproper, ⟨hr.trans hur.symm, hc.trans huc.symm⟩, hnot⟩
    · exact Or.inr ⟨k, n, h2, hk, hcross, ⟨hr.trans hsr, hc.trans hsc⟩⟩
  · -- the first operand has one entry, so the second decides
    rw [hb.rows] at hr
    rw [hb.cols] at hc
    obtain ⟨u, hu, hproper, hur, huc, hnot⟩ | ⟨k, n, h2, hk, hcross, htr, htc⟩ :=
      Shape.broadcast_cases_of_agree ht hs (Or.inr (hone ha hsize))
    · refine Or.inl ⟨u, ?_, hproper, ⟨hr.trans hur.symm, hc.trans huc.symm⟩, ?_⟩
      · rw [Shape.broadcast_comm, hu]
      · exact fun k n h2 hc => hnot k n h2 hc.symm
    · exact Or.inr ⟨k, n, h2, hk, hcross.symm, ⟨hr.trans htr, hc.trans htc⟩⟩

/-! ## Expressions -/

namespace Expr

variable {σ : Assignment α} {a b e : Expr α}

/-- `a + b`, `a - b` and `a * b` combine the entries of `a` with entries in the places of `b`. -/
theorem exists_elementwise {m n : Matrix α} (he : e = a.add b ∨ e = a.sub b ∨ e = a.mul b)
    (hm : a.matrix σ = .ok m) (hn : b.matrix σ = .ok n) :
    e.shape = (a.shape.broadcast b.shape).getD .scalar ∧
      ∃ f k, k.rows = n.rows ∧ k.cols = n.cols ∧ e.matrix σ = m.elementwise f k := by
  rcases he with rfl | rfl | rfl
  · refine ⟨shape_binary _ _ _, (· + ·), n, rfl, rfl, ?_⟩
    rw [add, matrix_binary, hm, hn]
    rfl
  · refine ⟨(shape_binary _ _ _).trans ?_, (· + ·), n.neg, rfl, rfl, ?_⟩
    · rw [neg, shape_unary]
      rfl
    · rw [sub, add, neg, matrix_binary, matrix_unary, hm, hn]
      rfl
  · refine ⟨shape_binary _ _ _, (· * ·), n, rfl, rfl, ?_⟩
    rw [mul, matrix_binary, hm, hn]
    rfl

/-- An expression is flattened to the entries of its value if there are as many as it declares, and
otherwise not at all. -/
theorem flatten_evaluates_iff {z : Value α} (h : e.value σ = .ok z) :
    (∃ w, e.flatten.value σ = .ok w ∧ w.toMatrix.entries = z.toMatrix.entries) ↔
      z.toMatrix.size = e.shape.size := by
  have hsize : (Shape.vector e.shape.size).size = e.shape.size :=
    Shape.size_vector e.shape.size_pos
  have hflat : e.flatten.matrix σ = if z.toMatrix.size = e.shape.size
      then z.toMatrix.withShape (.vector e.shape.size)
      else .error (.reshapeSize (.vector e.shape.size) z.toMatrix.extent) := by
    rw [flatten, reshape, matrix_unary, matrix_of_value h]
    show (if _ = (Shape.vector e.shape.size).size then _ else _) = _
    rw [hsize]
  constructor
  · rintro ⟨w, hw, _⟩
    by_contra hne
    have hmatrix := matrix_of_value hw
    rw [hflat, if_neg hne] at hmatrix
    cases hmatrix
  · intro heq
    obtain ⟨m, hm, _, hentries⟩ := Matrix.exists_withShape (s := .vector e.shape.size)
      (heq.trans (Nat.mul_one _).symm)
    rw [if_pos heq, hm] at hflat
    refine ⟨.dense m, ?_, hentries⟩
    unfold value
    rw [hflat]
    rfl

end Expr

/-! ## A vector and a column -/

def Expr.pair : Expr ℚ := .var ⟨0, .vector 2, none, {}⟩

/-- A list of entries as a constant is a matrix of one column. -/
def Expr.pairColumn : Expr ℚ := .const 1 (.ofColumn #[3, 4])

def Assignment.pair : Assignment ℚ
  | 0 => some (.ofColumn #[1, 2])
  | _ => none

/-! ## Declared and evaluated sizes -/

/-- **Elementwise operations and their declared shapes.**  Where `a + b`, `a - b` or `a * b`
evaluates, the operands have a common shape, and it is the declared one.  The result has its sizes
unless a vector of several entries stands beside a matrix of one column; and the result can be
flattened, to the same entries, unless the column is as long as the vector. -/
theorem elementwise_hasShape_iff {α : Type} [Scalar α] {σ : Assignment α} {a b e : Expr α}
    {x y z : Value α} (ha : a.shape.Proper) (hb : b.shape.Proper)
    (hx : a.value σ = .ok x) (hxs : x.toMatrix.HasShape a.shape)
    (hy : b.value σ = .ok y) (hys : y.toMatrix.HasShape b.shape)
    (he : e = a.add b ∨ e = a.sub b ∨ e = a.mul b) (hz : e.value σ = .ok z) :
    a.shape.broadcast b.shape = some e.shape ∧
    (z.toMatrix.HasShape e.shape ↔ ¬∃ m n, 2 ≤ n ∧ Shape.Crossed m n a.shape b.shape) ∧
    ((∃ w, e.flatten.value σ = .ok w ∧ w.toMatrix.entries = z.toMatrix.entries) ↔
      ¬∃ n, 2 ≤ n ∧ Shape.Crossed n n a.shape b.shape) := by
  obtain ⟨hshape, f, k, hkr, hkc, hmatrix⟩ :=
    Expr.exists_elementwise he (Expr.matrix_of_value hx) (Expr.matrix_of_value hy)
  have hks : k.HasShape b.shape := ⟨hkr.trans hys.rows, hkc.trans hys.cols⟩
  have hop : x.toMatrix.elementwise f k = .ok z.toMatrix :=
    hmatrix.symm.trans (Expr.matrix_of_value hz)
  rw [Expr.flatten_evaluates_iff hz, hshape]
  obtain ⟨u, hu, hproper, hzu, hnot⟩ | ⟨m, n, h2, hm, hcross, hzn⟩ :=
    Matrix.elementwise_cases ha hb hxs hks hop
  · rw [hu, Option.getD_some]
    refine ⟨rfl, iff_of_true hzu ?_, iff_of_true (hproper.size_of_hasShape hzu) ?_⟩
    · exact fun ⟨m, n, h2, hc⟩ => hnot m n h2 hc
    · exact fun ⟨n, h2, hc⟩ => hnot n n h2 hc
  · -- the result is a column of `n` entries, and declared as `m × n`
    rw [hcross.broadcast, Option.getD_some]
    refine ⟨rfl, iff_of_false (fun hz => ?_) (not_not_intro ⟨m, n, h2, hcross⟩), ?_⟩
    · have h1 : 1 = n := hzn.cols.symm.trans hz.cols
      omega
    · have hsize : z.toMatrix.size = n := hzn.size.trans (Nat.mul_one n)
      have hdeclared : (Shape.matrix m n).size = m * n :=
        Shape.size_matrix (Nat.mul_pos (by omega) (by omega))
      rw [hsize, hdeclared]
      constructor
      · rintro hn ⟨l, _, hl⟩
        obtain ⟨hml, hnl⟩ := hcross.unique hl
        have hn0 : 0 < n := by omega
        have h1 : m = 1 := Nat.eq_of_mul_eq_mul_right hn0 (hn.symm.trans (Nat.one_mul n).symm)
        omega
      · intro hnot
        rcases hm with rfl | rfl
        · exact (Nat.one_mul n).symm
        · exact absurd ⟨m, h2, hcross⟩ hnot

theorem elementwise_hasShape_iff_pair :
    ∃ z : Value ℚ, Expr.pair.shape.Proper ∧ Expr.pairColumn.shape.Proper ∧
      (Expr.pair.mul Expr.pairColumn).value .pair = .ok z ∧
      Expr.pair.shape.broadcast Expr.pairColumn.shape = some (Expr.pair.mul Expr.pairColumn).shape ∧
      ¬z.toMatrix.HasShape (Expr.pair.mul Expr.pairColumn).shape := by
  have hx : Expr.pair.shape.Proper := by decide
  have hy : Expr.pairColumn.shape.Proper := by decide
  have hcross : Shape.Crossed 2 2 Expr.pair.shape Expr.pairColumn.shape := Or.inl ⟨rfl, rfl⟩
  have he : (Expr.pair.mul Expr.pairColumn).value .pair = .ok _ := rfl
  obtain ⟨hb, hz, _⟩ :=
    elementwise_hasShape_iff hx hy rfl ⟨rfl, rfl⟩ rfl ⟨rfl, rfl⟩ (Or.inr (Or.inr rfl)) he
  exact ⟨_, hx, hy, rfl, hb, fun h => hz.mp h ⟨2, 2, Nat.le_refl 2, hcross⟩⟩

/-- The sum of a vector of two entries and a column of two is a column, but it is declared as
`2 × 2` and has no flattened form. -/
theorem elementwise_missesShape :
    (∃ x, Expr.pair.value .pair = .ok x ∧ x.toMatrix.HasShape Expr.pair.shape) ∧
    (∃ y, Expr.pairColumn.value .pair = .ok y ∧ y.toMatrix.HasShape Expr.pairColumn.shape) ∧
    (Expr.pair.add Expr.pairColumn).shape = .matrix 2 2 ∧
    (∃ z, (Expr.pair.add Expr.pairColumn).value .pair = .ok (.dense z) ∧ z.rows = 2 ∧ z.cols = 1) ∧
    outcome ((Expr.pair.add Expr.pairColumn).flatten.value .pair) = .error .shapeMismatch :=
  ⟨⟨_, rfl, rfl, rfl⟩, ⟨_, rfl, rfl, rfl⟩, rfl, ⟨_, rfl, rfl, rfl⟩, rfl⟩

end ConvexProgram
