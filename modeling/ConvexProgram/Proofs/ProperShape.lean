import ConvexProgram.Expr.WellShaped

/-!
# Declared shapes of well-shaped expressions

The shape of a well-shaped expression is a scalar, a vector or a matrix with no dim of zero
(`Expr.WellShaped.proper`), so it has as many entries as rows times columns
(`Shape.Proper.rows_mul_cols`).  What the rules for elementwise operations, products and ranges make
of such shapes is said here without any matrix.
-/

namespace ConvexProgram

/-! ## Proper shapes -/

namespace Shape

theorem proper_scalar : scalar.Proper := ⟨Nat.zero_le 2, nofun⟩

theorem proper_vector {n : Nat} (hn : 1 ≤ n) : (vector n).Proper := by
  refine ⟨Nat.le_succ 1, ?_⟩
  intro d hd
  rw [List.mem_singleton.mp hd]
  exact hn

theorem proper_matrix {m n : Nat} (hm : 1 ≤ m) (hn : 1 ≤ n) : (matrix m n).Proper := by
  refine ⟨Nat.le_refl 2, ?_⟩
  intro d hd
  rcases List.mem_cons.mp hd with rfl | hd
  · exact hm
  · rw [List.mem_singleton.mp hd]
    exact hn

theorem Proper.cases {s : Shape} (h : s.Proper) :
    s = scalar ∨ (∃ n, 1 ≤ n ∧ s = vector n) ∨ ∃ m n, 1 ≤ m ∧ 1 ≤ n ∧ s = matrix m n := by
  obtain ⟨dims⟩ := s
  obtain ⟨hlen, hpos⟩ := h
  match dims, hlen, hpos with
  | [], _, _ => exact Or.inl rfl
  | [n], _, hpos =>
    have hn : 1 ≤ n := hpos n List.mem_cons_self
    exact Or.inr (Or.inl ⟨n, hn, rfl⟩)
  | [m, n], _, hpos =>
    have hm : 1 ≤ m := hpos m List.mem_cons_self
    have hn : 1 ≤ n := hpos n (List.mem_cons_of_mem _ List.mem_cons_self)
    exact Or.inr (Or.inr ⟨m, n, hm, hn, rfl⟩)
  | _ :: _ :: _ :: ds, hlen, _ =>
    have hlen : ds.length + 3 ≤ 2 := hlen
    omega

theorem Proper.rows_pos {s : Shape} (h : s.Proper) : 1 ≤ s.rows := by
  obtain rfl | ⟨n, hn, rfl⟩ | ⟨m, n, hm, _, rfl⟩ := h.cases
  · exact Nat.le_refl 1
  · exact hn
  · exact hm

theorem Proper.cols_pos {s : Shape} (h : s.Proper) : 1 ≤ s.cols := by
  obtain rfl | ⟨n, _, rfl⟩ | ⟨m, n, _, hn, rfl⟩ := h.cases
  · exact Nat.le_refl 1
  · exact Nat.le_refl 1
  · exact hn

theorem Proper.rows_mul_cols {s : Shape} (h : s.Proper) : s.rows * s.cols = s.size := by
  obtain rfl | ⟨n, hn, rfl⟩ | ⟨m, n, hm, hn, rfl⟩ := h.cases
  · rfl
  · exact (Nat.mul_one n).trans (size_vector hn).symm
  · exact (size_matrix (Nat.mul_pos hm hn)).symm

/-! ### Shapes of results -/

theorem broadcast_self (s : Shape) : s.broadcast s = some s := by
  have hdims : ∀ ds : List Nat, commonDims? ds ds = some ds := by
    intro ds
    induction ds with
    | nil => rfl
    | cons d ds ih =>
      have hd : commonDim? d d = some d := if_pos (Or.inl rfl)
      rw [commonDims?, hd, ih]
      rfl
  rw [broadcast, hdims, Option.map_some, List.reverse_reverse]

theorem broadcast_scalar (s : Shape) : s.broadcast scalar = some s := by
  show (commonDims? s.dims.reverse []).map _ = _
  rw [commonDims?_nil, Option.map_some, List.reverse_reverse]

theorem scalar_broadcast (s : Shape) : scalar.broadcast s = some s := by
  show (some s.dims.reverse).map _ = _
  rw [Option.map_some, List.reverse_reverse]

/-- A product has a shape in four cases: each operand is a vector or a matrix. -/
theorem matmul_cases {s t u : Shape} (h : s.matmul t = some u) :
    (∃ m k n, s = matrix m k ∧ t = matrix k n ∧ u = matrix m n) ∨
    (∃ m k, s = matrix m k ∧ t = vector k ∧ u = vector m) ∨
    (∃ k n, s = vector k ∧ t = matrix k n ∧ u = vector n) ∨
    ∃ k, s = vector k ∧ t = vector k ∧ u = scalar := by
  obtain ⟨ds⟩ := s
  obtain ⟨dt⟩ := t
  unfold matmul at h
  split at h
  · next m k k' n hs ht =>
    obtain ⟨rfl, hu⟩ := Option.ite_none_right_eq_some.mp h
    exact Or.inl ⟨m, k, n, congrArg mk hs, congrArg mk ht, (Option.some.inj hu).symm⟩
  · next m k k' hs ht =>
    obtain ⟨rfl, hu⟩ := Option.ite_none_right_eq_some.mp h
    exact Or.inr (Or.inl ⟨m, k, congrArg mk hs, congrArg mk ht, (Option.some.inj hu).symm⟩)
  · next k k' n hs ht =>
    obtain ⟨rfl, hu⟩ := Option.ite_none_right_eq_some.mp h
    exact Or.inr (Or.inr (Or.inl ⟨k, n, congrArg mk hs, congrArg mk ht, (Option.some.inj hu).symm⟩))
  · next k k' hs ht =>
    obtain ⟨rfl, hu⟩ := Option.ite_none_right_eq_some.mp h
    exact Or.inr (Or.inr (Or.inr ⟨k, congrArg mk hs, congrArg mk ht, (Option.some.inj hu).symm⟩))
  · cases h

end Shape

/-! ## Ranges -/

namespace Span

/-- The count is rounded up so that it counts just the indices `start`, `start + step`, … that lie
below `stop`. -/
theorem lt_count_iff {t : Span} (hstep : 1 ≤ t.step) {i : Nat} :
    i < t.count ↔ t.start + i * t.step < t.stop := by
  have hmax : max t.step 1 = t.step := by omega
  show i < (t.stop - t.start + (max t.step 1 - 1)) / max t.step 1 ↔ _
  rw [hmax, Nat.lt_iff_add_one_le, Nat.le_div_iff_mul_le hstep, Nat.succ_mul]
  omega

theorem count_pos {t : Span} {dim : Nat} (h : t.Within dim) : 1 ≤ t.count := by
  obtain ⟨hlt, _, hstep⟩ := h
  apply (lt_count_iff hstep).mpr
  omega

theorem picked_pos {dim : Nat} {r : Option Span} (hdim : 1 ≤ dim) (h : ∀ t ∈ r, t.Within dim) :
    1 ≤ picked dim r := by
  cases r with
  | none => exact hdim
  | some t => exact count_pos (h t rfl)

/-- The dim that is declared of a dim with a range: none if a span picks a single index. -/
def keptDim (dim : Nat) : Option Span → List Nat
  | none => [dim]
  | some t => if 1 < t.count then [t.count] else []

/-- What is declared is what is picked, where a dim that is not declared counts as one. -/
theorem keptDim_cases {dim : Nat} {r : Option Span} (h : ∀ t ∈ r, t.Within dim) :
    keptDim dim r = [picked dim r] ∨
      keptDim dim r = [] ∧ picked dim r = 1 ∧ ∃ t ∈ r, t.count = 1 := by
  cases r with
  | none => exact Or.inl rfl
  | some t =>
    have hpos : 1 ≤ t.count := count_pos (h t rfl)
    by_cases hone : 1 < t.count
    · exact Or.inl (if_pos hone)
    · have hcount : t.count = 1 := by omega
      exact Or.inr ⟨if_neg hone, hcount, t, rfl, hcount⟩

end Span

namespace Ranges

theorem keptDims_cons (r : Option Span) (ranges : Ranges) (d : Nat) (dims : List Nat) :
    keptDims (r :: ranges) (d :: dims) = Span.keptDim d r ++ keptDims ranges dims := by
  cases r with
  | none => rfl
  | some t =>
    show (if 1 < t.count then t.count :: keptDims ranges dims else keptDims ranges dims)
      = (if 1 < t.count then [t.count] else []) ++ keptDims ranges dims
    split
    · rfl
    · rfl

theorem accepts_cases {ranges : Ranges} {s : Shape} (h : ranges.Accepts s) :
    (∃ n r, s = .vector n ∧ ranges = [r] ∧ ∀ t ∈ r, t.Within n) ∨
    ∃ m n r c, s = .matrix m n ∧ ranges = [r, c] ∧ (∀ t ∈ r, t.Within m) ∧
      (∀ t ∈ c, t.Within n) ∧ ((∃ t ∈ r, t.count = 1) → Span.picked n c = 1) := by
  obtain ⟨dims⟩ := s
  unfold Accepts at h
  split at h
  · next n r hs => exact Or.inl ⟨n, r, congrArg Shape.mk hs, rfl, h⟩
  · next m n r c hs => exact Or.inr ⟨m, n, r, c, congrArg Shape.mk hs, rfl, h⟩
  · exact h.elim

theorem proper_keptDims {ranges : Ranges} {s : Shape} (h : ranges.Accepts s) (hs : s.Proper) :
    Shape.Proper ⟨keptDims ranges s.dims⟩ := by
  obtain ⟨n, r, rfl, rfl, hr⟩ | ⟨m, n, r, c, rfl, rfl, hr, hc, _⟩ := accepts_cases h
  · have hn : 1 ≤ Span.picked n r := Span.picked_pos hs.rows_pos hr
    show Shape.Proper ⟨keptDims [r] [n]⟩
    rw [keptDims_cons]
    obtain hk | ⟨hk, _⟩ := Span.keptDim_cases hr
    · rw [hk]
      exact Shape.proper_vector hn
    · rw [hk]
      exact Shape.proper_scalar
  · have hm : 1 ≤ Span.picked m r := Span.picked_pos hs.rows_pos hr
    have hn : 1 ≤ Span.picked n c := Span.picked_pos hs.cols_pos hc
    show Shape.Proper ⟨keptDims [r, c] [m, n]⟩
    rw [keptDims_cons, keptDims_cons]
    obtain hk | ⟨hk, _⟩ := Span.keptDim_cases hr
    · obtain hl | ⟨hl, _⟩ := Span.keptDim_cases hc
      · rw [hk, hl]
        exact Shape.proper_matrix hm hn
      · rw [hk, hl]
        exact Shape.proper_vector hm
    · obtain hl | ⟨hl, _⟩ := Span.keptDim_cases hc
      · rw [hk, hl]
        exact Shape.proper_vector hn
      · rw [hk, hl]
        exact Shape.proper_scalar

end Ranges

/-! ## Atoms -/

theorem UnaryAtom.proper_shape {op : UnaryAtom} {s : Shape} (h : op.Accepts s) (hs : s.Proper) :
    (op.shape s).Proper := by
  cases op with
  | neg => exact hs
  | abs => exact hs
  | sum axis =>
    cases axis with
    | none => exact Shape.proper_scalar
    | some axis =>
      show Shape.Proper (if s.ndim ≤ 1 then _ else if axis = 0 then _ else _)
      split
      · exact Shape.proper_scalar
      · split
        · exact Shape.proper_vector hs.cols_pos
        · exact Shape.proper_vector hs.rows_pos
  | reshape target => exact h.1
  | index ranges => exact Ranges.proper_keptDims h hs
  | transpose =>
    obtain rfl | ⟨n, hn, rfl⟩ | ⟨m, n, hm, hn, rfl⟩ := hs.cases
    · exact Shape.proper_scalar
    · exact Shape.proper_matrix (Nat.le_refl 1) hn
    · exact Shape.proper_matrix hn hm
  | trace => exact Shape.proper_scalar
  | diag =>
    show Shape.Proper (if s.isVector then _ else _)
    split
    · exact Shape.proper_matrix s.size_pos s.size_pos
    · exact Shape.proper_vector (Nat.le_min.mpr ⟨hs.rows_pos, hs.cols_pos⟩)
  | norm => exact Shape.proper_scalar
  | sumSquares => exact Shape.proper_scalar

/-- Operands that fit elementwise have the shape of the one that is not a scalar. -/
theorem Shape.broadcast_cases {s t : Shape} (h : s = t ∨ s = scalar ∨ t = scalar) :
    s.broadcast t = some s ∧ (t = s ∨ t = scalar) ∨ s = scalar ∧ s.broadcast t = some t := by
  rcases h with rfl | rfl | rfl
  · exact Or.inl ⟨broadcast_self s, Or.inl rfl⟩
  · exact Or.inr ⟨rfl, scalar_broadcast t⟩
  · exact Or.inl ⟨broadcast_scalar s, Or.inr rfl⟩

theorem Shape.proper_broadcast {s t : Shape} (h : s = t ∨ s = scalar ∨ t = scalar)
    (hs : s.Proper) (ht : t.Proper) : ((s.broadcast t).getD scalar).Proper := by
  obtain ⟨hb, _⟩ | ⟨_, hb⟩ := broadcast_cases h
  · rw [hb]
    exact hs
  · rw [hb]
    exact ht

theorem Shape.proper_matmul {s t : Shape} (h : (s.matmul t).isSome) (hs : s.Proper)
    (ht : t.Proper) : ((s.matmul t).getD scalar).Proper := by
  obtain ⟨u, hu⟩ := Option.isSome_iff_exists.mp h
  rw [hu, Option.getD_some]
  obtain ⟨m, k, n, rfl, rfl, rfl⟩ | ⟨m, k, rfl, rfl, rfl⟩ | ⟨k, n, rfl, rfl, rfl⟩ |
    ⟨k, rfl, rfl, rfl⟩ := matmul_cases hu
  · exact proper_matrix hs.rows_pos ht.cols_pos
  · exact proper_vector hs.rows_pos
  · exact proper_vector ht.cols_pos
  · exact proper_scalar

theorem BinaryAtom.proper_shape {op : BinaryAtom} {s t : Shape} (h : op.Accepts s t)
    (hs : s.Proper) (ht : t.Proper) : (op.shape s t).Proper := by
  cases op with
  | add => exact Shape.proper_broadcast h hs ht
  | mul => exact Shape.proper_broadcast h hs ht
  | matmul => exact Shape.proper_matmul h hs ht
  | quadForm => exact Shape.proper_scalar

theorem Direction.proper_shape {d : Direction} {ss : List Shape} (h : d.Accepts ss)
    (hss : ∀ s ∈ ss, s.Proper) : (d.shape ss).Proper := by
  cases ss with
  | nil => exact absurd rfl h.1
  | cons s ss =>
    have hs : s.Proper := hss s List.mem_cons_self
    cases d with
    | vertical => exact Shape.proper_matrix (Nat.le_add_right_of_le hs.rows_pos) hs.cols_pos
    | horizontal => exact Shape.proper_matrix hs.rows_pos (Nat.le_add_right_of_le hs.cols_pos)

theorem Expr.WellShaped.proper {α : Type} {e : Expr α} (h : e.WellShaped) : e.shape.Proper := by
  induction e using Expr.ind with
  | var v =>
    rw [shape_var]
    exact h
  | const id c =>
    rw [shape_const]
    exact h
  | unary op a ih =>
    obtain ⟨ha, hop⟩ := wellShaped_unary.mp h
    rw [shape_unary]
    exact UnaryAtom.proper_shape hop (ih ha)
  | binary op a b iha ihb =>
    obtain ⟨ha, hb, hop⟩ := wellShaped_binary.mp h
    rw [shape_binary]
    exact BinaryAtom.proper_shape hop (iha ha) (ihb hb)
  | stack d es ih =>
    obtain ⟨hes, hd⟩ := wellShaped_stack.mp h
    rw [shape_stack]
    refine Direction.proper_shape hd ?_
    intro s hs
    obtain ⟨e, he, rfl⟩ := List.mem_map.mp hs
    exact ih e he (hes e he)

end ConvexProgram
