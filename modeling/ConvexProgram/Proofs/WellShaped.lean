import ConvexProgram.Proofs.Arithmetic
import ConvexProgram.Proofs.Assembly
import ConvexProgram.Proofs.Leaf
import ConvexProgram.Proofs.ProperShape

/-!
# Well-shaped expressions evaluate

The declared shape of an expression and its matrix are computed apart, by rules that treat vectors,
scalars and ranges in their own ways.  For a well-shaped expression they agree: each node has a
matrix of the declared sizes as soon as its arguments have (`UnaryAtom.apply_ok`,
`BinaryAtom.apply_ok`, `Direction.apply_ok`), and so has the whole expression
(`wellShaped_evaluates`).
-/

namespace ConvexProgram

/-! ## Sizes -/

section
variable {α : Type}

theorem Shape.Proper.size_of_hasShape {s : Shape} {m : Matrix α} (hs : s.Proper)
    (hm : m.HasShape s) : m.size = s.size := hm.size.trans hs.rows_mul_cols

namespace Matrix

theorem size_of_scalar {m : Matrix α} (hm : m.HasShape .scalar) : m.size = 1 := by
  rw [hm.size]
  rfl

theorem checkCols_ok {cols : Nat} {ms : List (Matrix α)} (h : ∀ m ∈ ms, m.cols = cols) :
    checkCols cols ms = .ok () := by
  induction ms with
  | nil => rfl
  | cons m ms ih =>
    obtain ⟨hm, hms⟩ := List.forall_mem_cons.mp h
    exact (if_pos hm).trans (ih hms)

theorem checkRows_ok {rows : Nat} {ms : List (Matrix α)} (h : ∀ m ∈ ms, m.rows = rows) :
    checkRows rows ms = .ok () := by
  induction ms with
  | nil => rfl
  | cons m ms ih =>
    obtain ⟨hm, hms⟩ := List.forall_mem_cons.mp h
    exact (if_pos hm).trans (ih hms)

theorem totalRows_eq {ms : List (Matrix α)} {ss : List Shape}
    (h : List.Forall₂ (fun m s => m.HasShape s) ms ss) :
    totalRows ms = ss.foldr (fun s n => s.rows + n) 0 := by
  induction h with
  | nil => rfl
  | cons hm _ ih => exact congrArg₂ (· + ·) hm.rows ih

theorem totalCols_eq {ms : List (Matrix α)} {ss : List Shape}
    (h : List.Forall₂ (fun m s => m.HasShape s) ms ss) :
    totalCols ms = ss.foldr (fun s n => s.cols + n) 0 := by
  induction h with
  | nil => rfl
  | cons hm _ ih => exact congrArg₂ (· + ·) hm.cols ih

/-- What holds of every shape holds of the matrix that has it. -/
theorem forall_of_hasShape {P : Matrix α → Prop} {ms : List (Matrix α)} {ss : List Shape}
    (h : List.Forall₂ (fun m s => m.HasShape s) ms ss)
    (hP : ∀ s ∈ ss, ∀ m : Matrix α, m.HasShape s → P m) : ∀ m ∈ ms, P m := by
  induction h with
  | nil => exact fun m hm => absurd hm List.not_mem_nil
  | cons hm _ ih =>
    obtain ⟨hs, hss⟩ := List.forall_mem_cons.mp hP
    exact List.forall_mem_cons.mpr ⟨hs _ hm, ih hss⟩

end Matrix

end

variable {α : Type} [Scalar α]

/-! ## Ranges -/

namespace Span

theorem exists_select {dim : Nat} {r : Option Span} (h : ∀ t ∈ r, t.Within dim) :
    ∃ sel, select dim r = .ok sel ∧ sel.count = picked dim r := by
  cases r with
  | none => exact ⟨_, rfl, rfl⟩
  | some t =>
    obtain ⟨hlt, hle, hstep⟩ := h t rfl
    have hfits : t.Fits dim := ⟨by omega, hle, by omega⟩
    exact ⟨t.selection, if_pos hfits, rfl⟩

theorem select_some_eq_ok_iff {dim : Nat} {t : Span} {sel : Selection} :
    select dim (some t) = .ok sel ↔ t.Fits dim ∧ t.selection = sel := by
  show (if t.Fits dim then .ok t.selection else .error (.indexRange t.start t.stop dim))
    = (.ok sel : Except Fault Selection) ↔ _
  by_cases h : t.Fits dim
  · rw [if_pos h, and_iff_right h, Except.ok.injEq]
  · rw [if_neg h]
    exact ⟨nofun, fun hsel => absurd hsel.1 h⟩

/-- Whatever a range selects lies within the dim, so an index reads no entry outside. -/
theorem nth_lt_of_select {dim : Nat} {r : Option Span} {sel : Selection}
    (h : select dim r = .ok sel) {i : Nat} (hi : i < sel.count) : sel.nth i < dim := by
  cases r with
  | none =>
    obtain rfl : Selection.whole dim = sel := Except.ok.inj h
    rw [Selection.nth_whole]
    exact hi
  | some t =>
    obtain ⟨⟨_, hstop, hstep⟩, rfl⟩ := select_some_eq_ok_iff.mp h
    have hlt : t.start + i * t.step < t.stop :=
      (lt_count_iff (Nat.one_le_iff_ne_zero.mpr hstep)).mp hi
    exact Nat.lt_of_lt_of_le hlt hstop

end Span

/-- Two picked dims make a matrix of the declared shape. -/
theorem Ranges.select_ok {ranges : Ranges} {s : Shape} {m : Matrix α} (h : ranges.Accepts s)
    (hm : m.HasShape s) :
    ∃ n, ranges.select m = .ok n ∧ n.HasShape ⟨ranges.keptDims s.dims⟩ := by
  obtain ⟨n, r, rfl, rfl, hr⟩ | ⟨k, n, r, c, rfl, rfl, hr, hc, hone⟩ := Ranges.accepts_cases h
  · have hrows : m.rows = n := hm.rows
    have hcols : m.cols = 1 := hm.cols
    obtain ⟨sel, hsel, hcount⟩ := Span.exists_select hr
    refine ⟨m.select sel (.whole m.cols), ?_, ?_⟩
    · show (Span.select m.rows r).bind _ = _
      rw [hrows, hsel]
      rfl
    · show Matrix.HasShape ⟨Ranges.keptDims [r] [n]⟩ _
      rw [Ranges.keptDims_cons]
      obtain hk | ⟨hk, hp, _⟩ := Span.keptDim_cases hr
      · rw [hk]
        exact ⟨hcount, hcols⟩
      · rw [hk]
        exact ⟨hcount.trans hp, hcols⟩
  · have hrows : m.rows = k := hm.rows
    have hcols : m.cols = n := hm.cols
    obtain ⟨sel, hsel, hcount⟩ := Span.exists_select hr
    obtain ⟨sel', hsel', hcount'⟩ := Span.exists_select hc
    refine ⟨m.select sel sel', ?_, ?_⟩
    · show (Span.select m.rows r).bind (fun rows => (Span.select m.cols c).bind _) = _
      rw [hrows, hcols, hsel, hsel']
      rfl
    · show Matrix.HasShape ⟨Ranges.keptDims [r, c] [k, n]⟩ _
      rw [Ranges.keptDims_cons, Ranges.keptDims_cons]
      obtain hk | ⟨hk, hp, hspan⟩ := Span.keptDim_cases hr
      · obtain hl | ⟨hl, hq, _⟩ := Span.keptDim_cases hc
        · rw [hk, hl]
          exact ⟨hcount, hcount'⟩
        · rw [hk, hl]
          exact ⟨hcount, hcount'.trans hq⟩
      · -- the rows are not declared, so the columns are declared as rows; there is but one
        have hq : Span.picked n c = 1 := hone hspan
        obtain hl | ⟨hl, _⟩ := Span.keptDim_cases hc
        · rw [hk, hl, hq]
          exact ⟨hcount.trans hp, hcount'.trans hq⟩
        · rw [hk, hl]
          exact ⟨hcount.trans hp, hcount'.trans hq⟩

/-! ## Unary atoms -/

theorem Shape.Proper.hasShape_transpose {s : Shape} {m : Matrix α} (hs : s.Proper)
    (hm : m.HasShape s) : m.transpose.HasShape s.transpose := by
  obtain rfl | ⟨n, _, rfl⟩ | ⟨k, n, _, _, rfl⟩ := hs.cases
  · exact ⟨hm.cols, hm.rows⟩
  · exact ⟨hm.cols, hm.rows⟩
  · exact ⟨hm.cols, hm.rows⟩

/-- A unary atom has a matrix of the declared sizes if its argument has. -/
theorem UnaryAtom.apply_ok {op : UnaryAtom} {s : Shape} {m : Matrix α} (h : op.Accepts s)
    (hs : s.Proper) (hm : m.HasShape s) :
    ∃ n, op.apply s m = .ok n ∧ n.HasShape (op.shape s) := by
  cases op with
  | neg => exact ⟨_, rfl, hm.rows, hm.cols⟩
  | abs => exact ⟨_, rfl, hm.rows, hm.cols⟩
  | sum axis =>
    cases axis with
    | none => exact ⟨_, rfl, rfl, rfl⟩
    | some axis =>
      refine ⟨_, rfl, ?_⟩
      show Matrix.HasShape (if s.ndim ≤ 1 then _ else if axis = 0 then _ else _)
        (if s.ndim ≤ 1 then _ else if axis = 0 then _ else _)
      split
      · exact ⟨rfl, rfl⟩
      · split
        · exact ⟨hm.cols, rfl⟩
        · exact ⟨hm.rows, rfl⟩
  | reshape target =>
    obtain ⟨htarget, hsize⟩ := h
    have hcount : m.size = target.size := (hs.size_of_hasShape hm).trans hsize.symm
    have hfit : m.size = target.rows * target.cols := hcount.trans htarget.rows_mul_cols.symm
    obtain ⟨n, hn, hshape, _⟩ := Matrix.exists_withShape hfit
    exact ⟨n, (if_pos hcount).trans hn, hshape⟩
  | index ranges => exact Ranges.select_ok h hm
  | transpose => exact ⟨_, rfl, hs.hasShape_transpose hm⟩
  | trace =>
    have hsquare : m.rows = m.cols := hm.rows.trans (h.trans hm.cols.symm)
    refine ⟨.single m.trace, ?_, rfl, rfl⟩
    show (if m.rows = m.cols then .ok m else _ : Except Fault (Matrix α)).map _ = _
    rw [if_pos hsquare]
    rfl
  | diag =>
    obtain rfl | ⟨n, hn, rfl⟩ | ⟨k, n, _, _, rfl⟩ := hs.cases
    · exact ⟨m.diagonal, rfl, congrArg₂ min hm.rows hm.cols, rfl⟩
    · have hcols : m.cols = 1 := hm.cols
      have hne : m.cols ≠ 0 := by omega
      have hrows : m.rows = (Shape.vector n).size := hm.rows.trans (Shape.size_vector hn).symm
      exact ⟨m.ofDiagonal, if_neg hne, hrows, hrows⟩
    · exact ⟨m.diagonal, rfl, congrArg₂ min hm.rows hm.cols, rfl⟩
  | norm => exact ⟨_, rfl, rfl, rfl⟩
  | sumSquares => exact ⟨_, rfl, rfl, rfl⟩

/-! ## Binary atoms -/

namespace Matrix

/-- Operands of one shape, or of which one is a number, combine entry by entry. -/
theorem elementwise_ok {f : α → α → α} {s t : Shape} {a b : Matrix α}
    (h : s = t ∨ s = .scalar ∨ t = .scalar) (ha : a.HasShape s) (hb : b.HasShape t) :
    ∃ m, a.elementwise f b = .ok m ∧ m.HasShape ((s.broadcast t).getD .scalar) := by
  unfold elementwise
  obtain ⟨hu, hst⟩ | ⟨rfl, hu⟩ := Shape.broadcast_cases h
  · rw [hu, Option.getD_some]
    by_cases heq : a.rows = b.rows ∧ a.cols = b.cols
    · exact ⟨_, if_pos heq, ha.rows, ha.cols⟩
    · have hone : b.size = 1 := by
        rcases hst with rfl | rfl
        · exact absurd ⟨ha.rows.trans hb.rows.symm, ha.cols.trans hb.cols.symm⟩ heq
        · exact size_of_scalar hb
      rw [if_neg heq]
      exact ⟨_, if_pos hone, ha.rows, ha.cols⟩
  · -- the left operand is a number; the right one may be stored as one as well
    rw [hu, Option.getD_some]
    have hrows : a.rows = 1 := ha.rows
    have hcols : a.cols = 1 := ha.cols
    by_cases heq : a.rows = b.rows ∧ a.cols = b.cols
    · exact ⟨_, if_pos heq, heq.1.trans hb.rows, heq.2.trans hb.cols⟩
    · have hne : b.size ≠ 1 := by
        intro hone
        have hbr : b.rows = 1 := Nat.eq_one_of_mul_eq_one_right hone
        have hbc : b.cols = 1 := Nat.eq_one_of_mul_eq_one_left hone
        exact heq ⟨hrows.trans hbr.symm, hcols.trans hbc.symm⟩
      rw [if_neg heq, if_neg hne, if_pos (size_of_scalar ha)]
      exact ⟨_, rfl, hb.rows, hb.cols⟩

theorem product_ok {s t u : Shape} {a b : Matrix α} (h : s.matmul t = some u) (ha : a.HasShape s)
    (hb : b.HasShape t) : ∃ m, product s t a b = .ok m ∧ m.HasShape u := by
  obtain ⟨m, k, n, rfl, rfl, rfl⟩ | ⟨m, k, rfl, rfl, rfl⟩ | ⟨k, n, rfl, rfl, rfl⟩ |
    ⟨k, rfl, rfl, rfl⟩ := Shape.matmul_cases h
  · have hk : a.cols = b.rows := ha.cols.trans hb.rows.symm
    exact ⟨a.mul b, if_pos hk, ha.rows, hb.cols⟩
  · have hk : a.cols = b.rows := ha.cols.trans hb.rows.symm
    exact ⟨a.mul b, if_pos hk, ha.rows, hb.cols⟩
  · -- a vector on the left is a row, and the product becomes a column again
    have hk : a.transpose.cols = b.rows := ha.rows.trans hb.rows.symm
    exact ⟨(a.transpose.mul b).transpose, if_pos hk, hb.cols, ha.cols⟩
  · have hk : a.transpose.cols = b.rows := ha.rows.trans hb.rows.symm
    exact ⟨a.transpose.mul b, if_pos hk, ha.cols, hb.cols⟩

theorem quadForm_ok {x p : Matrix α} (hr : p.rows = x.size) (hc : p.cols = x.size) :
    ∃ m, x.quadForm p = .ok m ∧ m.HasShape .scalar := ⟨_, if_pos ⟨hr, hc⟩, rfl, rfl⟩

end Matrix

/-- A binary atom has a matrix of the declared sizes if its arguments have. -/
theorem BinaryAtom.apply_ok {op : BinaryAtom} {s t : Shape} {a b : Matrix α} (h : op.Accepts s t)
    (hs : s.Proper) (ha : a.HasShape s) (hb : b.HasShape t) :
    ∃ m, op.apply s t a b = .ok m ∧ m.HasShape (op.shape s t) := by
  cases op with
  | add => exact Matrix.elementwise_ok h ha hb
  | mul => exact Matrix.elementwise_ok h ha hb
  | matmul =>
    obtain ⟨u, hu⟩ := Option.isSome_iff_exists.mp h
    obtain ⟨m, hm, hshape⟩ := Matrix.product_ok hu ha hb
    refine ⟨m, hm, ?_⟩
    show m.HasShape ((s.matmul t).getD .scalar)
    rw [hu]
    exact hshape
  | quadForm =>
    have hsize : a.size = s.size := hs.size_of_hasShape ha
    exact Matrix.quadForm_ok (hb.rows.trans (h.1.trans hsize.symm))
      (hb.cols.trans (h.2.trans hsize.symm))

/-! ## Stacks -/

/-- Parts that are all as wide or as high as the first are stacked to the declared sizes. -/
theorem Direction.apply_ok {d : Direction} {ms : List (Matrix α)} {ss : List Shape}
    (h : d.Accepts ss) (hms : List.Forall₂ (fun m s => m.HasShape s) ms ss) :
    ∃ m, d.apply ms = .ok m ∧ m.HasShape (d.shape ss) := by
  cases hms with
  | nil => exact absurd rfl h.1
  | @cons m s ms ss hm hrest =>
    cases d with
    | vertical =>
      have hcols : ∀ t ∈ ss, ∀ n : Matrix α, n.HasShape t → n.cols = m.cols := by
        intro t ht n hn
        have hst : s.cols = t.cols := h.2 s List.mem_cons_self t (List.mem_cons_of_mem _ ht)
        rw [hn.cols, hm.cols, hst]
      have hcheck := Matrix.checkCols_ok (Matrix.forall_of_hasShape hrest hcols)
      refine ⟨.vstack m.cols (m :: ms), ?_, Matrix.totalRows_eq (.cons hm hrest), hm.cols⟩
      show (Matrix.checkCols m.cols ms).map _ = _
      rw [hcheck]
      rfl
    | horizontal =>
      have hrows : ∀ t ∈ ss, ∀ n : Matrix α, n.HasShape t → n.rows = m.rows := by
        intro t ht n hn
        have hst : s.rows = t.rows := h.2 s List.mem_cons_self t (List.mem_cons_of_mem _ ht)
        rw [hn.rows, hm.rows, hst]
      have hcheck := Matrix.checkRows_ok (Matrix.forall_of_hasShape hrest hrows)
      refine ⟨.hstack m.rows (m :: ms), ?_, hm.rows, Matrix.totalCols_eq (.cons hm hrest)⟩
      show (Matrix.checkRows m.rows ms).map _ = _
      rw [hcheck]
      rfl

/-! ## Expressions -/

theorem Value.hasShape_toMatrix (c : Value α) : c.toMatrix.HasShape c.shape := by
  cases c with
  | scalar x => exact ⟨rfl, rfl⟩
  | dense m => exact ⟨rfl, rfl⟩
  | sparse s => exact ⟨s.rows_toMatrix, s.cols_toMatrix⟩

/-- The variable has a value with as many entries as its shape. -/
def Variable.IsFilled (σ : Assignment α) (v : Variable) : Prop :=
  ∃ c, σ v.id = some c ∧ c.size = v.shape.size

namespace Expr

variable {σ : Assignment α}

theorem exists_matrices {es : List (Expr α)}
    (h : ∀ e ∈ es, ∃ m, e.matrix σ = .ok m ∧ m.HasShape e.shape) :
    ∃ ms, matrices σ es = .ok ms ∧
      List.Forall₂ (fun m s => m.HasShape s) ms (es.map shape) := by
  induction es with
  | nil => exact ⟨[], rfl, .nil⟩
  | cons e es ih =>
    obtain ⟨⟨m, hm, hshape⟩, hes⟩ := List.forall_mem_cons.mp h
    obtain ⟨ms, hms, hshapes⟩ := ih hes
    refine ⟨m :: ms, ?_, .cons hshape hshapes⟩
    rw [matrices_cons, hm, hms]
    rfl

/-- The matrix of a well-shaped expression has the declared sizes. -/
theorem WellShaped.exists_matrix {e : Expr α} (h : e.WellShaped)
    (hσ : ∀ v ∈ e.leaves, v.IsFilled σ) : ∃ m, e.matrix σ = .ok m ∧ m.HasShape e.shape := by
  induction e using Expr.ind with
  | var v =>
    obtain ⟨c, hc, hsize⟩ := hσ v List.mem_cons_self
    have hproper : v.shape.Proper := h
    obtain ⟨m, hm, hshape, _⟩ := Variable.exists_matrix hc (c.size_toMatrix.trans hsize)
      hproper.rows_mul_cols.symm
    rw [shape_var]
    exact ⟨m, hm, hshape⟩
  | const id c =>
    rw [shape_const]
    exact ⟨c.toMatrix, rfl, c.hasShape_toMatrix⟩
  | unary op a ih =>
    obtain ⟨ha, hop⟩ := wellShaped_unary.mp h
    obtain ⟨m, hm, hshape⟩ := ih ha hσ
    rw [matrix_unary, shape_unary, hm]
    exact UnaryAtom.apply_ok hop ha.proper hshape
  | binary op a b iha ihb =>
    obtain ⟨ha, hb, hop⟩ := wellShaped_binary.mp h
    rw [leaves_binary, List.forall_mem_append] at hσ
    obtain ⟨m, hm, hms⟩ := iha ha hσ.1
    obtain ⟨n, hn, hns⟩ := ihb hb hσ.2
    rw [matrix_binary, shape_binary, hm, hn]
    exact BinaryAtom.apply_ok hop ha.proper hms hns
  | stack d es ih =>
    obtain ⟨hes, hd⟩ := wellShaped_stack.mp h
    rw [leaves_stack] at hσ
    obtain ⟨ms, hms, hshapes⟩ := exists_matrices fun e he =>
      ih e he (hes e he) fun v hv => hσ v (List.mem_flatMap.mpr ⟨e, he, hv⟩)
    rw [matrix_stack, shape_stack, hms]
    exact Direction.apply_ok hd hshapes

end Expr

/-- **A well-shaped expression evaluates**, under any values that fill its variables: to a number if
it is declared a scalar, and otherwise to a dense matrix of the declared sizes. -/
theorem wellShaped_evaluates {α : Type} [Scalar α] {e : Expr α} {σ : Assignment α}
    (he : e.WellShaped) (hσ : ∀ v ∈ e.leaves, v.IsFilled σ) :
    ∃ c, e.value σ = .ok c ∧ (e.shape = .scalar → ∃ x, c = .scalar x) ∧
      (e.shape ≠ .scalar → ∃ m, c = .dense m ∧ m.rows = e.shape.rows ∧ m.cols = e.shape.cols) := by
  obtain ⟨m, hm, hshape⟩ := he.exists_matrix hσ
  unfold Expr.value
  rw [hm]
  by_cases hs : e.shape = .scalar
  · rw [hs] at hshape ⊢
    have hone : Shape.scalar.isScalar ∧ m.size = 1 := ⟨rfl, Matrix.size_of_scalar hshape⟩
    exact ⟨_, congrArg Except.ok (if_pos hone), fun _ => ⟨_, rfl⟩, fun hne => absurd rfl hne⟩
  · have hnot : ¬(e.shape.isScalar ∧ m.size = 1) := by
      intro hscalar
      have hdims : e.shape.dims = [] := List.isEmpty_iff.mp hscalar.1
      exact hs (congrArg Shape.mk hdims)
    refine ⟨_, congrArg Except.ok (if_neg hnot), fun h => absurd h hs, fun _ => ?_⟩
    exact ⟨m, rfl, hshape.rows, hshape.cols⟩

/-! ## An expression of many atoms -/

/-- The diagonal matrix of `x' A` times `s`, above the first and the last row of `B`. -/
def Expr.blocks : Expr ℚ :=
  .vstack
    [((Expr.var ⟨0, .vector 3, none, {}⟩).matmul
        (.const 3 (.dense ⟨3, 2, #[1, 2, 3, 4, 5, 6], rfl⟩))).diag.mul (.var ⟨2, .scalar, none, {}⟩),
     (Expr.var ⟨1, .matrix 3 2, none, {}⟩).index [some ⟨0, 3, 2⟩, none]]

/-- The entries of `B` are given as one row, and the number `s` as a matrix. -/
def Assignment.blocks : Assignment ℚ
  | 0 => some (.ofColumn #[1, 0, 1])
  | 1 => some (.dense ⟨1, 6, #[1, 2, 3, 4, 5, 6], rfl⟩)
  | 2 => some (.dense ⟨1, 1, #[7], rfl⟩)
  | _ => none

theorem Assignment.blocks_filled : ∀ v ∈ Expr.blocks.leaves, v.IsFilled Assignment.blocks := by
  have hl : Expr.blocks.leaves = [⟨0, .vector 3, none, {}⟩, ⟨2, .scalar, none, {}⟩,
      ⟨1, .matrix 3 2, none, {}⟩] := rfl
  rw [hl]
  simp only [List.forall_mem_cons]
  exact ⟨⟨_, rfl, rfl⟩, ⟨_, rfl, rfl⟩, ⟨_, rfl, rfl⟩, nofun⟩

theorem wellShaped_evaluates_blocks :
    Expr.blocks.WellShaped ∧ (∀ v ∈ Expr.blocks.leaves, v.IsFilled Assignment.blocks) ∧
    ∃ m, Expr.blocks.value Assignment.blocks = .ok (.dense m) ∧ m.rows = 4 ∧ m.cols = 2 := by
  have hshape : Expr.blocks.shape = .matrix 4 2 := rfl
  have he : Expr.blocks.WellShaped := by decide
  obtain ⟨c, hc, _, hdense⟩ := wellShaped_evaluates he Assignment.blocks_filled
  obtain ⟨m, rfl, hrows, hcols⟩ := hdense (by rw [hshape]; decide)
  refine ⟨he, Assignment.blocks_filled, m, hc, ?_, ?_⟩
  · rw [hrows, hshape]
    rfl
  · rw [hcols, hshape]
    rfl

end ConvexProgram
