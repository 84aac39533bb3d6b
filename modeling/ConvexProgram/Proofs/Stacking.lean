import ConvexProgram.Proofs.WellShaped

/-!
# Stacks and their parts

A stack is checked, sized and filled by rules that are written once for each direction.  Downwards,
part `k` starts after the rows of the parts before it, so the rows from there on are the part
(`Matrix.entryDown_part`, `Matrix.select_vstack`).  Across, a stack is the transpose of the
transposed parts stacked downwards (`Matrix.hstack_eq`, `Direction.outcome_horizontal`), and what
holds downwards is carried over.

* `Direction.length`, `Direction.part`   the length of a matrix in a direction, and the ranges that
                                         pick a part again;
* `Direction.select_part`                a part is picked again from the stack;
* `stack_keeps_parts`                    the same of expressions, and the two directions are dual.
-/

namespace ConvexProgram

open Fault

/-- How long a matrix is in a direction: its rows downwards and its columns across. -/
def Direction.length {α : Type} (d : Direction) (m : Matrix α) : Nat :=
  match d with
  | .vertical => m.rows
  | .horizontal => m.cols

/-- The ranges that pick `n` indices from `start` on in a direction, and all of the other dim. -/
def Direction.part (d : Direction) (start n : Nat) : Ranges :=
  match d with
  | .vertical => [some (.range start (start + n)), none]
  | .horizontal => [none, some (.range start (start + n))]

namespace Matrix

/-! ## Parts below each other -/

section
variable {α : Type}

theorem totalRows_eq_sum (ms : List (Matrix α)) : totalRows ms = (ms.map rows).sum := by
  induction ms with
  | nil => rfl
  | cons m ms ih =>
    show m.rows + totalRows ms = _
    rw [List.map_cons, List.sum_cons, ih]

/-- A part ends within the stack, also if it is empty. -/
theorem start_add_rows_le {ms : List (Matrix α)} {k : Nat} {m : Matrix α} (h : ms[k]? = some m) :
    ((ms.take k).map rows).sum + m.rows ≤ (ms.map rows).sum := by
  induction ms generalizing k with
  | nil => cases h
  | cons m' ms ih =>
    rw [List.map_cons, List.sum_cons]
    cases k with
    | zero =>
      obtain rfl : m' = m := Option.some.inj h
      rw [List.take_zero, List.map_nil, List.sum_nil]
      omega
    | succ k =>
      have hle := ih (k := k) h
      rw [List.take_succ_cons, List.map_cons, List.sum_cons]
      omega

end

variable {α : Type} [Scalar α]

/-- The rows after those of the parts before it are the rows of a part. -/
theorem entryDown_part {ms : List (Matrix α)} {k : Nat} {m : Matrix α} (h : ms[k]? = some m)
    {i : Nat} (hi : i < m.rows) (j : Nat) :
    entryDown ms (((ms.take k).map rows).sum + i) j = m.entry i j := by
  induction ms generalizing k with
  | nil => cases h
  | cons m' ms ih =>
    cases k with
    | zero =>
      obtain rfl : m' = m := Option.some.inj h
      rw [List.take_zero, List.map_nil, List.sum_nil, Nat.zero_add]
      exact if_pos hi
    | succ k =>
      rw [List.take_succ_cons, List.map_cons, List.sum_cons, Nat.add_assoc]
      have hnot : ¬m'.rows + (((ms.take k).map rows).sum + i) < m'.rows := by omega
      rw [entryDown, if_neg hnot, Nat.add_sub_cancel_left]
      exact ih h

theorem select_vstack {cols : Nat} {ms : List (Matrix α)} {k : Nat} {m : Matrix α}
    (h : ms[k]? = some m) (hm : m.cols = cols) :
    (vstack cols ms).select ⟨((ms.take k).map rows).sum, m.rows, 1⟩ (.whole cols) = m := by
  refine ext_entry rfl hm.symm fun i j (hi : i < m.rows) (hj : j < cols) => ?_
  have hend := start_add_rows_le h
  have hrow : ((ms.take k).map rows).sum + i < totalRows ms := by
    rw [totalRows_eq_sum]
    omega
  rw [entry_select (r := ⟨((ms.take k).map rows).sum, m.rows, 1⟩) hi hj, Selection.nth_whole]
  show (vstack cols ms).entry (_ + i * 1) j = _
  rw [Nat.mul_one, vstack, entry_ofFn _ hrow hj, entryDown_part h hi]

omit [Scalar α] in
theorem cols_of_checkCols {cols : Nat} {ms : List (Matrix α)} (h : checkCols cols ms = .ok ()) :
    ∀ m ∈ ms, m.cols = cols := by
  induction ms with
  | nil => nofun
  | cons m ms ih =>
    rw [checkCols] at h
    split at h
    · next hm => exact List.forall_mem_cons.mpr ⟨hm, ih h⟩
    · cases h

/-! ## Transposed parts -/

theorem transpose_single (x : α) : (single x).transpose = single x :=
  ofFn_congr fun _ _ hi hj => entry_filled x hj hi

/-- The columns of the transpose are the rows. -/
theorem select_transpose {m : Matrix α} {s : Selection} (h : ∀ i, i < s.count → s.nth i < m.rows) :
    m.transpose.select (.whole m.cols) s = (m.select s (.whole m.cols)).transpose := by
  refine ext_entry rfl rfl fun i j (hi : i < m.cols) (hj : j < s.count) => ?_
  rw [entry_transpose (m := m.select s _) hi hj, entry_select hj (c := .whole m.cols) hi,
    entry_select (r := .whole m.cols) hi hj, Selection.nth_whole, entry_transpose hi (h j hj)]

theorem totalCols_eq_totalRows (ms : List (Matrix α)) :
    totalCols ms = totalRows (ms.map transpose) := by
  induction ms with
  | nil => rfl
  | cons m ms ih => exact congrArg (m.cols + ·) ih

theorem map_rows_transpose (ms : List (Matrix α)) :
    (ms.map transpose).map rows = ms.map cols := by
  rw [List.map_map]
  rfl

theorem entryAcross_eq {rows : Nat} {ms : List (Matrix α)} (h : ∀ m ∈ ms, m.rows = rows)
    {i j : Nat} (hi : i < rows) :
    entryAcross ms i j = entryDown (ms.map transpose) j i := by
  induction ms generalizing j with
  | nil => rfl
  | cons m ms ih =>
    obtain ⟨hm, hms⟩ := List.forall_mem_cons.mp h
    rw [List.map_cons, entryAcross, entryDown, rows_transpose]
    by_cases hj : j < m.cols
    · rw [if_pos hj, if_pos hj, entry_transpose hj (hm.symm ▸ hi)]
    · rw [if_neg hj, if_neg hj, ih hms]

/-- Parts side by side are the transpose of the transposed parts one below the other. -/
theorem hstack_eq {rows : Nat} {ms : List (Matrix α)} (h : ∀ m ∈ ms, m.rows = rows) :
    hstack rows ms = (vstack rows (ms.map transpose)).transpose := by
  have hlen := totalCols_eq_totalRows ms
  refine ext_entry rfl hlen fun i j (hi : i < rows) (hj : j < totalCols ms) => ?_
  have hj' : j < totalRows (ms.map transpose) := hlen ▸ hj
  rw [hstack, entry_ofFn _ hi hj, entry_transpose (m := vstack rows _) hi hj', vstack,
    entry_ofFn _ hj' hi, entryAcross_eq h hi]

theorem outcome_checkRows (rows : Nat) (ms : List (Matrix α)) :
    outcome (checkRows rows ms) = outcome (checkCols rows (ms.map transpose)) := by
  induction ms with
  | nil => rfl
  | cons m ms ih =>
    rw [List.map_cons, checkRows, checkCols, cols_transpose]
    split
    · exact ih
    · rfl

theorem rows_of_checkRows {rows : Nat} {ms : List (Matrix α)} (h : checkRows rows ms = .ok ()) :
    ∀ m ∈ ms, m.rows = rows := by
  have hcols := cols_of_checkCols (eq_ok_of_outcome (outcome_checkRows rows ms).symm h)
  exact List.forall_mem_map.mp hcols

end Matrix

/-! ## A part of a stack -/

variable {α : Type} [Scalar α]

theorem Span.select_range {dim start n : Nat} (h : start + n ≤ dim) :
    select dim (some (.range start (start + n))) = .ok ⟨start, n, 1⟩ := by
  have hcount : (range start (start + n)).count = n := by
    show (start + n - start + 0) / 1 = n
    omega
  refine select_some_eq_ok_iff.mpr ⟨⟨Nat.le_add_right start n, h, Nat.one_ne_zero⟩, ?_⟩
  rw [selection, hcount]
  rfl

namespace Ranges

theorem select_rows (m : Matrix α) (r : Option Span) :
    select [r, none] m = (Span.select m.rows r).bind fun s => .ok (m.select s (.whole m.cols)) :=
  rfl

theorem select_cols (m : Matrix α) (r : Option Span) :
    select [none, r] m = (Span.select m.cols r).bind fun s => .ok (m.select (.whole m.rows) s) :=
  rfl

/-- A range of columns picks from the transpose what the range of rows picks from the matrix. -/
theorem select_transpose (m : Matrix α) (r : Option Span) :
    select [none, r] m.transpose = (select [r, none] m).map Matrix.transpose := by
  rw [select_rows, select_cols, Matrix.cols_transpose]
  cases hs : Span.select m.rows r with
  | error f => rfl
  | ok s => exact congrArg Except.ok (Matrix.select_transpose fun i hi => Span.nth_lt_of_select hs hi)

end Ranges

namespace Direction

theorem exists_cols_of_apply {ms : List (Matrix α)} {z : Matrix α} (hne : ms ≠ [])
    (h : vertical.apply ms = .ok z) : ∃ cols, z = .vstack cols ms ∧ ∀ m ∈ ms, m.cols = cols := by
  cases ms with
  | nil => exact absurd rfl hne
  | cons m ms =>
    obtain ⟨_, hcheck, hz⟩ := map_eq_ok_iff.mp h
    exact ⟨m.cols, hz.symm, List.forall_mem_cons.mpr ⟨rfl, Matrix.cols_of_checkCols hcheck⟩⟩

/-- The two directions are dual. -/
theorem outcome_horizontal (ms : List (Matrix α)) :
    outcome (horizontal.apply ms) =
      outcome ((vertical.apply (ms.map Matrix.transpose)).map Matrix.transpose) := by
  cases ms with
  | nil => exact congrArg Except.ok (Matrix.transpose_single 0).symm
  | cons m ms =>
    show outcome ((Matrix.checkRows m.rows ms).map _) =
      outcome (((Matrix.checkCols m.rows (ms.map Matrix.transpose)).map _).map _)
    have hcheck := Matrix.outcome_checkRows m.rows ms
    cases hrows : Matrix.checkRows m.rows ms with
    | error f =>
      rw [hrows] at hcheck
      rw [outcome_map_eq_error_iff.mpr rfl]
      refine (outcome_map_eq_error_iff.mpr (outcome_map_eq_error_iff.mpr ?_)).symm
      exact hcheck.symm
    | ok _ =>
      have hsame : ∀ n ∈ m :: ms, n.rows = m.rows :=
        List.forall_mem_cons.mpr ⟨rfl, Matrix.rows_of_checkRows hrows⟩
      rw [eq_ok_of_outcome hcheck.symm hrows]
      exact congrArg Except.ok (Matrix.hstack_eq hsame)

/-- A stack across is the transpose of a stack downwards. -/
theorem exists_vertical_of_apply {ms : List (Matrix α)} {z : Matrix α}
    (h : horizontal.apply ms = .ok z) :
    ∃ w, vertical.apply (ms.map Matrix.transpose) = .ok w ∧ w.transpose = z :=
  map_eq_ok_iff.mp (eq_ok_of_outcome (outcome_horizontal ms).symm h)

theorem length_apply {d : Direction} {ms : List (Matrix α)} {z : Matrix α} (hne : ms ≠ [])
    (h : d.apply ms = .ok z) : d.length z = (ms.map d.length).sum := by
  have hdown : ∀ {ns : List (Matrix α)} {w : Matrix α}, ns ≠ [] → vertical.apply ns = .ok w →
      w.rows = (ns.map Matrix.rows).sum := by
    intro ns w hns hw
    obtain ⟨cols, rfl, _⟩ := exists_cols_of_apply hns hw
    exact Matrix.totalRows_eq_sum ns
  cases d with
  | vertical => exact hdown hne h
  | horizontal =>
    obtain ⟨w, hw, rfl⟩ := exists_vertical_of_apply h
    show w.rows = (ms.map Matrix.cols).sum
    rw [hdown (mt List.map_eq_nil_iff.mp hne) hw, Matrix.map_rows_transpose]

theorem select_vertical {ms : List (Matrix α)} {z : Matrix α} (h : vertical.apply ms = .ok z)
    {k : Nat} {m : Matrix α} (hk : ms[k]? = some m) :
    (vertical.part ((ms.take k).map Matrix.rows).sum m.rows).select z = .ok m := by
  have hmem : m ∈ ms := List.mem_of_getElem? hk
  obtain ⟨cols, rfl, hcols⟩ := exists_cols_of_apply (List.ne_nil_of_mem hmem) h
  have hfits : ((ms.take k).map Matrix.rows).sum + m.rows ≤ Matrix.totalRows ms := by
    rw [Matrix.totalRows_eq_sum]
    exact Matrix.start_add_rows_le hk
  refine (Ranges.select_rows _ _).trans ?_
  rw [show Span.select (Matrix.vstack cols ms).rows _ = _ from Span.select_range hfits]
  exact congrArg Except.ok (Matrix.select_vstack hk (hcols m hmem))

/-- The indices from where a part starts are the part. -/
theorem select_part {d : Direction} {ms : List (Matrix α)} {z : Matrix α} (h : d.apply ms = .ok z)
    {k : Nat} {m : Matrix α} (hk : ms[k]? = some m) :
    (d.part ((ms.take k).map d.length).sum (d.length m)).select z = .ok m := by
  cases d with
  | vertical => exact select_vertical h hk
  | horizontal =>
    obtain ⟨w, hw, rfl⟩ := exists_vertical_of_apply h
    have hk' : (ms.map Matrix.transpose)[k]? = some m.transpose := by
      rw [List.getElem?_map, hk]
      rfl
    have hpart := select_vertical hw hk'
    rw [← List.map_take, Matrix.map_rows_transpose] at hpart
    refine ((Ranges.select_transpose w _).trans (congrArg (Except.map _) hpart)).trans ?_
    exact congrArg Except.ok m.transpose_transpose

/-- The indices of a part are declared a vector or a matrix. -/
theorem isScalar_part {d : Direction} {ss : List Shape} (hne : ss ≠ []) (start n : Nat) :
    ((UnaryAtom.index (d.part start n)).shape (d.shape ss)).isScalar = false := by
  cases ss with
  | nil => exact absurd rfl hne
  | cons s ss =>
    cases d with
    | vertical =>
      show List.isEmpty (Ranges.keptDims [some (.range start (start + n)), none] [_, _]) = false
      have hcols : Ranges.keptDims [none] [s.cols] ≠ [] := List.cons_ne_nil _ _
      rw [Ranges.keptDims_cons]
      exact List.isEmpty_eq_false_iff.mpr (List.append_ne_nil_of_right_ne_nil _ hcols)
    | horizontal => rfl

end Direction

/-! ## Stacks of expressions -/

/-- Two rows, no row and one row. -/
def Expr.bands : List (Expr ℚ) :=
  [.const 0 (.dense ⟨2, 2, #[1, 2, 3, 4], rfl⟩), .const 1 (.dense ⟨0, 2, #[], rfl⟩),
    .const 2 (.dense ⟨1, 2, #[5, 6], rfl⟩)]

namespace Expr

variable {σ : Assignment α}

theorem exists_values {es : List (Expr α)} {ms : List (Matrix α)} (h : matrices σ es = .ok ms) :
    ∃ xs, List.Forall₂ (fun e x => e.value σ = .ok x) es xs ∧ xs.map Value.toMatrix = ms := by
  induction es generalizing ms with
  | nil =>
    obtain rfl : [] = ms := Except.ok.inj h
    exact ⟨[], .nil, rfl⟩
  | cons e es ih =>
    rw [matrices_cons] at h
    obtain ⟨m, hm, h⟩ := bind_eq_ok_iff.mp h
    obtain ⟨ms', hms, h⟩ := bind_eq_ok_iff.mp h
    obtain rfl : m :: ms' = ms := Except.ok.inj h
    obtain ⟨x, hx, rfl⟩ := exists_value hm
    obtain ⟨xs, hxs, rfl⟩ := ih hms
    exact ⟨x :: xs, .cons hx hxs, rfl⟩

theorem matrices_map_transpose (es : List (Expr α)) :
    matrices σ (es.map transpose) = (matrices σ es).map (List.map Matrix.transpose) := by
  induction es with
  | nil => rfl
  | cons e es ih =>
    rw [List.map_cons, matrices_cons, matrices_cons, ih, transpose, matrix_unary]
    cases e.matrix σ with
    | error f => rfl
    | ok m =>
      cases matrices σ es with
      | error f => rfl
      | ok ms => rfl

theorem outcome_matrix_hstack (es : List (Expr α)) :
    outcome ((hstack es).matrix σ) =
      outcome ((vstack (es.map transpose)).transpose.matrix σ) := by
  rw [hstack, vstack, transpose, matrix_unary, matrix_stack, matrix_stack, matrices_map_transpose]
  cases matrices σ es with
  | error f => rfl
  | ok ms =>
    refine (Direction.outcome_horizontal ms).trans (congrArg outcome ?_)
    show (Direction.vertical.apply _).map _ = (Direction.vertical.apply _).bind _
    cases Direction.vertical.apply (ms.map Matrix.transpose) with
    | error f => rfl
    | ok w => rfl

omit [Scalar α] in
theorem isScalar_hstack (es : List (Expr α)) :
    (hstack es).shape.isScalar = (vstack (es.map transpose)).transpose.shape.isScalar := by
  rw [hstack, vstack, transpose, shape_unary, shape_stack, shape_stack]
  cases es with
  | nil => rfl
  | cons e es => rfl

end Expr

/-- **Stacking loses nothing, and its two directions are dual.**  A stack of at least one part
evaluates only if its parts do.  It is as long as they are together, and an index of the stack that
starts after the parts before a part, and is as long as the part, evaluates to the part again, also
where parts are empty.  Parts side by side evaluate to the transpose of the transposed parts stacked
downwards, or both fail. -/
theorem stack_keeps_parts {α : Type} [Scalar α] (σ : Assignment α) (es : List (Expr α)) :
    (∀ d z, es ≠ [] → (Expr.stack d es).value σ = .ok z →
      ∃ xs, List.Forall₂ (fun e x => e.value σ = .ok x) es xs ∧
        d.length z.toMatrix = (xs.map fun x => d.length x.toMatrix).sum ∧
        ∀ k x, xs[k]? = some x →
          ((Expr.stack d es).index (d.part ((xs.take k).map fun x => d.length x.toMatrix).sum
            (d.length x.toMatrix))).value σ = .ok (.dense x.toMatrix)) ∧
    outcome ((Expr.hstack es).value σ) =
      outcome ((Expr.vstack (es.map Expr.transpose)).transpose.value σ) := by
  refine ⟨fun d z hne hz => ?_,
    Expr.outcome_value_congr (Expr.isScalar_hstack es) (Expr.outcome_matrix_hstack es)⟩
  have hmatrix := Expr.matrix_of_value hz
  obtain ⟨ms, hms, happly⟩ := bind_eq_ok_iff.mp hmatrix
  obtain ⟨xs, hxs, rfl⟩ := Expr.exists_values hms
  have hsum : ∀ ys : List (Value α), ((ys.map Value.toMatrix).map d.length).sum =
      (ys.map fun x => d.length x.toMatrix).sum := fun ys => congrArg List.sum (List.map_map ..)
  refine ⟨xs, hxs, ?_, fun k x hk => ?_⟩
  · have hxs' : xs.map Value.toMatrix ≠ [] := by
      intro hnil
      rw [List.map_eq_nil_iff.mp hnil] at hxs
      cases hxs
      exact hne rfl
    rw [Direction.length_apply hxs' happly, hsum]
  · have hk' : (xs.map Value.toMatrix)[k]? = some x.toMatrix := by
      rw [List.getElem?_map, hk]
      rfl
    have hpart := Direction.select_part happly hk'
    rw [← List.map_take, hsum] at hpart
    refine Expr.value_of_isScalar_eq_false ?_ ?_
    · rw [Expr.index, Expr.shape_unary, Expr.shape_stack]
      exact Direction.isScalar_part (mt List.map_eq_nil_iff.mp hne) _ _
    · rw [Expr.index, Expr.matrix_unary, hmatrix]
      exact hpart

/-- The part without rows and the last row are picked again. -/
theorem stack_keeps_parts_bands :
    Expr.bands ≠ [] ∧ ∃ z, (Expr.stack .vertical Expr.bands).value (fun _ => none) = .ok z ∧
      Direction.vertical.length z.toMatrix = 3 ∧
      ((Expr.vstack Expr.bands).index [some (.range 2 2), none]).value (fun _ => none) =
        .ok (.dense ⟨0, 2, #[], rfl⟩) ∧
      ((Expr.vstack Expr.bands).index [some (.range 2 3), none]).value (fun _ => none) =
        .ok (.dense ⟨1, 2, #[5, 6], rfl⟩) := by
  have hne : Expr.bands ≠ [] := List.cons_ne_nil _ _
  have hz : (Expr.stack .vertical Expr.bands).value (fun _ => none) = .ok _ := rfl
  obtain ⟨xs, hxs, hlength, hpart⟩ := (stack_keeps_parts _ Expr.bands).1 .vertical _ hne hz
  obtain _ | ⟨hx, _ | ⟨hy, _ | ⟨hw, _ | _⟩⟩⟩ := hxs
  cases hx
  cases hy
  cases hw
  exact ⟨hne, _, hz, hlength, hpart 1 _ rfl, hpart 2 _ rfl⟩

end ConvexProgram
