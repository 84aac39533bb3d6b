import Mathlib.Data.List.Basic
import ConvexProgram.Proofs.Breakdown

/-!
# Declared and evaluated sizes of an index

An index always evaluates to a matrix with the picked rows and the picked columns, where a dim
without a range is taken whole (`Ranges.sizes_of_select`).  The declared shape lists fewer dims: it
leaves out a dim without a range and one of which a span picks at most one index
(`Ranges.keptDims_eq`), and a single dim that is left stands for rows, also if it was one of
columns.

* `Ranges.Declares`          the dim at a place is listed in the declared shape;
* `Ranges.picked`            how many indices of a dim are picked;
* `index_hasShape_iff`       when the matrix has the declared sizes.
-/

namespace ConvexProgram

open Fault

/-! ## Declared dims -/

namespace Ranges

/-- The dim at a place is listed in the declared shape: there is a range for it, and a span in it
picks more than one index. -/
def Declares (ranges : Ranges) (k : Nat) : Prop := ∃ r, ranges[k]? = some r ∧ ∀ t ∈ r, 1 < t.count

/-- How many of the indices of the dim at a place are picked; without a range all are. -/
def picked (ranges : Ranges) (k dim : Nat) : Nat := Span.picked dim (ranges[k]?.getD none)

/-- What the declared shape lists of the dim at a place. -/
def keptAt (ranges : Ranges) (k dim : Nat) : List Nat :=
  (ranges[k]?.map (Span.keptDim dim)).getD []

theorem keptAt_of_declares {ranges : Ranges} {k : Nat} (h : ranges.Declares k) (dim : Nat) :
    ranges.keptAt k dim = [ranges.picked k dim] := by
  obtain ⟨r, hr, hcount⟩ := h
  unfold keptAt picked
  rw [hr, Option.map_some, Option.getD_some, Option.getD_some]
  cases r with
  | none => rfl
  | some t => exact if_pos (hcount t rfl)

theorem keptAt_of_not_declares {ranges : Ranges} {k : Nat} (h : ¬ranges.Declares k) (dim : Nat) :
    ranges.keptAt k dim = [] := by
  unfold keptAt
  cases hr : ranges[k]? with
  | none => rfl
  | some r =>
    cases r with
    | none => exact absurd ⟨none, hr, nofun⟩ h
    | some t =>
      refine if_neg fun hcount => h ⟨some t, hr, ?_⟩
      rintro _ ⟨⟩
      exact hcount

/-- With no more ranges than dims, the declared shape lists the kept dims in their order. -/
theorem keptDims_eq {ranges : Ranges} {s : Shape} (hs : s.isVector = true ∨ s.isMatrix = true)
    (hlen : ranges.length ≤ s.ndim) :
    ranges.keptDims s.dims = ranges.keptAt 0 s.rows ++ ranges.keptAt 1 s.cols := by
  have hnil : ∀ dims : List Nat, keptDims [] dims = [] := fun _ => rfl
  obtain ⟨dims⟩ := s
  have hdims : (∃ n, dims = [n]) ∨ ∃ m n, dims = [m, n] :=
    hs.imp (fun h => List.length_eq_one_iff.mp (beq_iff_eq.mp h))
      (fun h => List.length_eq_two.mp (beq_iff_eq.mp h))
  obtain ⟨n, rfl⟩ | ⟨m, n, rfl⟩ := hdims
  · match ranges, hlen with
    | [], _ => rfl
    | [r], _ =>
      rw [keptDims_cons, hnil]
      rfl
  · match ranges, hlen with
    | [], _ => rfl
    | [r], _ =>
      rw [keptDims_cons, hnil]
      rfl
    | [r, c], _ =>
      rw [keptDims_cons, keptDims_cons, hnil, List.append_nil]
      rfl

end Ranges

variable {α : Type} [Scalar α]

/-! ## Evaluated sizes -/

theorem Span.count_of_select {dim : Nat} {r : Option Span} {sel : Selection}
    (h : select dim r = .ok sel) : sel.count = picked dim r := by
  cases r with
  | none => exact (Except.ok.inj h) ▸ rfl
  | some t => exact (select_some_eq_ok_iff.mp h).2 ▸ rfl

theorem Ranges.sizes_of_select {ranges : Ranges} {m n : Matrix α} (h : ranges.select m = .ok n) :
    n.rows = ranges.picked 0 m.rows ∧ n.cols = ranges.picked 1 m.cols := by
  obtain ⟨rows, cols, rfl, hrows, hcols⟩ := exists_of_select h
  exact ⟨Span.count_of_select hrows, Span.count_of_select hcols⟩

omit [Scalar α] in
/-- A matrix with the picked sizes has the declared ones if there is one column where no columns are
declared, and one entry where no rows are. -/
theorem Ranges.hasShape_iff {ranges : Ranges} {s : Shape} {n : Matrix α}
    (hs : s.isVector = true ∨ s.isMatrix = true) (hlen : ranges.length ≤ s.ndim)
    (hrows : n.rows = ranges.picked 0 s.rows) (hcols : n.cols = ranges.picked 1 s.cols) :
    n.HasShape ⟨ranges.keptDims s.dims⟩ ↔
      (ranges.Declares 0 ∨ n.rows = 1 ∧ n.cols = 1) ∧ (ranges.Declares 1 ∨ n.cols = 1) := by
  have hsizes : ∀ t : Shape, n.HasShape t ↔ n.rows = t.rows ∧ n.cols = t.cols := fun t =>
    ⟨fun h => ⟨h.rows, h.cols⟩, fun h => ⟨h.1, h.2⟩⟩
  rw [keptDims_eq hs hlen, hsizes]
  by_cases h0 : ranges.Declares 0
  · rw [keptAt_of_declares h0, ← hrows]
    by_cases h1 : ranges.Declares 1
    · rw [keptAt_of_declares h1, ← hcols]
      exact iff_of_true ⟨rfl, rfl⟩ ⟨Or.inl h0, Or.inl h1⟩
    · rw [keptAt_of_not_declares h1]
      exact ⟨fun h => ⟨Or.inl h0, Or.inr h.2⟩, fun h => ⟨rfl, h.2.resolve_left h1⟩⟩
  · rw [keptAt_of_not_declares h0]
    by_cases h1 : ranges.Declares 1
    · -- the columns are declared as rows, so they have to be as many as the rows, and but one
      rw [keptAt_of_declares h1, ← hcols]
      constructor
      · intro h
        exact ⟨Or.inr ⟨h.1.trans h.2, h.2⟩, Or.inl h1⟩
      · intro h
        obtain ⟨hr, hc⟩ := h.1.resolve_left h0
        exact ⟨hr.trans hc.symm, hc⟩
    · rw [keptAt_of_not_declares h1]
      exact ⟨fun h => ⟨Or.inr h, Or.inr h.2⟩, fun h => h.1.resolve_left h0⟩

/-! ## Two rows of three entries -/

def Expr.twoRows : Expr ℚ := .var ⟨0, .matrix 2 3, none, {}⟩

/-- The entries are given as one column. -/
def Assignment.twoRows : Assignment ℚ
  | 0 => some (.ofColumn #[1, 2, 3, 4, 5, 6])
  | _ => none

/-! ## Indices -/

/-- The expression evaluates, and not in the sizes that it declares. -/
def Expr.MissesShape (σ : Assignment α) (e : Expr α) : Prop :=
  ∃ z, e.value σ = .ok z ∧ ¬z.toMatrix.HasShape e.shape

/-- **An index and its declared shape.**  Where an index of a vector or a matrix evaluates, it has
the picked rows and columns.  These are the sizes of its declared shape if and only if there is one
column where the columns are not declared, and one row and one column where the rows are not: dims
without a range, spans that pick nothing and a single row of a matrix are declared as something
else. -/
theorem index_hasShape_iff {α : Type} [Scalar α] {σ : Assignment α} {a : Expr α} {ranges : Ranges}
    {x z : Value α} (hs : a.shape.isVector = true ∨ a.shape.isMatrix = true)
    (hlen : ranges.length ≤ a.shape.ndim) (hx : a.value σ = .ok x)
    (hxs : x.toMatrix.HasShape a.shape) (hz : (a.index ranges).value σ = .ok z) :
    z.toMatrix.rows = ranges.picked 0 a.shape.rows ∧
    z.toMatrix.cols = ranges.picked 1 a.shape.cols ∧
    (z.toMatrix.HasShape (a.index ranges).shape ↔
      (ranges.Declares 0 ∨ z.toMatrix.rows = 1 ∧ z.toMatrix.cols = 1) ∧
      (ranges.Declares 1 ∨ z.toMatrix.cols = 1)) := by
  have hselect : ranges.select x.toMatrix = .ok z.toMatrix := by
    have hmatrix := Expr.matrix_of_value hz
    rw [Expr.index, Expr.matrix_unary, Expr.matrix_of_value hx] at hmatrix
    exact hmatrix
  obtain ⟨hrows, hcols⟩ := Ranges.sizes_of_select hselect
  rw [hxs.rows] at hrows
  rw [hxs.cols] at hcols
  refine ⟨hrows, hcols, ?_⟩
  rw [Expr.index, Expr.shape_unary]
  exact Ranges.hasShape_iff hs hlen hrows hcols

/-- Every second column of all rows. -/
theorem index_hasShape_iff_twoRows : ∃ z : Value ℚ,
    Expr.twoRows.shape.isMatrix = true ∧ Expr.twoRows.shape.ndim = 2 ∧
    (Expr.twoRows.index [none, some ⟨0, 3, 2⟩]).value .twoRows = .ok z ∧
    z.toMatrix.rows = 2 ∧ z.toMatrix.cols = 2 ∧
    z.toMatrix.HasShape (Expr.twoRows.index [none, some ⟨0, 3, 2⟩]).shape := by
  have hz : (Expr.twoRows.index [none, some ⟨0, 3, 2⟩]).value .twoRows = .ok _ := rfl
  have hlen : [none, some (⟨0, 3, 2⟩ : Span)].length ≤ Expr.twoRows.shape.ndim := Nat.le_refl 2
  obtain ⟨hrows, hcols, hshape⟩ := index_hasShape_iff (Or.inr rfl) hlen rfl ⟨rfl, rfl⟩ hz
  have hspan : ∀ t ∈ (some ⟨0, 3, 2⟩ : Option Span), 1 < t.count := by decide
  exact ⟨_, rfl, rfl, hz, hrows, hcols,
    hshape.mpr ⟨Or.inl ⟨none, rfl, nofun⟩, Or.inl ⟨_, rfl, hspan⟩⟩⟩

/-- With the first range alone a matrix is declared a vector, a single row of it is declared a
column, and a single column of no row is declared a number. -/
theorem index_missesShape :
    (∃ x, Expr.twoRows.value .twoRows = .ok x ∧ x.toMatrix.HasShape Expr.twoRows.shape) ∧
    (Expr.twoRows.index [none]).MissesShape .twoRows ∧
    (Expr.twoRows.index [some (.element 0), none]).MissesShape .twoRows ∧
    (Expr.twoRows.index [some (.range 1 1), some (.element 0)]).MissesShape .twoRows := by
  refine ⟨⟨_, rfl, rfl, rfl⟩, ⟨_, rfl, fun h => ?_⟩, ⟨_, rfl, fun h => ?_⟩, ⟨_, rfl, fun h => ?_⟩⟩
  · have hcols : 3 = 1 := h.cols
    cases hcols
  · have hcols : 3 = 1 := h.cols
    cases hcols
  · have hrows : 0 = 1 := h.rows
    cases hrows

end ConvexProgram
