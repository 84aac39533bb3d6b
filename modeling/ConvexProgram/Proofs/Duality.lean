import Mathlib.Algebra.Order.Group.Unbundled.Abs
import ConvexProgram.Proofs.Violation
import ConvexProgram.Proofs.Leaf

/-!
# Constraints with their sides exchanged

`b - a` is built as another tree than `a - b`, spreads an operand of one entry from the other side,
and fails with the fault of the other operand first; but it evaluates where `a - b` does, and to the
opposite matrix (`Expr.toOption_matrix_sub`).  A comparison of the opposite matrix is the opposite
comparison of the matrix (`Relation.violation_opposite`), so that

* `violation_opposite_sides`   `a ≤ b` is violated as `b ≥ a` is, `a = b` as `b = a`, and a negative
  semidefinite `a - b` as a positive semidefinite `b - a`; and `a = b` by the larger of `a ≤ b` and
  `a ≥ b`.
-/

namespace ConvexProgram

open Fault

/-! ## Folds over opposite entries -/

namespace Scalar

/-- A fold over images is the image of a fold, if the image of what is kept is what is kept of the
images. -/
theorem foldFirst_map {α : Type} [Scalar α] {f : α → α} {p q : α → α → α} (h0 : f 0 = 0)
    (hpick : ∀ x y, q (f x) (f y) = f (p x y)) (xs : List α) :
    foldFirst q (xs.map f) = f (foldFirst p xs) := by
  cases xs with
  | nil => exact h0.symm
  | cons x xs =>
    show (xs.map f).foldl q (f x) = f (xs.foldl p x)
    rw [List.foldl_map]
    exact List.foldl_hom f hpick

variable {α : Type} [ExactScalar α]

theorem larger_eq_max (x y : α) : larger x y = max x y := by
  unfold larger
  by_cases h : x ≤ y
  · rw [if_pos h, max_eq_right h]
  · rw [if_neg h, if_pos (le_refl x), max_eq_left (le_of_not_ge h)]

theorem abs_eq (x : α) : Scalar.abs x = |x| := by
  unfold Scalar.abs
  split
  · next h => exact (abs_of_nonneg h).symm
  · next h => exact (abs_of_neg (lt_of_not_ge h)).symm

theorem greatest_map_neg (xs : List α) : greatest (xs.map fun x => -x) = -least xs := by
  refine foldFirst_map neg_zero (fun x y => ?_) xs
  simp only [neg_le_neg_iff, apply_ite (fun z : α => -z)]

theorem least_map_neg (xs : List α) : least (xs.map fun x => -x) = -greatest xs := by
  refine foldFirst_map neg_zero (fun x y => ?_) xs
  simp only [neg_le_neg_iff, apply_ite (fun z : α => -z)]

theorem le_greatest {xs : List α} {x : α} (hx : x ∈ xs) : x ≤ greatest xs := by
  cases xs with
  | nil => cases hx
  | cons y ys =>
    have hnum : ∀ z ∈ ys, IsNumber z := fun z _ => ExactScalar.isNumber z
    have h : y ≤ greatest (y :: ys) ∧ ∀ z ∈ ys, z ≤ greatest (y :: ys) :=
      (foldl_greatest_le_iff hnum (ExactScalar.isNumber y) _).mp le_rfl
    rcases List.mem_cons.mp hx with rfl | hx
    · exact h.1
    · exact h.2 x hx

theorem greatest_nonneg {xs : List α} (h : ∀ x ∈ xs, 0 ≤ x) : 0 ≤ greatest xs := by
  cases xs with
  | nil => exact le_refl 0
  | cons y ys => exact (h y List.mem_cons_self).trans (le_greatest List.mem_cons_self)

/-- The greatest absolute value is that of the greatest entry or that of the least. -/
theorem greatest_map_abs (xs : List α) :
    greatest (xs.map Scalar.abs) = max (larger (greatest xs) 0) (larger (-least xs) 0) := by
  have habs : 0 ≤ greatest (xs.map Scalar.abs) := by
    refine greatest_nonneg (List.forall_mem_map.mpr fun x _ => ?_)
    rw [abs_eq]
    exact abs_nonneg x
  rw [larger_eq_max, larger_eq_max]
  refine eq_of_forall_ge_iff fun c => ?_
  rw [max_le_iff, max_le_iff, max_le_iff]
  by_cases hc : 0 ≤ c
  · have hnum : ∀ ys : List α, ∀ y ∈ ys, IsNumber y := fun _ y _ => ExactScalar.isNumber y
    rw [greatest_le_iff (hnum _) hc, greatest_le_iff (hnum _) hc, List.forall_mem_map, neg_le,
      le_least_iff (hnum _) (neg_nonpos.mpr hc), and_iff_left hc, and_iff_left hc, ← forall₂_and]
    refine forall₂_congr fun x _ => ?_
    rw [abs_eq, abs_le', neg_le]
  · -- a negative number bounds neither side
    exact iff_of_false (fun h => hc (habs.trans h)) (fun h => hc h.1.2)

end Scalar

/-! ## Opposite matrices -/

namespace Matrix

section
variable {α : Type} [Scalar α]

/-- An operation with an opposite matrix is one with opposite entries. -/
theorem elementwise_neg (f : α → α → α) (a b : Matrix α) :
    a.elementwise f b.neg = a.elementwise (fun x y => f x (-y)) b := by
  unfold elementwise
  rw [show b.neg.size = b.size from rfl, show b.neg.extent = b.extent from rfl]
  by_cases hsame : a.rows = b.rows ∧ a.cols = b.cols
  · rw [if_pos hsame, if_pos (show a.rows = b.neg.rows ∧ a.cols = b.neg.cols from hsame)]
    refine congrArg Except.ok (ofFn_congr fun i j hi hj => ?_)
    rw [entry_neg (hsame.1 ▸ hi) (hsame.2 ▸ hj)]
  · rw [if_neg hsame, if_neg (show ¬(a.rows = b.neg.rows ∧ a.cols = b.neg.cols) from hsame)]
    by_cases hb : b.size = 1
    · obtain ⟨hr, hc⟩ := sizes_of_size_one hb
      rw [if_pos hb, if_pos hb, entry_neg (hr ▸ Nat.one_pos) (hc ▸ Nat.one_pos)]
    · rw [if_neg hb, if_neg hb]
      exact if_congr Iff.rfl (congrArg Except.ok (map_map ..)) rfl

/-- With the operands exchanged the result is mapped as each entry is, and there is one in the same
cases; the sizes in a fault are exchanged. -/
theorem toOption_elementwise_swap {f g : α → α → α} {h : α → α} (hfg : ∀ x y, g y x = h (f x y))
    (a b : Matrix α) :
    (b.elementwise g a).toOption = (a.elementwise f b).toOption.map (Matrix.map h) := by
  have hmap : ∀ {k l : α → α} (m : Matrix α), (∀ x, l x = h (k x)) → m.map l = (m.map k).map h := by
    intro k l m hl
    rw [map_map]
    exact congrArg m.map (funext hl)
  unfold elementwise
  by_cases hsame : a.rows = b.rows ∧ a.cols = b.cols
  · rw [if_pos hsame, if_pos ⟨hsame.1.symm, hsame.2.symm⟩, ← hsame.1, ← hsame.2]
    refine congrArg some ?_
    rw [map_ofFn]
    exact ofFn_congr fun i j _ _ => hfg _ _
  · rw [if_neg hsame, if_neg fun hs => hsame ⟨hs.1.symm, hs.2.symm⟩]
    by_cases hb : b.size = 1
    · -- operands of one entry each have the same sizes, so only `b` is spread
      have ha : a.size ≠ 1 := by
        intro ha
        obtain ⟨har, hac⟩ := sizes_of_size_one ha
        obtain ⟨hbr, hbc⟩ := sizes_of_size_one hb
        exact hsame ⟨har.trans hbr.symm, hac.trans hbc.symm⟩
      rw [if_neg ha, if_pos hb, if_pos hb]
      exact congrArg some (hmap a fun x => hfg x _)
    · rw [if_neg hb, if_neg hb]
      by_cases ha : a.size = 1
      · rw [if_pos ha, if_pos ha]
        exact congrArg some (hmap b fun y => hfg _ y)
      · rw [if_neg ha, if_neg ha]
        rfl

end

section
variable {α : Type} [ExactScalar α]

theorem neg_neg (m : Matrix α) : m.neg.neg = m := by
  refine (map_map ..).trans (ext_entries rfl rfl ?_)
  show m.entries.map (fun x => - -x) = m.entries
  simp only [InvolutiveNeg.neg_neg, Array.map_id']

theorem greatest_neg (m : Matrix α) : m.neg.greatest = -m.least := by
  show Scalar.greatest (m.entries.map _).toList = _
  rw [Array.toList_map]
  exact Scalar.greatest_map_neg _

theorem least_neg (m : Matrix α) : m.neg.least = -m.greatest := by
  show Scalar.least (m.entries.map _).toList = _
  rw [Array.toList_map]
  exact Scalar.least_map_neg _

theorem greatestAbs_neg (m : Matrix α) : m.neg.greatestAbs = m.greatestAbs := by
  show Scalar.greatest ((m.entries.map _).toList.map Scalar.abs) = _
  rw [Array.toList_map, List.map_map]
  refine congrArg Scalar.greatest (List.map_congr_left fun x _ => ?_)
  show Scalar.abs (-x) = Scalar.abs x
  rw [Scalar.abs_eq, Scalar.abs_eq, abs_neg]

end
end Matrix

/-! ## Differences -/

/-- An option keeps the result and forgets the fault. -/
theorem Fault.toOption_bind {β γ : Type} (x : Except Fault β) (f : β → Except Fault γ) :
    (x.bind f).toOption = x.toOption.bind fun b => (f b).toOption := by
  cases x with
  | ok b => rfl
  | error e => rfl

namespace Expr

variable {α : Type} {σ : Assignment α}

/-- What reads the matrix of a value reads the matrix of the expression. -/
theorem value_bind [Scalar α] {β : Type} (e : Expr α) (f : Matrix α → Except Fault β) :
    ((e.value σ).bind fun v => f v.toMatrix) = (e.matrix σ).bind f := by
  cases hm : e.matrix σ with
  | error e' =>
    unfold value
    rw [hm]
    rfl
  | ok m =>
    obtain ⟨v, hv⟩ : ∃ v, e.value σ = .ok v := by
      unfold value
      rw [hm]
      exact ⟨_, rfl⟩
    have hmv : m = v.toMatrix := Except.ok.inj (hm.symm.trans (matrix_of_value hv))
    rw [hv, hmv]
    rfl

theorem matrix_sub [Scalar α] (a b : Expr α) :
    (a.sub b).matrix σ =
      (a.matrix σ).bind fun m => (b.matrix σ).bind (m.elementwise fun x y => x + -y) := by
  rw [sub, add, neg, matrix_binary, matrix_unary]
  refine congrArg _ (funext fun m => ?_)
  cases b.matrix σ with
  | error f => rfl
  | ok n => exact Matrix.elementwise_neg _ m n

/-- The opposite difference has the opposite matrix, or neither has one. -/
theorem toOption_matrix_sub [ExactScalar α] (a b : Expr α) :
    ((b.sub a).matrix σ).toOption = ((a.sub b).matrix σ).toOption.map Matrix.neg := by
  have hswap : ∀ x y : α, y + -x = -(x + -y) := by
    intro x y
    rw [neg_add, neg_neg, add_comm]
  simp only [matrix_sub, toOption_bind]
  rw [Option.bind_comm, Option.map_bind]
  refine congrArg _ (funext fun m => ?_)
  rw [Function.comp_apply, Option.map_bind]
  refine congrArg _ (funext fun n => ?_)
  exact Matrix.toOption_elementwise_swap hswap m n

end Expr

/-! ## Opposite comparisons -/

/-- The comparison of `-x` with zero that says the same of `x`. -/
def Relation.opposite : Relation → Relation
  | .zero => .zero
  | .nonneg => .nonpos
  | .nonpos => .nonneg
  | .psd => .nsd
  | .nsd => .psd

variable {α : Type}

section
variable [ExactScalar α] [Spectral α]

theorem Relation.violation_opposite (r : Relation) (m : Matrix α) :
    r.opposite.violation m.neg = r.violation m := by
  cases r with
  | zero => exact congrArg Except.ok m.greatestAbs_neg
  | nonneg =>
    show Except.ok (Scalar.larger m.neg.greatest 0) = _
    rw [m.greatest_neg]
    rfl
  | nonpos =>
    show Except.ok (Scalar.larger (-m.neg.least) 0) = _
    rw [m.least_neg, neg_neg]
    rfl
  | psd =>
    show m.neg.neg.smallestEigenvalue.bind _ = _
    rw [m.neg_neg]
    rfl
  | nsd => rfl

/-- The distance from zero is the larger of the distances from both signs. -/
theorem Relation.violation_zero (m : Matrix α) :
    zero.violation m =
      (nonpos.violation m).bind fun x => (nonneg.violation m).bind fun y => .ok (max x y) :=
  congrArg Except.ok (Scalar.greatest_map_abs _)

end

/-! ## Constraints on a difference -/

namespace Constraint

theorem violation_difference [Scalar α] [Spectral α] (σ : Assignment α) (r : Relation)
    (a b : Expr α) (i : Ident) :
    (difference r a b i).1.violation σ = ((a.sub b).matrix σ).bind r.violation :=
  Expr.value_bind (a.sub b) fun m => r.violation m

/-- Exchanging the sides of a difference turns its comparison into the opposite one. -/
theorem toOption_violation_swap [ExactScalar α] [Spectral α] (σ : Assignment α) (r : Relation)
    (a b : Expr α) (i j : Ident) :
    ((difference r a b i).1.violation σ).toOption =
      ((difference r.opposite b a j).1.violation σ).toOption := by
  simp only [violation_difference, toOption_bind]
  rw [Expr.toOption_matrix_sub a b, Option.bind_map]
  refine congrArg _ (funext fun m => ?_)
  exact congrArg Except.toOption (r.violation_opposite m).symm

end Constraint

/-- **Exchanged sides.**  A constraint on a difference and its opposite with the sides exchanged
have the same violation, or both have none.  An equality is violated by the larger of the violations
of the two inequalities between its sides, and these have the same faults. -/
theorem violation_opposite_sides {α : Type} [ExactScalar α] [Spectral α] (σ : Assignment α)
    (a b : Expr α) (i j k : Ident) :
    ((Constraint.atMost a b i).1.violation σ).toOption =
      ((Constraint.atLeast b a j).1.violation σ).toOption ∧
    ((Constraint.equal a b i).1.violation σ).toOption =
      ((Constraint.equal b a j).1.violation σ).toOption ∧
    ((Constraint.nsd a b i).1.violation σ).toOption =
      ((Constraint.psd b a j).1.violation σ).toOption ∧
    (Constraint.equal a b i).1.violation σ = (do
      let x ← (Constraint.atMost a b j).1.violation σ
      let y ← (Constraint.atLeast a b k).1.violation σ
      return max x y) ∧
    ∀ f, (Constraint.atMost a b j).1.violation σ = .error f ↔
      (Constraint.atLeast a b k).1.violation σ = .error f := by
  refine ⟨Constraint.toOption_violation_swap σ .nonpos a b i j,
    Constraint.toOption_violation_swap σ .zero a b i j,
    Constraint.toOption_violation_swap σ .nsd a b i j, ?_, fun f => ?_⟩
  · simp only [Constraint.equal, Constraint.atMost, Constraint.atLeast,
      Constraint.violation_difference]
    cases (a.sub b).matrix σ with
    | error f => rfl
    | ok m => exact Relation.violation_zero m
  · simp only [Constraint.atMost, Constraint.atLeast, Constraint.violation_difference]
    cases (a.sub b).matrix σ with
    | error g => rfl
    | ok m => exact iff_of_false nofun nofun

end ConvexProgram
