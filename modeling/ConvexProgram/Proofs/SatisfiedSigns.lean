import Mathlib.Data.List.DropRight
import ConvexProgram.Proofs.Tolerance

/-!
# What a satisfied sign says of the entries

A sign or an equality is checked by one fold over the entries, while a value has a sign if every
entry has it.  The fold keeps a later entry as soon as the two do not compare, so it forgets
everything up to the last entry that is not a number (`Scalar.NumberOrder.fold_iff`), and what is
checked is the sign of the entries after that one.

* `Scalar.afterNaN`          these entries;
* `Scalar.NumberOrder`       an order of the numbers, for the greatest and the least entry at once;
* `isSatisfied_sign_iff`     what is checked of a sign and of an equality, and when it is the sign
  of the value.
-/

namespace ConvexProgram

namespace Scalar

variable {α : Type} [Scalar α]

instance : DecidablePred (IsNumber : α → Prop) := fun x => inferInstanceAs (Decidable (x ≤ x))

/-! ## Entries after the last that is not a number -/

/-- The entries after the last one that is not a number. -/
def afterNaN (xs : List α) : List α := xs.rtakeWhile fun x => decide (IsNumber x)

theorem afterNaN_concat_of_isNumber {x : α} (xs : List α) (hx : IsNumber x) :
    afterNaN (xs ++ [x]) = afterNaN xs ++ [x] :=
  List.rtakeWhile_concat_pos _ _ _ (decide_eq_true hx)

theorem afterNaN_concat_of_not_isNumber {x : α} (xs : List α) (hx : ¬IsNumber x) :
    afterNaN (xs ++ [x]) = [] :=
  List.rtakeWhile_concat_neg _ _ _ fun h => hx (of_decide_eq_true h)

theorem afterNaN_eq_self {xs : List α} (h : ∀ x ∈ xs, IsNumber x) : afterNaN xs = xs :=
  List.rtakeWhile_eq_self_iff.mpr fun x hx => decide_eq_true (h x hx)

/-- A function that keeps what is a number and what is not does not move the last that is none. -/
theorem afterNaN_map {f : α → α} (hf : ∀ x, IsNumber (f x) ↔ IsNumber x) (xs : List α) :
    afterNaN (xs.map f) = (afterNaN xs).map f := by
  induction xs using List.reverseRecOn with
  | nil => rfl
  | append_singleton xs x ih =>
    rw [List.map_append, List.map_singleton]
    by_cases hx : IsNumber x
    · rw [afterNaN_concat_of_isNumber _ hx, afterNaN_concat_of_isNumber _ ((hf x).mpr hx), ih,
        List.map_append, List.map_singleton]
    · rw [afterNaN_concat_of_not_isNumber _ hx,
        afterNaN_concat_of_not_isNumber _ fun h => hx ((hf x).mp h)]
      rfl

/-- What only numbers have, all entries have if they are numbers and those after the last that is
none have it. -/
theorem all_iff_afterNaN {p : α → Bool} (hp : ∀ x, p x = true → IsNumber x) (xs : List α) :
    xs.all p = true ↔ (∀ x ∈ xs, IsNumber x) ∧ (afterNaN xs).all p = true := by
  constructor
  · intro h
    have hnum : ∀ x ∈ xs, IsNumber x := fun x hx => hp x (List.all_eq_true.mp h x hx)
    exact ⟨hnum, (afterNaN_eq_self hnum).symm ▸ h⟩
  · intro ⟨hnum, h⟩
    rwa [afterNaN_eq_self hnum] at h

/-! ## Folds that keep the first of two in an order -/

theorem foldFirst_concat {pick : α → α → α} {xs : List α} (h : xs ≠ []) (x : α) :
    foldFirst pick (xs ++ [x]) = pick (foldFirst pick xs) x := by
  cases xs with
  | nil => exact absurd rfl h
  | cons y ys =>
    show (ys ++ [x]).foldl pick y = pick (ys.foldl pick y) x
    rw [List.foldl_append]
    rfl

/-- A total order of the numbers, in which nothing else is compared. -/
structure NumberOrder (r : α → α → Prop) : Prop where
  isNumber_left : ∀ {a b}, r a b → IsNumber a
  isNumber_right : ∀ {a b}, r a b → IsNumber b
  trans : ∀ {a b c}, r a b → r b c → r a c
  total : ∀ {a b}, IsNumber a → IsNumber b → r a b ∨ r b a

/-- A bound of the fold, if it is a number at all, is one of the entries after the last that is
not a number. -/
theorem NumberOrder.fold_iff {r : α → α → Prop} [DecidableRel r] (hr : NumberOrder r) {c : α}
    (hc : r c 0) (xs : List α) :
    (IsNumber (foldFirst (fun a b => if r a b then a else b) xs) →
      r c (foldFirst (fun a b => if r a b then a else b) xs)) ↔ ∀ x ∈ afterNaN xs, r c x := by
  induction xs using List.reverseRecOn with
  | nil => exact ⟨fun _ x hx => absurd hx List.not_mem_nil, fun _ _ => hc⟩
  | append_singleton xs x ih =>
    by_cases hx : IsNumber x
    · rw [afterNaN_concat_of_isNumber _ hx, List.forall_mem_append, List.forall_mem_singleton, ← ih]
      by_cases hxs : xs = []
      · subst hxs
        exact ⟨fun h => ⟨fun _ => hc, h hx⟩, fun h _ => h.2⟩
      · rw [foldFirst_concat hxs]
        generalize foldFirst (fun a b => if r a b then a else b) xs = y
        by_cases hyx : r y x
        · rw [if_pos hyx]
          have hy : IsNumber y := hr.isNumber_left hyx
          exact ⟨fun h => ⟨h, hr.trans (h hy) hyx⟩, fun h => h.1⟩
        · -- either the fold so far is not a number, or `x` comes before it
          rw [if_neg hyx]
          refine ⟨fun h => ⟨fun hy => ?_, h hx⟩, fun h _ => h.2⟩
          exact hr.trans (h hx) ((hr.total hx hy).resolve_right hyx)
    · have hlast : foldFirst (fun a b => if r a b then a else b) (xs ++ [x]) = x := by
        by_cases hxs : xs = []
        · subst hxs
          rfl
        · rw [foldFirst_concat hxs]
          exact if_neg fun h => hx (hr.isNumber_right h)
      rw [afterNaN_concat_of_not_isNumber _ hx, hlast]
      exact iff_of_true (fun h => absurd h hx) (fun y hy => absurd hy List.not_mem_nil)

section
variable [OrderLaws α]

theorem numberOrder_le : NumberOrder (fun a b : α => a ≤ b) :=
  ⟨OrderLaws.isNumber_left, OrderLaws.isNumber_right, OrderLaws.le_trans, OrderLaws.le_total⟩

theorem numberOrder_ge : NumberOrder (fun a b : α => b ≤ a) :=
  ⟨OrderLaws.isNumber_right, OrderLaws.isNumber_left, fun hab hbc => OrderLaws.le_trans hbc hab,
    fun ha hb => OrderLaws.le_total hb ha⟩

theorem greatest_nonpos_iff (xs : List α) :
    (IsNumber (greatest xs) → greatest xs ≤ 0) ↔ ∀ x ∈ afterNaN xs, x ≤ 0 :=
  numberOrder_ge.fold_iff OrderLaws.isNumber_zero xs

theorem least_nonneg_iff (xs : List α) :
    (IsNumber (least xs) → 0 ≤ least xs) ↔ ∀ x ∈ afterNaN xs, 0 ≤ x :=
  numberOrder_le.fold_iff OrderLaws.isNumber_zero xs

/-- The larger of zero and what is not a number is zero. -/
theorem larger_zero_nonpos_iff {x : α} : larger x 0 ≤ 0 ↔ (IsNumber x → x ≤ 0) := by
  by_cases hx : IsNumber x
  · rw [larger_le_iff hx OrderLaws.isNumber_zero]
    exact ⟨fun h _ => h.1, fun h => ⟨h hx, OrderLaws.isNumber_zero⟩⟩
  · have hlarger : larger x 0 = 0 := by
      unfold larger
      rw [if_neg fun h => hx (OrderLaws.isNumber_left h), if_neg (show ¬x ≤ x from hx)]
    rw [hlarger]
    exact iff_of_true OrderLaws.isNumber_zero fun h => absurd h hx

end

/-- An absolute value of at most zero is that of a number that is zero from both sides. -/
theorem abs_nonpos_iff_zero [SignLaws α] {x : α} : Scalar.abs x ≤ 0 ↔ 0 ≤ x ∧ x ≤ 0 := by
  unfold Scalar.abs
  split
  · next h => exact ⟨fun hx => ⟨h, hx⟩, fun hx => hx.2⟩
  · next h =>
    refine ⟨fun hx => absurd ?_ h, fun hx => absurd hx.1 h⟩
    exact (OrderLaws.neg_nonpos (SignLaws.isNumber_of_neg (OrderLaws.isNumber_left hx))).mp hx

end Scalar

open Scalar

variable {α : Type} [Scalar α]

/-! ## Violations of at most zero -/

namespace Matrix

theorem violation_nonneg_iff [SignLaws α] (m : Matrix α) :
    larger (-m.least) 0 ≤ 0 ↔ ∀ x ∈ afterNaN m.entries.toList, 0 ≤ x := by
  rw [larger_zero_nonpos_iff, ← least_nonneg_iff]
  constructor
  · intro h hm
    exact (OrderLaws.neg_nonpos hm).mp (h (OrderLaws.isNumber_neg hm))
  · intro h hm
    have hnum : IsNumber m.least := SignLaws.isNumber_of_neg hm
    exact (OrderLaws.neg_nonpos hnum).mpr (h hnum)

theorem violation_nonpos_iff [OrderLaws α] (m : Matrix α) :
    larger m.greatest 0 ≤ 0 ↔ ∀ x ∈ afterNaN m.entries.toList, x ≤ 0 :=
  larger_zero_nonpos_iff.trans (greatest_nonpos_iff _)

/-- An equality is not clamped at zero, so the last entry has to be a number. -/
theorem violation_zero_iff [SignLaws α] (m : Matrix α) :
    m.greatestAbs ≤ 0 ↔ (∀ x ∈ m.entries.toList.getLast?, IsNumber x) ∧
      ∀ x ∈ afterNaN m.entries.toList, 0 ≤ x ∧ x ≤ 0 := by
  have hlast : IsNumber m.greatestAbs ↔ ∀ x ∈ m.entries.toList.getLast?, IsNumber x := by
    rw [isNumber_greatestAbs_iff, ← Array.getLast?_toList]
    exact Iff.rfl
  have habs : (∀ x ∈ afterNaN m.entries.toList, 0 ≤ x ∧ x ≤ 0) ↔
      ∀ x ∈ afterNaN (m.entries.toList.map Scalar.abs), x ≤ 0 := by
    rw [afterNaN_map fun x => isNumber_abs_iff, List.forall_mem_map]
    simp only [abs_nonpos_iff_zero]
  rw [← hlast, habs, ← greatest_nonpos_iff]
  exact ⟨fun h => ⟨OrderLaws.isNumber_left h, fun _ => h⟩, fun h => h.2 h.1⟩

end Matrix

/-- An evaluated value stores all its entries. -/
theorem Expr.stored_of_value {e : Expr α} {σ : Assignment α} {v : Value α} (h : e.value σ = .ok v) :
    v.stored = v.toMatrix.entries.toList := by
  obtain ⟨m, _, h⟩ := Fault.bind_eq_ok_iff.mp h
  obtain rfl := Except.ok.inj h
  split
  · rfl
  · rfl

/-! ## Signs and equalities -/

namespace Value

theorem isNonneg_and_isNonpos (v : Value α) :
    (v.isNonneg && v.isNonpos) = v.stored.all fun x => decide (0 ≤ x) && decide (x ≤ 0) := by
  rw [Bool.eq_iff_iff, Bool.and_eq_true]
  unfold isNonneg isNonpos
  simp only [List.all_eq_true, Bool.and_eq_true]
  exact forall₂_and.symm

/-- Every entry that is stored is a number. -/
def IsNumeric (v : Value α) : Prop := ∀ x ∈ v.stored, IsNumber x

/-- The entries that are stored after the last one that is not a number. -/
def afterNaN (v : Value α) : List α := Scalar.afterNaN v.stored

/-- No entry is stored, or the last one is a number. -/
def endsInNumber (v : Value α) : Bool := v.stored.getLast?.all fun x => decide (IsNumber x)

theorem endsInNumber_iff {v : Value α} :
    v.endsInNumber = true ↔ ∀ x ∈ v.stored.getLast?, IsNumber x := by
  unfold endsInNumber
  rw [Option.all_eq_true]
  simp only [decide_eq_true_iff, Option.mem_def]

theorem IsNumeric.endsInNumber {v : Value α} (h : v.IsNumeric) : v.endsInNumber = true :=
  endsInNumber_iff.mpr fun x hx => h x (List.mem_of_getLast? hx)

end Value

/-- A comparison is satisfied up to zero as its violation says. -/
theorem Constraint.isSatisfied_compare [Spectral α] {σ : Assignment α} {id : Ident} {r : Relation}
    {a : Expr α} {v : Value α} {x : α} {b : Bool} (h : a.value σ = .ok v)
    (hx : r.violation v.toMatrix = .ok x) (hb : x ≤ 0 ↔ b = true) :
    Constraint.isSatisfied σ 0 ⟨id, .compare r a⟩ = .ok b := by
  have hviol : Constraint.violation σ ⟨id, .compare r a⟩ = .ok x :=
    violation_compare_eq_ok.mpr ⟨v, h, hx⟩
  have hdec : decide (x ≤ 0) = b := Bool.eq_iff_iff.mpr (decide_eq_true_iff.trans hb)
  rw [isSatisfied_of_violation hviol, hdec]

def Expr.triple : Expr Float := .var ⟨0, .vector 3, none, {}⟩

/-- **What is checked of a sign.**  A sign or an equality is satisfied if the entries after the last
NaN have it, where an equality also asks that the last entry is not NaN itself.  It is the sign of
the value, entry by entry, if every entry is a number. -/
theorem isSatisfied_sign_iff {α : Type} [Scalar α] [Spectral α] [SignLaws α] {σ : Assignment α}
    {a : Expr α} {v : Value α} (h : a.value σ = .ok v) (id : Ident) :
    (Constraint.isSatisfied σ 0 ⟨id, .compare .nonneg a⟩
        = .ok (v.afterNaN.all fun x => decide (0 ≤ x)) ∧
      (v.isNonneg = true ↔
        v.IsNumeric ∧ Constraint.isSatisfied σ 0 ⟨id, .compare .nonneg a⟩ = .ok true)) ∧
    (Constraint.isSatisfied σ 0 ⟨id, .compare .nonpos a⟩
        = .ok (v.afterNaN.all fun x => decide (x ≤ 0)) ∧
      (v.isNonpos = true ↔
        v.IsNumeric ∧ Constraint.isSatisfied σ 0 ⟨id, .compare .nonpos a⟩ = .ok true)) ∧
    (Constraint.isSatisfied σ 0 ⟨id, .compare .zero a⟩
        = .ok (v.endsInNumber && v.afterNaN.all fun x => decide (0 ≤ x) && decide (x ≤ 0)) ∧
      ((v.isNonneg && v.isNonpos) = true ↔
        v.IsNumeric ∧ Constraint.isSatisfied σ 0 ⟨id, .compare .zero a⟩ = .ok true)) := by
  have hstored : v.toMatrix.entries.toList = v.stored := (Expr.stored_of_value h).symm
  have hnonneg : Constraint.isSatisfied σ 0 ⟨id, .compare .nonneg a⟩
      = .ok (v.afterNaN.all fun x => decide (0 ≤ x)) := by
    refine Constraint.isSatisfied_compare h rfl ?_
    rw [Matrix.violation_nonneg_iff, hstored, List.all_eq_true]
    simp only [decide_eq_true_iff]
    exact Iff.rfl
  have hnonpos : Constraint.isSatisfied σ 0 ⟨id, .compare .nonpos a⟩
      = .ok (v.afterNaN.all fun x => decide (x ≤ 0)) := by
    refine Constraint.isSatisfied_compare h rfl ?_
    rw [Matrix.violation_nonpos_iff, hstored, List.all_eq_true]
    simp only [decide_eq_true_iff]
    exact Iff.rfl
  have hzero : Constraint.isSatisfied σ 0 ⟨id, .compare .zero a⟩
      = .ok (v.endsInNumber && v.afterNaN.all fun x => decide (0 ≤ x) && decide (x ≤ 0)) := by
    refine Constraint.isSatisfied_compare h rfl ?_
    rw [Matrix.violation_zero_iff, hstored, Bool.and_eq_true, Value.endsInNumber_iff,
      List.all_eq_true]
    simp only [Bool.and_eq_true, decide_eq_true_iff]
    exact Iff.rfl
  refine ⟨⟨hnonneg, ?_⟩, ⟨hnonpos, ?_⟩, hzero, ?_⟩
  · rw [hnonneg, Except.ok.injEq]
    exact all_iff_afterNaN (fun x hx => OrderLaws.isNumber_right (of_decide_eq_true hx)) _
  · rw [hnonpos, Except.ok.injEq]
    exact all_iff_afterNaN (fun x hx => OrderLaws.isNumber_left (of_decide_eq_true hx)) _
  · have hnumber : ∀ x : α, (decide (0 ≤ x) && decide (x ≤ 0)) = true → IsNumber x := by
      intro x hx
      exact OrderLaws.isNumber_right (of_decide_eq_true (Bool.and_eq_true_iff.mp hx).1)
    rw [Value.isNonneg_and_isNonpos, hzero, Except.ok.injEq, Bool.and_eq_true,
      all_iff_afterNaN hnumber]
    -- the last of entries that are numbers is a number
    exact and_congr_right fun hnum => (and_iff_right (Value.IsNumeric.endsInNumber hnum)).symm

/-- A vector with NaN in the middle: what is checked of it is its last entry. -/
theorem isSatisfied_sign_iff_triple :
    (∃ v, Expr.triple.value (.ofEntries #[-1, 0 / 0, 5]) = .ok v ∧
      (v.isNonneg = true ↔ v.IsNumeric ∧
        Constraint.isSatisfied (.ofEntries #[-1, 0 / 0, 5]) 0 ⟨1, .compare .nonneg .triple⟩
          = .ok true)) ∧
    Constraint.isSatisfied (.ofEntries #[-1, 0 / 0, 5]) 0 ⟨1, .compare .nonpos .triple⟩
      = .ok false := by
  have hv : Expr.triple.value (.ofEntries #[-1, 0 / 0, 5]) = .ok _ := rfl
  obtain ⟨⟨_, hnonneg⟩, ⟨hnonpos, _⟩, _⟩ := isSatisfied_sign_iff hv 1
  exact ⟨⟨_, hv, hnonneg⟩, hnonpos.trans (by decide +kernel)⟩

/-- A value satisfies a constraint and does not have the sign that the constraint asks for. -/
def Relation.PassesOver (r : Relation) (xs : Array Float) (has : Value Float → Bool) : Prop :=
  ∃ v, Expr.triple.value (.ofEntries xs) = .ok v ∧ has v = false ∧
    Constraint.isSatisfied (.ofEntries xs) 0 ⟨1, .compare r .triple⟩ = .ok true

/-- NaN hides the entries before it, and is passed over itself. -/
theorem isSatisfied_passes_over_nan :
    Relation.nonneg.PassesOver #[-1, 0 / 0, 5] Value.isNonneg ∧
    Relation.nonpos.PassesOver #[1, 0 / 0, -5] Value.isNonpos ∧
    Relation.zero.PassesOver #[5, 0 / 0, 0] (fun v => v.isNonneg && v.isNonpos) ∧
    Relation.nonneg.PassesOver #[-1, 5, 0 / 0] Value.isNonneg := by
  refine ⟨⟨_, rfl, ?_, ?_⟩, ⟨_, rfl, ?_, ?_⟩, ⟨_, rfl, ?_, ?_⟩, ⟨_, rfl, ?_, ?_⟩⟩
  all_goals decide +kernel

end ConvexProgram
