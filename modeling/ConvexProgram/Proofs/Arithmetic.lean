import Mathlib.Algebra.Order.Field.Basic
import Mathlib.Algebra.Order.Field.Rat
import Mathlib.Data.Rat.Sqrt
import ConvexProgram.Constraint

/-!
# Laws of arithmetic

The definitions of the library assume no law of their scalars.  The statements about them name the
laws they need:

* `Scalar.ZeroLaws`    zero is neutral;
* `Scalar.UnitLaws`    zero and one are neutral, and zero times anything is zero;
* `Scalar.OrderLaws`   the numbers among the scalars are ordered, and a sign change reverses zero;
* `Scalar.SignLaws`    order laws, where a sign change makes no number of what is none;
* `ExactScalar`        an ordered field, with any function for the square root.

Over unit laws a sum with a single nonzero term is that term (`sumTo_eq_single`).  Over order laws
the folds of `Scalar` bound what they fold: `larger_le_iff`, `greatest_le_iff`, `le_least_iff`.
Exact arithmetic has both, and the rational numbers are an exact arithmetic that can be run.
-/

namespace ConvexProgram

/-- Zero is neutral. -/
class Scalar.ZeroLaws (α : Type) [Scalar α] : Prop where
  add_zero : ∀ x : α, x + 0 = x
  zero_add : ∀ x : α, 0 + x = x

/-- Zero and one are neutral, and a product with zero is zero. -/
class Scalar.UnitLaws (α : Type) [Scalar α] : Prop where
  zero_mul : ∀ x : α, 0 * x = 0
  one_mul : ∀ x : α, 1 * x = x
  add_zero : ∀ x : α, x + 0 = x
  zero_add : ∀ x : α, 0 + x = x

instance {α : Type} [Scalar α] [Scalar.UnitLaws α] : Scalar.ZeroLaws α where
  add_zero := Scalar.UnitLaws.add_zero
  zero_add := Scalar.UnitLaws.zero_add

/-- A scalar is a number if it is at most itself. -/
def Scalar.IsNumber {α : Type} [Scalar α] (x : α) : Prop := x ≤ x

/-- Only numbers compare, and they compare as in a total order. -/
class Scalar.OrderLaws (α : Type) [Scalar α] : Prop where
  isNumber_left : ∀ {a b : α}, a ≤ b → IsNumber a
  isNumber_right : ∀ {a b : α}, a ≤ b → IsNumber b
  le_trans : ∀ {a b c : α}, a ≤ b → b ≤ c → a ≤ c
  le_total : ∀ {a b : α}, IsNumber a → IsNumber b → a ≤ b ∨ b ≤ a
  isNumber_zero : IsNumber (0 : α)
  isNumber_neg : ∀ {a : α}, IsNumber a → IsNumber (-a)
  neg_nonpos : ∀ {a : α}, IsNumber a → (-a ≤ 0 ↔ 0 ≤ a)

/-- The laws of an order, where only the opposite of a number is a number. -/
class Scalar.SignLaws (α : Type) [Scalar α] : Prop extends Scalar.OrderLaws α where
  isNumber_of_neg : ∀ {a : α}, IsNumber (-a) → IsNumber a

/-- Exact arithmetic: the operations and the order are those of an ordered field. -/
class ExactScalar (α : Type) extends Scalar α, Field α, LinearOrder α, IsStrictOrderedRing α

instance {α : Type} [ExactScalar α] : Scalar.UnitLaws α where
  zero_mul := MulZeroClass.zero_mul
  one_mul := MulOneClass.one_mul
  add_zero := AddZeroClass.add_zero
  zero_add := AddZeroClass.zero_add

instance {α : Type} [ExactScalar α] : Scalar.OrderLaws α where
  isNumber_left := fun _ => le_refl _
  isNumber_right := fun _ => le_refl _
  le_trans := le_trans
  le_total := fun _ _ => le_total _ _
  isNumber_zero := le_refl _
  isNumber_neg := fun _ => le_refl _
  neg_nonpos := fun _ => Left.neg_nonpos_iff

instance {α : Type} [ExactScalar α] : Scalar.SignLaws α where
  isNumber_of_neg := fun _ => le_refl _

theorem ExactScalar.isNumber {α : Type} [ExactScalar α] (x : α) : Scalar.IsNumber x := le_refl x

namespace Scalar

/-! ## Sums with one term -/

section
variable {α : Type} [Scalar α] [UnitLaws α]

theorem sumTo_eq_zero {n : Nat} {f : Nat → α} (h : ∀ k, k < n → f k = 0) : sumTo n f = 0 := by
  induction n with
  | zero => rfl
  | succ n ih =>
    rw [sumTo_succ, ih fun k hk => h k (by omega), h n (by omega), UnitLaws.add_zero]

theorem sumTo_eq_single {n p : Nat} {f : Nat → α} (hp : p < n)
    (h : ∀ k, k < n → k ≠ p → f k = 0) : sumTo n f = f p := by
  induction n with
  | zero => omega
  | succ n ih =>
    rw [sumTo_succ]
    by_cases e : p = n
    · subst e
      rw [sumTo_eq_zero fun k hk => h k (by omega) (by omega), UnitLaws.zero_add]
    · rw [ih (by omega) fun k hk => h k (by omega), h n (by omega) (Ne.symm e), UnitLaws.add_zero]

end

/-! ## Folds over an order -/

section
variable {α : Type} [Scalar α] [OrderLaws α]

theorem larger_le_iff {a b c : α} (ha : IsNumber a) (hb : IsNumber b) :
    larger a b ≤ c ↔ a ≤ c ∧ b ≤ c := by
  unfold larger
  by_cases h : a ≤ b
  · rw [if_pos h]
    exact ⟨fun hc => ⟨OrderLaws.le_trans h hc, hc⟩, fun hc => hc.2⟩
  · have hba : b ≤ a := (OrderLaws.le_total ha hb).resolve_left h
    rw [if_neg h, if_pos (show a ≤ a from ha)]
    exact ⟨fun hc => ⟨hc, OrderLaws.le_trans hba hc⟩, fun hc => hc.1⟩

/-- what is not a number is passed over -/
theorem larger_of_not_isNumber {a b : α} (ha : IsNumber a) (hb : ¬ IsNumber b) : larger a b = a := by
  unfold larger
  rw [if_neg fun h => hb (OrderLaws.isNumber_right h), if_pos (show a ≤ a from ha)]

theorem isNumber_larger_left {a : α} (b : α) (ha : IsNumber a) : IsNumber (larger a b) := by
  unfold larger
  by_cases h : a ≤ b
  · rw [if_pos h]
    exact OrderLaws.isNumber_right h
  · rw [if_neg h, if_pos (show a ≤ a from ha)]
    exact ha

omit [OrderLaws α] in
theorem isNumber_larger_right (a : α) {b : α} (hb : IsNumber b) : IsNumber (larger a b) := by
  unfold larger
  by_cases h : a ≤ b
  · rw [if_pos h]
    exact hb
  · rw [if_neg h]
    by_cases ha : a ≤ a
    · rw [if_pos ha]
      exact ha
    · rw [if_neg ha]
      exact hb

theorem foldl_greatest_le_iff {xs : List α} (hxs : ∀ x ∈ xs, IsNumber x) {a : α} (ha : IsNumber a)
    (c : α) :
    xs.foldl (fun a b => if b ≤ a then a else b) a ≤ c ↔ a ≤ c ∧ ∀ x ∈ xs, x ≤ c := by
  induction xs generalizing a with
  | nil => simp
  | cons x xs ih =>
    rw [List.forall_mem_cons] at hxs
    rw [List.foldl_cons, List.forall_mem_cons]
    by_cases h : x ≤ a
    · rw [if_pos h, ih hxs.2 ha]
      exact ⟨fun ⟨hac, hs⟩ => ⟨hac, OrderLaws.le_trans h hac, hs⟩, fun ⟨hac, _, hs⟩ => ⟨hac, hs⟩⟩
    · have hax : a ≤ x := (OrderLaws.le_total ha hxs.1).resolve_right h
      rw [if_neg h, ih hxs.2 hxs.1]
      exact ⟨fun ⟨hxc, hs⟩ => ⟨OrderLaws.le_trans hax hxc, hxc, hs⟩, fun ⟨_, hxc, hs⟩ => ⟨hxc, hs⟩⟩

theorem le_foldl_least_iff {xs : List α} (hxs : ∀ x ∈ xs, IsNumber x) {a : α} (ha : IsNumber a)
    (c : α) :
    c ≤ xs.foldl (fun a b => if a ≤ b then a else b) a ↔ c ≤ a ∧ ∀ x ∈ xs, c ≤ x := by
  induction xs generalizing a with
  | nil => simp
  | cons x xs ih =>
    rw [List.forall_mem_cons] at hxs
    rw [List.foldl_cons, List.forall_mem_cons]
    by_cases h : a ≤ x
    · rw [if_pos h, ih hxs.2 ha]
      exact ⟨fun ⟨hca, hs⟩ => ⟨hca, OrderLaws.le_trans hca h, hs⟩, fun ⟨hca, _, hs⟩ => ⟨hca, hs⟩⟩
    · have hxa : x ≤ a := (OrderLaws.le_total ha hxs.1).resolve_left h
      rw [if_neg h, ih hxs.2 hxs.1]
      exact ⟨fun ⟨hcx, hs⟩ => ⟨OrderLaws.le_trans hcx hxa, hcx, hs⟩, fun ⟨_, hcx, hs⟩ => ⟨hcx, hs⟩⟩

omit [OrderLaws α] in
theorem isNumber_foldl {xs : List α} (hxs : ∀ x ∈ xs, IsNumber x) {pick : α → α → α}
    (hpick : ∀ a b, pick a b = a ∨ pick a b = b) {a : α} (ha : IsNumber a) :
    IsNumber (xs.foldl pick a) := by
  induction xs generalizing a with
  | nil => exact ha
  | cons x xs ih =>
    rw [List.forall_mem_cons] at hxs
    rw [List.foldl_cons]
    refine ih hxs.2 ?_
    rcases hpick a x with h | h
    · rw [h]
      exact ha
    · rw [h]
      exact hxs.1

theorem isNumber_foldFirst {xs : List α} (hxs : ∀ x ∈ xs, IsNumber x) {pick : α → α → α}
    (hpick : ∀ a b, pick a b = a ∨ pick a b = b) : IsNumber (foldFirst pick xs) := by
  cases xs with
  | nil => exact OrderLaws.isNumber_zero
  | cons x xs =>
    rw [List.forall_mem_cons] at hxs
    exact isNumber_foldl hxs.2 hpick hxs.1

theorem isNumber_greatest {xs : List α} (hxs : ∀ x ∈ xs, IsNumber x) : IsNumber (greatest xs) := by
  refine isNumber_foldFirst hxs fun a b => ?_
  show (if b ≤ a then a else b) = a ∨ (if b ≤ a then a else b) = b
  split
  · exact Or.inl rfl
  · exact Or.inr rfl

theorem isNumber_least {xs : List α} (hxs : ∀ x ∈ xs, IsNumber x) : IsNumber (least xs) := by
  refine isNumber_foldFirst hxs fun a b => ?_
  show (if a ≤ b then a else b) = a ∨ (if a ≤ b then a else b) = b
  split
  · exact Or.inl rfl
  · exact Or.inr rfl

/-- The greatest is a number or not as the last entry is: a later entry is passed over only for a
number that it is at most. -/
theorem isNumber_greatest_concat (xs : List α) (x : α) :
    IsNumber (greatest (xs ++ [x])) ↔ IsNumber x := by
  cases xs with
  | nil => exact Iff.rfl
  | cons y xs =>
    show IsNumber ((xs ++ [x]).foldl (fun a b => if b ≤ a then a else b) y) ↔ IsNumber x
    rw [List.foldl_append, List.foldl_cons, List.foldl_nil]
    split
    · next h => exact ⟨fun _ => OrderLaws.isNumber_left h, fun _ => OrderLaws.isNumber_right h⟩
    · exact Iff.rfl

/-- the greatest of no entries is zero, so the bound has to be one of zero as well -/
theorem greatest_le_iff {xs : List α} (hxs : ∀ x ∈ xs, IsNumber x) {c : α} (hc : 0 ≤ c) :
    greatest xs ≤ c ↔ ∀ x ∈ xs, x ≤ c := by
  cases xs with
  | nil => simpa [greatest, foldFirst] using hc
  | cons x xs =>
    rw [List.forall_mem_cons] at hxs ⊢
    exact foldl_greatest_le_iff hxs.2 hxs.1 c

theorem le_least_iff {xs : List α} (hxs : ∀ x ∈ xs, IsNumber x) {c : α} (hc : c ≤ 0) :
    c ≤ least xs ↔ ∀ x ∈ xs, c ≤ x := by
  cases xs with
  | nil => simpa [least, foldFirst] using hc
  | cons x xs =>
    rw [List.forall_mem_cons] at hxs ⊢
    exact le_foldl_least_iff hxs.2 hxs.1 c

end

theorem isNumber_abs_iff {α : Type} [Scalar α] [SignLaws α] {x : α} :
    IsNumber (Scalar.abs x) ↔ IsNumber x := by
  unfold Scalar.abs
  split
  · exact Iff.rfl
  · exact ⟨SignLaws.isNumber_of_neg, OrderLaws.isNumber_neg⟩

theorem abs_nonpos_iff {α : Type} [ExactScalar α] {x : α} : Scalar.abs x ≤ 0 ↔ x = 0 := by
  unfold Scalar.abs
  by_cases h : 0 ≤ x
  · rw [if_pos h]
    exact ⟨fun hx => le_antisymm hx h, fun hx => hx.le⟩
  · rw [if_neg h]
    have hx : x < 0 := lt_of_not_ge h
    exact ⟨fun hn => absurd (Left.neg_nonpos_iff.mp hn) h, fun h0 => absurd h0 hx.ne⟩

end Scalar

/-! ## Rational numbers -/

/-- The square root is that of a square; of other numbers it is the root of a nearby square. -/
instance : Scalar ℚ where
  sqrt := Rat.sqrt
  decideLe := inferInstance

instance : ExactScalar ℚ where
  __ := (inferInstance : Scalar ℚ)
  __ := (inferInstance : Field ℚ)
  __ := (inferInstance : LinearOrder ℚ)
  __ := (inferInstance : IsStrictOrderedRing ℚ)

/-- The smaller eigenvalue of a symmetric matrix of one or two rows; larger ones have no answer. -/
instance : Spectral ℚ where
  smallest? m :=
    match m.rows with
    | 1 => some (m.entry 0 0)
    | 2 =>
      let half := (m.entry 0 0 - m.entry 1 1) / 2
      some ((m.entry 0 0 + m.entry 1 1) / 2 - Rat.sqrt (half * half + m.entry 0 1 * m.entry 0 1))
    | _ => none

end ConvexProgram
