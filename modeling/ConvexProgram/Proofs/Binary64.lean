import Mathlib
import ConvexProgram.Proofs.Arithmetic

/-!
# The order of floating-point numbers

A float is unpacked to a sign, an exponent and a mantissa.  The order of floats is that of the ranks
of these (`Binary64.le_iff_rank`), and a change of sign survives packing the result again
(`Binary64.unpack_pack_neg`).  So `Float` has the laws of `Scalar.SignLaws`, and its numbers are all
floats but NaN (`Binary64.isNumber_iff_ne_nan`).
-/

namespace ConvexProgram
namespace Binary64

open Float.Model Float.Model.UnpackedFloat

/-! ## Ranks -/

/-- The place of a number among the others: first the infinities and the signs in order, then the
exponent and the mantissa. -/
def rank? : UnpackedFloat → Option (ℤ ×ₗ ℤ ×ₗ ℤ)
  | .notANumber => none
  | .infinity .negative => some (toLex (-2, toLex (0, 0)))
  | .finite .negative m e _ => some (toLex (-1, toLex (-e, -m)))
  | .zero _ => some (toLex (0, toLex (0, 0)))
  | .finite .positive m e _ => some (toLex (1, toLex (e, m)))
  | .infinity .positive => some (toLex (2, toLex (0, 0)))

theorem isLE_then_compare (e e' : ℤ) (m m' : ℕ) :
    ((compare e e').then (compare m m')).isLE = true ↔ e < e' ∨ e = e' ∧ m ≤ m' := by
  rw [Ordering.isLE_then_iff_or, compare_lt_iff_lt, compare_eq_iff_eq, Nat.isLE_compare]

theorem isGE_then_compare (e e' : ℤ) (m m' : ℕ) :
    ((compare e e').then (compare m m')).isGE = true ↔ e' < e ∨ e = e' ∧ m' ≤ m := by
  have hor : ∀ o o' : Ordering, (o.then o').isGE = true ↔ o = .gt ∨ o = .eq ∧ o'.isGE = true := by
    decide
  rw [hor, compare_gt_iff_gt, compare_eq_iff_eq, Nat.isGE_compare]

/-- **Floating-point numbers compare as their ranks.** -/
theorem le_iff_rank (a b : UnpackedFloat) :
    a.le b = true ↔ ∃ x y, rank? a = some x ∧ rank? b = some y ∧ x ≤ y := by
  -- only two finite numbers of one sign have to be looked into
  rcases a with (_ | _) | _ | _ | ⟨_ | _, m, e, _⟩ <;>
    rcases b with (_ | _) | _ | _ | ⟨_ | _, m', e', _⟩ <;>
    simp [UnpackedFloat.le, UnpackedFloat.compare, rank?, Prod.Lex.toLex_le_toLex,
      isLE_then_compare, isGE_then_compare]
  all_goals decide

/-! ## Change of sign -/

theorem rank?_neg_isSome (a : UnpackedFloat) : (rank? a.neg).isSome = (rank? a).isSome := by
  rcases a with (_ | _) | _ | _ | ⟨_ | _, m, e, _⟩ <;> rfl

theorem neg_le_zero (a : UnpackedFloat) (s : Sign) : a.neg.le (.zero s) = (UnpackedFloat.zero s).le a := by
  rcases a with (_ | _) | _ | _ | ⟨_ | _, m, e, _⟩ <;> rfl

section
variable {spec : Format}

/-- The bits of the number with the other sign. -/
def flip (b : BitVec spec.numBits) : BitVec spec.numBits :=
  packComponents spec (-(Sign.ofBitVec (unpackSign b))) (unpackExponent b) (unpackMantissa b)

theorem neg_unpack (b : BitVec spec.numBits) :
    (UnpackedFloat.unpack spec b).neg = UnpackedFloat.unpack spec (flip b) := by
  unfold flip UnpackedFloat.unpack
  simp only [unpackExponent_packComponents, unpackMantissa_packComponents,
    unpackSign_packComponents, Sign.ofBitVec_toBitVec]
  split
  · split
    · rfl
    · rfl
  · split
    · split
      · rfl
      · rfl
    · rfl

theorem unpack_pack_unpack (b : BitVec spec.numBits) (hspec : 2 ≤ spec.exponentBits) :
    UnpackedFloat.unpack spec (UnpackedFloat.pack spec (UnpackedFloat.unpack spec b))
      = UnpackedFloat.unpack spec b := by
  rw [pack_unpack b hspec]
  split
  · -- every NaN is packed to the bits of one
    next h =>
      obtain ⟨he, hm⟩ := of_decide_eq_true h
      have hnan : UnpackedFloat.unpack spec b = .notANumber := by
        unfold UnpackedFloat.unpack
        rw [if_pos he, if_neg hm]
      rw [unpack_packedNaN, hnan]
  · rfl

end

/-- **A change of sign survives packing.** -/
theorem unpack_pack_neg (a : Float.Model) :
    (Float.Model.pack a.unpack.neg).unpack = a.unpack.neg := by
  show UnpackedFloat.unpack _ (UnpackedFloat.pack _ (UnpackedFloat.unpack _ _).neg) = _
  rw [neg_unpack, unpack_pack_unpack _ (by decide), ← neg_unpack]
  rfl

/-! ## The order of floats -/

theorem float_le_iff {a b : Float} :
    a ≤ b ↔ a.toModel.unpack.le b.toModel.unpack = true := by
  show decide (a.toModel.unpack.le b.toModel.unpack = true) = true ↔ _
  rw [decide_eq_true_iff]

theorem float_le_iff_rank {a b : Float} : a ≤ b ↔
    ∃ x y, rank? a.toModel.unpack = some x ∧ rank? b.toModel.unpack = some y ∧ x ≤ y := by
  rw [float_le_iff]
  exact le_iff_rank a.toModel.unpack b.toModel.unpack

theorem isNumber_iff_rank {a : Float} :
    Scalar.IsNumber a ↔ ∃ x, rank? a.toModel.unpack = some x := by
  constructor
  · intro h
    obtain ⟨x, _, hx, _, _⟩ := float_le_iff_rank.mp h
    exact ⟨x, hx⟩
  · intro ⟨x, hx⟩
    exact float_le_iff_rank.mpr ⟨x, x, hx, hx, le_rfl⟩

/-- The numbers among the floats are all but NaN. -/
theorem isNumber_iff_ne_nan {a : Float} : Scalar.IsNumber a ↔ a ≠ Float.nan := by
  have hnan : a = Float.nan ↔ a.toModel.unpack = .notANumber := by
    rw [← isNaN_iff]
    show a = Float.nan ↔ a.isNaN = true
    rw [Float.isNaN_eq_decide_eq_nan, decide_eq_true_iff]
  rw [isNumber_iff_rank, ne_eq, hnan]
  cases a.toModel.unpack with
  | notANumber => simp [rank?]
  | infinity s => cases s <;> simp [rank?]
  | zero s => simp [rank?]
  | finite s m e hm => cases s <;> simp [rank?]

theorem unpack_neg (a : Float) : (-a).toModel.unpack = a.toModel.unpack.neg :=
  unpack_pack_neg a.toModel

theorem isNumber_neg_iff {a : Float} : Scalar.IsNumber (-a) ↔ Scalar.IsNumber a := by
  rw [isNumber_iff_rank, isNumber_iff_rank, ← Option.isSome_iff_exists, ← Option.isSome_iff_exists,
    unpack_neg, rank?_neg_isSome]

instance : Scalar.OrderLaws Float where
  isNumber_left := by
    intro a b h
    obtain ⟨x, _, hx, _, _⟩ := float_le_iff_rank.mp h
    exact isNumber_iff_rank.mpr ⟨x, hx⟩
  isNumber_right := by
    intro a b h
    obtain ⟨_, y, _, hy, _⟩ := float_le_iff_rank.mp h
    exact isNumber_iff_rank.mpr ⟨y, hy⟩
  le_trans := by
    intro a b c hab hbc
    obtain ⟨x, y, hx, hy, hxy⟩ := float_le_iff_rank.mp hab
    obtain ⟨y', z, hy', hz, hyz⟩ := float_le_iff_rank.mp hbc
    obtain rfl : y = y' := Option.some.inj (hy.symm.trans hy')
    exact float_le_iff_rank.mpr ⟨x, z, hx, hz, hxy.trans hyz⟩
  le_total := by
    intro a b ha hb
    obtain ⟨x, hx⟩ := isNumber_iff_rank.mp ha
    obtain ⟨y, hy⟩ := isNumber_iff_rank.mp hb
    rcases le_total x y with h | h
    · exact Or.inl (float_le_iff_rank.mpr ⟨x, y, hx, hy, h⟩)
    · exact Or.inr (float_le_iff_rank.mpr ⟨y, x, hy, hx, h⟩)
  isNumber_zero := by
    show (0 : Float) ≤ 0
    decide
  isNumber_neg := isNumber_neg_iff.mpr
  neg_nonpos := by
    intro a _
    have hz : (0 : Float).toModel.unpack = .zero .positive := by rfl
    show -a ≤ (0 : Float) ↔ (0 : Float) ≤ a
    rw [float_le_iff, float_le_iff, unpack_neg, hz, neg_le_zero]

instance : Scalar.SignLaws Float where
  isNumber_of_neg := isNumber_neg_iff.mp

end Binary64
end ConvexProgram
