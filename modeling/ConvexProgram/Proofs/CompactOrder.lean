import Mathlib.Algebra.Ring.Int.Parity
import Mathlib.Data.Nat.Choose.Basic
import ConvexProgram.UpperTriangle
import ConvexProgram.Matrix.Lemmas

/-!
# The compact order and the places of the square

The compact order lists the positions on and above the diagonal of an `n × n` matrix by rows.  In a
matrix that is stored by columns each of them has two places, its own and that of its mirror image,
or one on the diagonal.  A place `r` belongs to one position only, the unordered pair of its row
`r % n` and its column `r / n` (`UpperTriangle.positionAt`), so all positions together have the
places of the square, each once.

* `UpperTriangle.getElem?_indices_iff`   `(i, j)` stands in `indices n` at `position n i j`, for
  `i ≤ j < n`, and nowhere else;
* `UpperTriangle.cast_position`          its closed form, with nothing cut off at zero;
* `UpperTriangle.mem_placesOf_iff`       a place is that of one position, and below `n * n`;
* `UpperTriangle.perm_places`            the places of all positions are `0, …, n * n - 1`, each once.
-/

namespace ConvexProgram
namespace UpperTriangle

/-! ## The order of the positions -/

/-- The positions of row `i` on and right of the diagonal. -/
def rowIndices (n i : Nat) : List (Nat × Nat) := (List.range (n - i)).map fun d => (i, i + d)

theorem indices_eq_flatMap (n : Nat) : indices n = (List.range n).flatMap (rowIndices n) := rfl

theorem mem_rowIndices {n i : Nat} {p : Nat × Nat} :
    p ∈ rowIndices n i ↔ p.1 = i ∧ i ≤ p.2 ∧ p.2 < n := by
  obtain ⟨a, b⟩ := p
  unfold rowIndices
  rw [List.mem_map]
  constructor
  · rintro ⟨d, hd, h⟩
    rw [List.mem_range] at hd
    cases h
    exact ⟨rfl, by omega, by omega⟩
  · rintro ⟨rfl, hab, hb⟩
    refine ⟨b - a, List.mem_range.mpr (by show b - a < n - a; omega), ?_⟩
    show (a, a + (b - a)) = (a, b)
    rw [Nat.add_sub_cancel' hab]

theorem mem_indices {n i j : Nat} : (i, j) ∈ indices n ↔ i ≤ j ∧ j < n := by
  rw [indices_eq_flatMap, List.mem_flatMap]
  constructor
  · rintro ⟨a, _, h⟩
    obtain ⟨ha, haj, hj⟩ := mem_rowIndices.mp h
    have : i = a := ha
    exact ⟨by omega, hj⟩
  · rintro ⟨hij, hj⟩
    exact ⟨i, List.mem_range.mpr (by omega), mem_rowIndices.mpr ⟨rfl, hij, hj⟩⟩

/-- The positions go up by rows. -/
theorem pairwise_indices (n : Nat) :
    (indices n).Pairwise fun p q => p.1 < q.1 ∨ p.1 = q.1 ∧ p.2 < q.2 := by
  rw [indices_eq_flatMap, List.pairwise_flatMap]
  constructor
  · intro i _
    unfold rowIndices
    rw [List.pairwise_map]
    refine List.pairwise_lt_range.imp fun {d d'} h => Or.inr ⟨rfl, ?_⟩
    show i + d < i + d'
    omega
  · refine List.pairwise_lt_range.imp fun {i i'} h p hp q hq => Or.inl ?_
    rw [(mem_rowIndices.mp hp).1, (mem_rowIndices.mp hq).1]
    exact h

theorem nodup_indices (n : Nat) : (indices n).Nodup := by
  refine (pairwise_indices n).imp ?_
  rintro p q h rfl
  omega

/-- The first `m` rows have `m * n` positions, less those left of the diagonal. -/
theorem length_rows_add {n m : Nat} (h : m ≤ n) :
    ((List.range m).flatMap (rowIndices n)).length + m * (m - 1) / 2 = m * n := by
  induction m with
  | zero => simp
  | succ m ih =>
    have hrow : (rowIndices n m).length = n - m := by simp [rowIndices]
    have htri := Nat.triangle_succ m
    have hmul := Nat.add_one_mul m n
    have ih' := ih (by omega)
    rw [List.range_succ, List.flatMap_append, List.length_append, List.flatMap_singleton, hrow]
    omega

theorem length_indices (n : Nat) : (indices n).length = length n := by
  have h := length_rows_add (le_refl n)
  have htri := Nat.triangle_succ n
  have heven : 2 * (n * (n - 1) / 2) = n * (n - 1) :=
    Nat.mul_div_cancel' (Nat.even_mul_pred_self n).two_dvd
  have hsq : n * n = n * (n - 1) + n := by
    cases n with
    | zero => rfl
    | succ n => rw [Nat.add_sub_cancel, ← Nat.mul_succ]
  rw [Nat.add_sub_cancel, Nat.mul_comm] at htri
  rw [← indices_eq_flatMap] at h
  unfold length
  omega

theorem position_eq {n i : Nat} (j : Nat) (h : i ≤ n) :
    position n i j = ((List.range i).flatMap (rowIndices n)).length + (j - i) := by
  have := length_rows_add h
  unfold position
  omega

theorem getElem?_rows {n m i j : Nat} (hm : m ≤ n) (hi : i < m) (hij : i ≤ j) (hj : j < n) :
    ((List.range m).flatMap (rowIndices n))[position n i j]? = some (i, j) := by
  induction m with
  | zero => omega
  | succ m ih =>
    rw [List.range_succ, List.flatMap_append, List.flatMap_singleton]
    by_cases e : i = m
    · subst e
      rw [position_eq j (by omega), List.getElem?_append_right (by omega), Nat.add_sub_cancel_left]
      have hd : j - i < n - i := by omega
      simp [rowIndices, hd, Nat.add_sub_cancel' hij]
    · have hin := ih (by omega) (by omega)
      obtain ⟨hlt, _⟩ := List.getElem?_eq_some_iff.mp hin
      rw [List.getElem?_append_left hlt, hin]

theorem getElem?_indices {n i j : Nat} (hij : i ≤ j) (hj : j < n) :
    (indices n)[position n i j]? = some (i, j) :=
  getElem?_rows (le_refl n) (by omega) hij hj

theorem position_lt {n i j : Nat} (hij : i ≤ j) (hj : j < n) : position n i j < length n := by
  obtain ⟨h, _⟩ := List.getElem?_eq_some_iff.mp (getElem?_indices hij hj)
  rwa [length_indices] at h

theorem getElem?_indices_iff {n i j k : Nat} :
    (indices n)[k]? = some (i, j) ↔ i ≤ j ∧ j < n ∧ k = position n i j := by
  constructor
  · intro h
    obtain ⟨hk, _⟩ := List.getElem?_eq_some_iff.mp h
    obtain ⟨hij, hj⟩ := mem_indices.mp (List.mem_of_getElem? h)
    have he : (indices n)[k]? = (indices n)[position n i j]? := h.trans (getElem?_indices hij hj).symm
    exact ⟨hij, hj, List.getElem?_inj hk (nodup_indices n) |>.mp he⟩
  · rintro ⟨hij, hj, rfl⟩
    exact getElem?_indices hij hj

/-- Every entry of a packed column stands somewhere on or above the diagonal. -/
theorem exists_position {n k : Nat} (hk : k < length n) :
    ∃ i j, i ≤ j ∧ j < n ∧ k = position n i j := by
  obtain ⟨⟨i, j⟩, hp⟩ : ∃ p, (indices n)[k]? = some p :=
    ⟨_, List.getElem?_eq_getElem (by rw [length_indices]; exact hk)⟩
  exact ⟨i, j, getElem?_indices_iff.mp hp⟩

/-- No subtraction in the closed form stops at zero. -/
theorem cast_position {n i j : Nat} (hi : i ≤ n) (hij : i ≤ j) :
    (position n i j : ℤ) = i * n - i * (i - 1) / 2 + (j - i) := by
  have hle : i * (i - 1) / 2 ≤ i * n := by
    have := length_rows_add hi
    omega
  have hpred : ((i * (i - 1) / 2 : ℕ) : ℤ) = i * (i - 1) / 2 := by
    cases i with
    | zero => rfl
    | succ i =>
      rw [Nat.add_sub_cancel]
      push_cast
      rw [add_sub_cancel_right]
  unfold position
  rw [Nat.cast_add, Nat.cast_sub hle, Nat.cast_sub hij, hpred, Nat.cast_mul]

/-! ## The places of a position -/

/-- A place by columns determines its row and column. -/
theorem place_inj {n i j a b : Nat} (hi : i < n) (ha : a < n) (h : i + j * n = a + b * n) :
    i = a ∧ j = b := by
  constructor
  · rw [← Matrix.place_mod j hi, h, Matrix.place_mod b ha]
  · rw [← Matrix.place_div j hi, h, Matrix.place_div b ha]

/-- The places by columns of an entry and of its mirror image; on the diagonal they are one. -/
def placesOf (n : Nat) (p : Nat × Nat) : List Nat :=
  if p.1 = p.2 then [p.1 + p.2 * n] else [p.1 + p.2 * n, p.2 + p.1 * n]

/-- The position on or above the diagonal to which place `r` belongs. -/
def positionAt (n r : Nat) : Nat × Nat := (min (r % n) (r / n), max (r % n) (r / n))

theorem mem_placesOf {n i j r : Nat} : r ∈ placesOf n (i, j) ↔ r = i + j * n ∨ r = j + i * n := by
  unfold placesOf
  by_cases h : i = j
  · simp [h]
  · simp [h]

theorem positionAt_place {n i j : Nat} (hi : i < n) :
    positionAt n (i + j * n) = (min i j, max i j) := by
  rw [positionAt, Matrix.place_mod j hi, Matrix.place_div j hi]

theorem positionAt_mem_indices {n r : Nat} (hr : r < n * n) : positionAt n r ∈ indices n := by
  have hmod : r % n < n := Matrix.mod_lt_of_lt_mul hr
  have hdiv : r / n < n := Matrix.div_lt_of_lt_mul hr
  exact mem_indices.mpr ⟨(min_le_left _ _).trans (le_max_left _ _), max_lt hmod hdiv⟩

/-- A place is one of the position that it belongs to, and of no other. -/
theorem mem_placesOf_iff {n r : Nat} {p : Nat × Nat} (hp : p ∈ indices n) :
    r ∈ placesOf n p ↔ r < n * n ∧ positionAt n r = p := by
  obtain ⟨i, j⟩ := p
  obtain ⟨hij, hj⟩ := mem_indices.mp hp
  have hi : i < n := hij.trans_lt hj
  rw [mem_placesOf]
  constructor
  · rintro (rfl | rfl)
    · exact ⟨Matrix.place_lt hi hj, by rw [positionAt_place hi, min_eq_left hij, max_eq_right hij]⟩
    · exact ⟨Matrix.place_lt hj hi, by rw [positionAt_place hj, min_eq_right hij, max_eq_left hij]⟩
  · rintro ⟨_, he⟩
    obtain ⟨hmin, hmax⟩ := Prod.mk.inj he
    have hr : r = r % n + r / n * n := (Nat.mod_add_div' r n).symm
    rcases le_total (r % n) (r / n) with h | h
    · rw [min_eq_left h] at hmin
      rw [max_eq_right h] at hmax
      exact Or.inl (by rw [← hmin, ← hmax]; exact hr)
    · rw [min_eq_right h] at hmin
      rw [max_eq_left h] at hmax
      exact Or.inr (by rw [← hmin, ← hmax]; exact hr)

theorem nodup_placesOf {n : Nat} {p : Nat × Nat} (hp : p ∈ indices n) : (placesOf n p).Nodup := by
  obtain ⟨i, j⟩ := p
  obtain ⟨hij, hj⟩ := mem_indices.mp hp
  unfold placesOf
  by_cases h : i = j
  · simp [h]
  · have hne : i + j * n ≠ j + i * n := fun e => h (place_inj (by omega) hj e).1
    simp [h, hne]

/-! ## The places of all positions -/

theorem mem_places {n r : Nat} : r ∈ (indices n).flatMap (placesOf n) ↔ r < n * n := by
  rw [List.mem_flatMap]
  constructor
  · rintro ⟨p, hp, hr⟩
    exact ((mem_placesOf_iff hp).mp hr).1
  · intro hr
    have hp := positionAt_mem_indices hr
    exact ⟨_, hp, (mem_placesOf_iff hp).mpr ⟨hr, rfl⟩⟩

theorem nodup_places (n : Nat) : ((indices n).flatMap (placesOf n)).Nodup := by
  refine List.pairwise_flatMap.mpr ⟨fun p hp => nodup_placesOf hp, ?_⟩
  -- a place that two positions had would belong to both
  refine (nodup_indices n).imp_of_mem fun {p q} hp hq hne r hr r' hr' he => hne ?_
  rw [← ((mem_placesOf_iff hp).mp hr).2, ← ((mem_placesOf_iff hq).mp hr').2, he]

/-- **The places of all positions are the places of the square, each once.** -/
theorem perm_places (n : Nat) : ((indices n).flatMap (placesOf n)).Perm (List.range (n * n)) := by
  refine (List.perm_ext_iff_of_nodup (nodup_places n) List.nodup_range).mpr fun r => ?_
  rw [mem_places, List.mem_range]

end UpperTriangle
end ConvexProgram
