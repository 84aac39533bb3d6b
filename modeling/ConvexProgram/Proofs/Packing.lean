import ConvexProgram.Proofs.Arithmetic
import ConvexProgram.Proofs.Assembly
import ConvexProgram.Proofs.CompactOrder

/-!
# The packed triangle and the fill matrix

The fill matrix is assembled from a triplet for each place of the square, so assembly drops and
merges none of them.

* `UpperTriangle.map_row_triplets`       the rows of the triplets are the places of all positions;
* `UpperTriangle.perm_stored_fill`       the triplets are what is stored;
* `UpperTriangle.compactOrder_covers`    the order, the places, and what is stored for them;
* `UpperTriangle.entry_fill`             row `i + j * n` of the fill matrix has a single one, at the
  place of the unordered pair `i, j`;
* `UpperTriangle.entry_symmetrize`       the symmetric matrix of a packed column has at `i, j` the entry
  of the column at the place of the unordered pair;
* `UpperTriangle.reshape?_fill_mul`      the fill matrix times a packed column lists this matrix.
-/

namespace ConvexProgram
namespace UpperTriangle

/-! ## The fill matrix -/

section
variable {α : Type} [Scalar α]

/-- the entries on and above the diagonal, by rows -/
def upper (m : Matrix α) : Array α := ((indices m.rows).map fun p => m.entry p.1 p.2).toArray

/-- The triplets that the fill matrix is assembled from. -/
def triplets (n : Nat) : List (Triplet α) := (indices n).zipIdx.flatMap (ones n)

theorem fill_eq_ofTriplets (n : Nat) :
    (fill n : Sparse α) = .ofTriplets (n * n) (length n) (triplets n) := rfl

@[simp] theorem rows_fill (n : Nat) : (fill n : Sparse α).rows = n * n := by
  rw [fill_eq_ofTriplets, Sparse.rows_ofTriplets]

@[simp] theorem cols_fill (n : Nat) : (fill n : Sparse α).cols = length n := by
  rw [fill_eq_ofTriplets, Sparse.cols_ofTriplets]

theorem map_row_ones (n : Nat) (place : (Nat × Nat) × Nat) :
    (ones n place : List (Triplet α)).map Triplet.row = placesOf n place.1 := by
  obtain ⟨⟨i, j⟩, k⟩ := place
  unfold ones placesOf
  by_cases h : i = j
  · simp [h]
  · simp [h]

theorem map_row_triplets (n : Nat) :
    (triplets n : List (Triplet α)).map Triplet.row = (indices n).flatMap (placesOf n) := by
  calc (triplets n : List (Triplet α)).map Triplet.row
      = (indices n).zipIdx.flatMap fun p => placesOf n p.1 := by
        rw [triplets, List.map_flatMap]
        exact congrArg (List.flatMap · _) (funext fun p => map_row_ones n p)
    _ = ((indices n).zipIdx.map Prod.fst).flatMap (placesOf n) := by rw [List.flatMap_map]
    _ = (indices n).flatMap (placesOf n) := by rw [List.zipIdx_map_fst]

theorem mem_ones {n i j k : Nat} {t : Triplet α} :
    t ∈ ones n ((i, j), k) ↔ t.value = 1 ∧ (t.At (i + j * n) k ∨ t.At (j + i * n) k) := by
  obtain ⟨r, c, x⟩ := t
  unfold ones Triplet.At
  by_cases h : i = j
  · subst h
    simp
    tauto
  · simp [h]
    tauto

theorem mem_triplets {n : Nat} {t : Triplet α} :
    t ∈ triplets n ↔ ∃ i j, i ≤ j ∧ j < n ∧ t.value = 1 ∧
      (t.At (i + j * n) (position n i j) ∨ t.At (j + i * n) (position n i j)) := by
  unfold triplets
  rw [List.mem_flatMap]
  constructor
  · rintro ⟨⟨⟨i, j⟩, k⟩, hk, ht⟩
    rw [List.mem_zipIdx_iff_getElem?] at hk
    obtain ⟨hij, hj, hp⟩ := getElem?_indices_iff.mp hk
    have hp : k = position n i j := hp
    obtain ⟨hx, hat⟩ := mem_ones.mp ht
    exact ⟨i, j, hij, hj, hx, hp ▸ hat⟩
  · rintro ⟨i, j, hij, hj, hx, hat⟩
    refine ⟨((i, j), position n i j), ?_, mem_ones.mpr ⟨hx, hat⟩⟩
    rw [List.mem_zipIdx_iff_getElem?]
    exact getElem?_indices hij hj

theorem triplets_inRange {n : Nat} :
    ∀ t ∈ (triplets n : List (Triplet α)), t.row < n * n ∧ t.col < length n := by
  intro t ht
  obtain ⟨i, j, hij, hj, _, ⟨hr, hc⟩ | ⟨hr, hc⟩⟩ := mem_triplets.mp ht
  · exact ⟨hr ▸ Matrix.place_lt (by omega) hj, hc ▸ position_lt hij hj⟩
  · exact ⟨hr ▸ Matrix.place_lt hj (by omega), hc ▸ position_lt hij hj⟩

/-- Each row has one triplet only, so no two stand at one place. -/
theorem pairwise_triplets (n : Nat) : (triplets n : List (Triplet α)).Pairwise Triplet.Apart := by
  have hrows : ((triplets n : List (Triplet α)).map Triplet.row).Nodup := by
    rw [map_row_triplets]
    exact nodup_places n
  exact (List.pairwise_map.mp hrows).imp fun hne hat => hne hat.1

/-- The fill matrix stores the triplets that it is assembled from, each as it is. -/
theorem perm_stored_fill (n : Nat) : (fill n : Sparse α).stored.Perm (triplets n) :=
  Sparse.perm_stored_ofTriplets triplets_inRange (pairwise_triplets n)

theorem length_triplets (n : Nat) : (triplets n : List (Triplet α)).length = n * n := by
  have hrows := (perm_places n).length_eq
  rwa [← map_row_triplets (α := α), List.length_map, List.length_range] at hrows

theorem count_fill (n : Nat) : (fill n : Sparse α).count = n * n :=
  (perm_stored_fill n).length_eq.trans (length_triplets n)

/-- **The compact order covers the square.**  The order lists the positions `i ≤ j < n`, as many as
the packed column has entries, going up by rows, and `(i, j)` stands at one index, given by a closed
form.  Their places by columns are all places of the square, each once, and the fill matrix is
assembled from a triplet in each of these rows; so none is dropped or merged, and `n * n` entries are
stored. -/
theorem compactOrder_covers (n : Nat) :
    ((indices n).length = length n ∧
      ((indices n).Pairwise fun p q => p.1 < q.1 ∨ p.1 = q.1 ∧ p.2 < q.2) ∧
      (∀ i j, (i, j) ∈ indices n ↔ i ≤ j ∧ j < n) ∧
      ∀ i j k : ℕ, (indices n)[k]? = some (i, j) ↔
        i ≤ j ∧ j < n ∧ (k : ℤ) = i * n - i * (i - 1) / 2 + (j - i)) ∧
    ((∀ i j, (i, j) ∈ indices n → i + j * n < n * n ∧ j + i * n < n * n) ∧
      ((indices n).flatMap (placesOf n)).Perm (List.range (n * n))) ∧
    ((fill n : Sparse α) = .ofTriplets (n * n) (length n) (triplets n) ∧
      (triplets n : List (Triplet α)).map Triplet.row = (indices n).flatMap (placesOf n) ∧
      (∀ t ∈ (triplets n : List (Triplet α)), t.row < n * n ∧ t.col < length n) ∧
      (fill n : Sparse α).stored.Perm (triplets n) ∧
      (fill n : Sparse α).count = n * n) := by
  refine ⟨⟨length_indices n, pairwise_indices n, fun i j => mem_indices, fun i j k => ?_⟩,
    ⟨fun i j h => ?_, perm_places n⟩,
    fill_eq_ofTriplets n, map_row_triplets n, triplets_inRange, perm_stored_fill n, count_fill n⟩
  · rw [getElem?_indices_iff]
    refine and_congr_right fun hij => and_congr_right fun hj => ?_
    rw [← cast_position (hij.trans hj.le) hij, Nat.cast_inj]
  · obtain ⟨hij, hj⟩ := mem_indices.mp h
    have hi : i < n := hij.trans_lt hj
    exact ⟨Matrix.place_lt hi hj, Matrix.place_lt hj hi⟩

theorem compactOrder_covers_three :
    (indices 3)[4]? = some (1, 2) ∧ (1, 2) ∈ indices 3 ∧ 1 + 2 * 3 < 3 * 3 ∧ 2 + 1 * 3 < 3 * 3 ∧
    (indices 3).flatMap (placesOf 3) = [0, 3, 1, 6, 2, 4, 7, 5, 8] ∧
    (⟨5, 4, 1⟩ : Triplet ℚ) ∈ (fill 3).stored ∧ (fill 3 : Sparse ℚ).count = 9 := by
  obtain ⟨⟨_, _, hmem, hplace⟩, ⟨hbelow, _⟩, _, _, _, hstored, hcount⟩ :=
    compactOrder_covers (α := ℚ) 3
  have hin : (1, 2) ∈ indices 3 := (hmem 1 2).mpr (by decide)
  obtain ⟨hupper, hlower⟩ := hbelow 1 2 hin
  have hk : (indices 3)[4]? = some (1, 2) := (hplace 1 2 4).mpr ⟨by decide, by decide, by decide⟩
  refine ⟨hk, hin, hupper, hlower, rfl, hstored.mem_iff.mpr ?_, hcount⟩
  exact mem_triplets.mpr ⟨1, 2, by decide, by decide, rfl, Or.inr ⟨rfl, rfl⟩⟩

/-- **Row `i + j * n` of the fill matrix has a single one**, in the column of the pair `i, j`. -/
theorem entry_fill [Scalar.UnitLaws α] {n i j k : Nat} (hi : i < n) (hj : j < n)
    (hk : k < length n) :
    (fill n : Sparse α).toMatrix.entry (i + j * n) k
      = if k = position n (min i j) (max i j) then 1 else 0 := by
  have hmem : ∀ t : Triplet α, t ∈ (fill n).stored ↔ t ∈ triplets n := fun t =>
    (perm_stored_fill n).mem_iff
  split
  · next h =>
    have ht : (⟨i + j * n, k, 1⟩ : Triplet α) ∈ (fill n).stored := by
      rw [hmem, mem_triplets]
      refine ⟨min i j, max i j, by omega, by omega, rfl, ?_⟩
      rcases le_total i j with hij | hij
      · rw [min_eq_left hij, max_eq_right hij] at h ⊢
        exact Or.inl ⟨rfl, h⟩
      · rw [min_eq_right hij, max_eq_left hij] at h ⊢
        exact Or.inr ⟨rfl, h⟩
    rw [Sparse.entry_toMatrix_of_mem ht, Scalar.UnitLaws.zero_add]
  · next h =>
    refine Sparse.entry_toMatrix_of_forall_ne ?_ ?_ fun t ht hat => h ?_
    · rw [rows_fill]
      exact Matrix.place_lt hi hj
    · rw [cols_fill]
      exact hk
    · rw [hmem, mem_triplets] at ht
      obtain ⟨a, b, hab, hb, _, ⟨hr, hc⟩ | ⟨hr, hc⟩⟩ := ht
      · obtain ⟨rfl, rfl⟩ := place_inj (by omega) hi (hr.symm.trans hat.1)
        rw [min_eq_left hab, max_eq_right hab, ← hc, hat.2]
      · obtain ⟨rfl, rfl⟩ := place_inj hb hi (hr.symm.trans hat.1)
        rw [min_eq_right hab, max_eq_left hab, ← hc, hat.2]

/-! ## The packed column of a matrix -/

theorem pack_of_square {m : Matrix α} (h : m.rows = m.cols) : pack m = .ok (.column (upper m)) := by
  unfold pack Matrix.square
  rw [if_pos h]
  rfl

theorem size_upper (m : Matrix α) : (upper m).size = length m.rows := by
  show ((indices m.rows).map _).length = _
  rw [List.length_map, length_indices]

theorem getD_upper {m : Matrix α} {i j : Nat} (hij : i ≤ j) (hj : j < m.rows) :
    (upper m).getD (position m.rows i j) 0 = m.entry i j := by
  have hk : (indices m.rows)[position m.rows i j]? = some (i, j) :=
    getElem?_indices_iff.mpr ⟨hij, hj, rfl⟩
  unfold upper
  rw [Array.getD_eq_getD_getElem?, List.getElem?_toArray, List.getElem?_map, hk]
  rfl

/-! ## The symmetric matrix of a packed column -/

section
variable [Scalar.ZeroLaws α]

theorem entry_symmetrize {n i j : Nat} (xs : Array α) (hi : i < n) (hj : j < n) :
    (symmetrize n xs).entry i j = xs.getD (position n (min i j) (max i j)) 0 := by
  have hup : ∀ {a b}, a < n → b < n → (strictUpper n xs).entry a b
      = if a < b then xs.getD (position n a b) 0 else 0 := fun ha hb => Matrix.entry_ofFn _ ha hb
  unfold symmetrize
  rw [Matrix.entry_ofFn _ hi hj]
  rcases lt_trichotomy i j with h | rfl | h
  · rw [if_neg h.ne, hup hi hj, hup hj hi, if_pos h, if_neg h.asymm, Scalar.ZeroLaws.add_zero,
      min_eq_left h.le, max_eq_right h.le]
  · rw [if_pos rfl, min_self, max_self]
  · rw [if_neg h.ne', hup hi hj, hup hj hi, if_neg h.asymm, if_pos h, Scalar.ZeroLaws.zero_add,
      min_eq_right h.le, max_eq_left h.le]

theorem symmetrize_transpose (n : Nat) (xs : Array α) :
    (symmetrize n xs).transpose = symmetrize n xs := by
  refine Matrix.ext_entry rfl rfl fun i j (hi : i < n) (hj : j < n) => ?_
  rw [Matrix.entry_transpose (m := symmetrize n xs) hi hj, entry_symmetrize xs hj hi,
    entry_symmetrize xs hi hj, min_comm, max_comm]

end

/-! ## The fill matrix on a packed column -/

variable [Scalar.UnitLaws α]

/-- **The fill matrix does what unpacking does**: its product with a packed column lists the
entries of the symmetric matrix by columns. -/
theorem entry_fill_mul {n i j : Nat} (xs : Array α) (hi : i < n) (hj : j < n) :
    ((fill n : Sparse α).toMatrix.mul (.column xs)).entry (i + j * n) 0
      = (symmetrize n xs).entry i j := by
  have hp : position n (min i j) (max i j) < length n := position_lt (by omega) (by omega)
  have hrows : (fill n : Sparse α).toMatrix.rows = n * n := by
    rw [Sparse.rows_toMatrix, rows_fill]
  have hcols : (fill n : Sparse α).toMatrix.cols = length n := by
    rw [Sparse.cols_toMatrix, cols_fill]
  rw [Matrix.entry_mul (hrows ▸ Matrix.place_lt hi hj) Nat.one_pos, hcols,
    Scalar.sumTo_eq_single hp, entry_fill hi hj hp, if_pos rfl, Scalar.UnitLaws.one_mul,
    Matrix.entry_column, entry_symmetrize xs hi hj]
  intro k hk hne
  rw [entry_fill hi hj hk, if_neg hne, Scalar.UnitLaws.zero_mul]

theorem reshape?_fill_mul (n : Nat) (xs : Array α) :
    ((fill n : Sparse α).toMatrix.mul (.column xs)).reshape? n n = some (symmetrize n xs) := by
  have hrows : (fill n : Sparse α).toMatrix.rows = n * n := by
    rw [Sparse.rows_toMatrix, rows_fill]
  have hsize : ((fill n : Sparse α).toMatrix.mul (.column xs)).size = n * n := by
    show (fill n : Sparse α).toMatrix.rows * 1 = n * n
    rw [hrows, Nat.mul_one]
  refine Matrix.reshape?_eq_some_iff.mpr ⟨hsize, rfl, rfl, ?_⟩
  refine Matrix.entries_eq_of_getD hsize.symm fun k hk => ?_
  have hk : k < n * n := hk
  have hi : k % n < n := Matrix.mod_lt_of_lt_mul hk
  have hj : k / n < n := Matrix.div_lt_of_lt_mul hk
  have h := entry_fill_mul xs hi hj
  rw [Nat.mod_add_div'] at h
  rw [Matrix.getD_entries (symmetrize n xs)]
  show (symmetrize n xs).entry (k % n) (k / n) = _
  rw [← h]
  unfold Matrix.entry
  rw [Nat.zero_mul, Nat.add_zero]

end

end UpperTriangle
end ConvexProgram
