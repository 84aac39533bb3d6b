import ConvexProgram.Proofs.Packing

/-!
# Packing and unpacking

A symmetric matrix is determined by its entries on and above the diagonal (`Matrix.Mirrors.unique`).
Packing lists these entries of a square matrix, and unpacking finds the symmetric matrix of such a
list; so each undoes the other (`packing_bijective`), and unpacking does what the fill matrix does
inside an expression (`unpack_eq_fill_mul`).
-/

namespace ConvexProgram

/-! ## Symmetric matrices -/

namespace Matrix

variable {α : Type} [Scalar α]

/-- An `n × n` matrix equal to its transpose. -/
structure IsSymmetricOf (n : Nat) (m : Matrix α) : Prop where
  rows : m.rows = n
  cols : m.cols = n
  transpose : m.transpose = m

/-- The symmetric matrix `s` has the entries of `m` on and above the diagonal. -/
structure Mirrors (m s : Matrix α) : Prop where
  symmetric : s.IsSymmetricOf m.rows
  entry : ∀ i j, i ≤ j → j < m.rows → s.entry i j = m.entry i j

theorem IsSymmetricOf.entry_comm {n i j : Nat} {m : Matrix α} (h : m.IsSymmetricOf n) (hi : i < n)
    (hj : j < n) : m.entry i j = m.entry j i := by
  have ht := entry_transpose (m := m) (h.cols.symm ▸ hi) (h.rows.symm ▸ hj)
  rwa [h.transpose] at ht

theorem Mirrors.unique {m s t : Matrix α} (hs : m.Mirrors s) (ht : m.Mirrors t) : s = t := by
  refine ext_entry (hs.symmetric.rows.trans ht.symmetric.rows.symm)
    (hs.symmetric.cols.trans ht.symmetric.cols.symm) fun i j hi hj => ?_
  rw [hs.symmetric.rows] at hi
  rw [hs.symmetric.cols] at hj
  rcases Nat.le_total i j with h | h
  · rw [hs.entry i j h hj, ht.entry i j h hj]
  · rw [hs.symmetric.entry_comm hi hj, ht.symmetric.entry_comm hi hj, hs.entry j i h hi,
      ht.entry j i h hi]

theorem mirrors_self {m : Matrix α} (h : m.transpose = m) : m.Mirrors m :=
  ⟨⟨rfl, congrArg rows h, h⟩, fun _ _ _ _ => rfl⟩

end Matrix

namespace UpperTriangle

variable {α : Type} [Scalar α]

/-! ## When packing and unpacking succeed -/

theorem pack_eq_ok_iff {m col : Matrix α} :
    pack m = .ok col ↔ m.rows = m.cols ∧ col = .column (upper m) := by
  constructor
  · intro h
    by_cases hsq : m.rows = m.cols
    · rw [pack_of_square hsq] at h
      exact ⟨hsq, (Except.ok.inj h).symm⟩
    · unfold pack Matrix.square at h
      rw [if_neg hsq] at h
      cases h
  · rintro ⟨hsq, rfl⟩
    exact pack_of_square hsq

theorem unpack_of_size {n : Nat} {c : Value α} (h : c.size = length n) :
    unpack n c = .ok (symmetrize n c.toMatrix.entries) := if_pos (c.size_toMatrix.trans h)

theorem unpack_of_size_ne {n : Nat} {c : Value α} (h : c.size ≠ length n) :
    unpack n c = .error (.packedLength (length n) c.shape) :=
  if_neg fun hs => h (c.size_toMatrix.symm.trans hs)

theorem unpack_eq_ok_iff {n : Nat} {c : Value α} {m : Matrix α} :
    unpack n c = .ok m ↔ c.size = length n ∧ m = symmetrize n c.toMatrix.entries := by
  constructor
  · intro h
    by_cases hs : c.size = length n
    · rw [unpack_of_size hs] at h
      exact ⟨hs, (Except.ok.inj h).symm⟩
    · rw [unpack_of_size_ne hs] at h
      cases h
  · rintro ⟨hs, rfl⟩
    exact unpack_of_size hs

/-! ## There and back -/

section
variable [Scalar.ZeroLaws α]

theorem isSymmetricOf_symmetrize (n : Nat) (xs : Array α) :
    (symmetrize n xs).IsSymmetricOf n := ⟨rfl, rfl, symmetrize_transpose n xs⟩

theorem upper_symmetrize {n : Nat} {xs : Array α} (h : xs.size = length n) :
    upper (symmetrize n xs) = xs := by
  have hsize : (upper (symmetrize n xs)).size = length n := size_upper _
  refine Matrix.entries_eq_of_getD (a := .column (upper (symmetrize n xs))) (b := .column xs) ?_ ?_
  · show (upper (symmetrize n xs)).size * 1 = xs.size * 1
    rw [hsize, h]
  · intro k hk
    have hk : k < (upper (symmetrize n xs)).size * 1 := hk
    obtain ⟨i, j, hij, hj, rfl⟩ := exists_position (n := n) (k := k) (by omega)
    calc (upper (symmetrize n xs)).getD (position n i j) 0
        = (symmetrize n xs).entry i j := getD_upper (m := symmetrize n xs) hij hj
      _ = xs.getD (position n (min i j) (max i j)) 0 := entry_symmetrize xs (by omega) hj
      _ = xs.getD (position n i j) 0 := by rw [min_eq_left hij, max_eq_right hij]

theorem mirrors_symmetrize_upper (m : Matrix α) : m.Mirrors (symmetrize m.rows (upper m)) := by
  refine ⟨isSymmetricOf_symmetrize _ _, fun i j hij hj => ?_⟩
  rw [entry_symmetrize _ (by omega) hj, min_eq_left hij, max_eq_right hij, getD_upper hij hj]

/-- **Unpacking gives back a symmetric matrix that was packed.** -/
theorem symmetrize_upper {m : Matrix α} (hm : m.transpose = m) : symmetrize m.rows (upper m) = m :=
  (mirrors_symmetrize_upper m).unique (Matrix.mirrors_self hm)

/-- Packing what was unpacked lists its entries again. -/
theorem pack_of_unpack {n : Nat} {c : Value α} {m : Matrix α} (h : unpack n c = .ok m) :
    pack m = .ok (.column c.toMatrix.entries) := by
  obtain ⟨hsize, rfl⟩ := unpack_eq_ok_iff.mp h
  have hentries : c.toMatrix.entries.size = length n := by
    rw [Matrix.size_entries, c.size_toMatrix, hsize]
  rw [pack_of_square (m := symmetrize n c.toMatrix.entries) rfl, upper_symmetrize hentries]

omit [Scalar.ZeroLaws α] in
theorem unpack_of_pack {m col : Matrix α} (h : pack m = .ok col) :
    unpack m.rows (.dense col) = .ok (symmetrize m.rows (upper m)) := by
  obtain ⟨_, rfl⟩ := pack_eq_ok_iff.mp h
  refine unpack_of_size ?_
  show (upper m).size * 1 = length m.rows
  rw [Nat.mul_one, size_upper]

/-- **Packing and unpacking undo each other.**  Any value with as many entries as the triangle has
is unpacked to a symmetric matrix, and packing this matrix lists the entries of the value again; and
a square matrix is packed to a column that unpacks to the one symmetric matrix with its entries on
and above the diagonal, which is the matrix itself if that is symmetric. -/
theorem packing_bijective :
    (∀ (n : Nat) (c : Value α),
      ((∃ m, unpack n c = .ok m) ↔ c.size = n * (n + 1) / 2) ∧
      (c.size ≠ n * (n + 1) / 2 → ∃ f, unpack n c = .error f ∧ f.kind = .shapeMismatch) ∧
      ∀ m, unpack n c = .ok m →
        m.IsSymmetricOf n ∧ pack m = .ok (.column c.toMatrix.entries)) ∧
    ∀ m : Matrix α,
      ((∃ col, pack m = .ok col) ↔ m.rows = m.cols) ∧
      ∀ col, pack m = .ok col → ∃ s, unpack m.rows (.dense col) = .ok s ∧
        (∀ t, m.Mirrors t ↔ t = s) ∧ (s = m ↔ m.transpose = m) := by
  constructor
  · intro n c
    refine ⟨⟨?_, fun h => ⟨_, unpack_of_size h⟩⟩, fun h => ⟨_, unpack_of_size_ne h, rfl⟩, ?_⟩
    · rintro ⟨m, hm⟩
      exact (unpack_eq_ok_iff.mp hm).1
    · intro m hm
      obtain ⟨_, rfl⟩ := unpack_eq_ok_iff.mp hm
      exact ⟨isSymmetricOf_symmetrize n _, pack_of_unpack hm⟩
  · intro m
    have hmirror := mirrors_symmetrize_upper m
    refine ⟨⟨?_, fun h => ⟨_, pack_of_square h⟩⟩, ?_⟩
    · rintro ⟨col, hcol⟩
      exact (pack_eq_ok_iff.mp hcol).1
    · intro col hcol
      refine ⟨_, unpack_of_pack hcol, fun t => ⟨fun ht => ht.unique hmirror, ?_⟩, ?_,
        symmetrize_upper⟩
      · rintro rfl
        exact hmirror
      · intro h
        rw [← h]
        exact symmetrize_transpose _ _

theorem packing_bijective_two :
    (∃ m, unpack 2 (.dense ⟨1, 3, #[(1 : ℚ), 2, 3], rfl⟩) = .ok m ∧ m.IsSymmetricOf 2 ∧
      pack m = .ok (.column #[1, 2, 3])) ∧
    (∃ f, unpack 2 (.scalar (1 : ℚ)) = .error f ∧ f.kind = .shapeMismatch) ∧
    ∃ col s, pack (⟨2, 2, #[1, 5, 2, 3], rfl⟩ : Matrix ℚ) = .ok col ∧
      unpack 2 (.dense col) = .ok s ∧ (⟨2, 2, #[1, 5, 2, 3], rfl⟩ : Matrix ℚ).Mirrors s ∧
      s.entries = #[1, 2, 2, 3] := by
  obtain ⟨hunpack, hpack⟩ := packing_bijective (α := ℚ)
  obtain ⟨hok, _, hback⟩ := hunpack 2 (.dense ⟨1, 3, #[1, 2, 3], rfl⟩)
  obtain ⟨m, hm⟩ := hok.mpr rfl
  obtain ⟨_, herror, _⟩ := hunpack 2 (.scalar 1)
  obtain ⟨hcol, hthere⟩ := hpack ⟨2, 2, #[1, 5, 2, 3], rfl⟩
  obtain ⟨col, hcol⟩ := hcol.mpr rfl
  obtain ⟨s, hs, hmirror, _⟩ := hthere col hcol
  refine ⟨⟨m, hm, hback m hm⟩, herror (by decide), col, s, hcol, hs, (hmirror s).mpr rfl, ?_⟩
  rw [(unpack_eq_ok_iff.mp hs).2, (pack_eq_ok_iff.mp hcol).2]
  decide +kernel

end

/-! ## The fill matrix -/

/-- **The fill matrix does what unpacking does.**  A value with as many entries as the triangle has
is unpacked to the matrix whose entries by columns are the product of the fill matrix with the
entries of the value. -/
theorem unpack_eq_fill_mul [Scalar.UnitLaws α] {n : Nat} {c : Value α} (hc : c.size = length n) :
    ∃ m, unpack n c = .ok m ∧ m.rows = n ∧ m.cols = n ∧
      (fill n : Sparse α).toMatrix.cols = c.toMatrix.entries.size ∧
      ((fill n).toMatrix.mul (.column c.toMatrix.entries)).reshape? n n = some m ∧
      ∀ i j, i < n → j < n →
        m.entry i j = ((fill n).toMatrix.mul (.column c.toMatrix.entries)).entry (i + j * n) 0 := by
  have hcols : (fill n : Sparse α).toMatrix.cols = c.toMatrix.entries.size := by
    rw [Sparse.cols_toMatrix, cols_fill, Matrix.size_entries, c.size_toMatrix, hc]
  refine ⟨_, unpack_of_size hc, rfl, rfl, hcols, reshape?_fill_mul n _, fun i j hi hj => ?_⟩
  exact (entry_fill_mul _ hi hj).symm

theorem unpack_eq_fill_mul_three :
    (Value.ofColumn #[(1 : ℚ), 2, 3, 4, 5, 6]).size = length 3 ∧
    ∃ m, unpack 3 (.ofColumn #[(1 : ℚ), 2, 3, 4, 5, 6]) = .ok m ∧
      ((fill 3).toMatrix.mul (.column #[(1 : ℚ), 2, 3, 4, 5, 6])).reshape? 3 3 = some m ∧
      m.entries = #[1, 2, 3, 2, 4, 5, 3, 5, 6] := by
  have hc : (Value.ofColumn #[(1 : ℚ), 2, 3, 4, 5, 6]).size = length 3 := rfl
  obtain ⟨m, hm, _, _, _, hfill, _⟩ := unpack_eq_fill_mul hc
  refine ⟨hc, m, hm, hfill, ?_⟩
  rw [(unpack_eq_ok_iff.mp hm).2]
  decide +kernel

end UpperTriangle
end ConvexProgram
