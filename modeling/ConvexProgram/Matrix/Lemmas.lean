import ConvexProgram.Matrix.Basic

/-!
# Matrices by their entries

What each operation does to the sizes and to the entries.  Two matrices of the same sizes with the
same entries are equal (`Matrix.ext_entry`), so no proof needs to look at the stored list again.
-/

namespace ConvexProgram
namespace Matrix

/-! ## Places in the stored list -/

theorem place_lt {rows cols i j : Nat} (hi : i < rows) (hj : j < cols) :
    i + j * rows < rows * cols := by
  have h : (j + 1) * rows ≤ cols * rows := Nat.mul_le_mul_right rows hj
  rw [Nat.succ_mul] at h
  rw [Nat.mul_comm rows cols]
  omega

theorem place_mod {rows i : Nat} (j : Nat) (hi : i < rows) : (i + j * rows) % rows = i := by
  rw [Nat.add_mul_mod_self_right, Nat.mod_eq_of_lt hi]

theorem place_div {rows i : Nat} (j : Nat) (hi : i < rows) : (i + j * rows) / rows = j := by
  rw [Nat.add_mul_div_right _ _ (by omega), Nat.div_eq_of_lt hi, Nat.zero_add]

theorem mod_lt_of_lt_mul {rows cols k : Nat} (hk : k < rows * cols) : k % rows < rows :=
  Nat.mod_lt _ (Nat.pos_of_ne_zero fun h => by simp [h] at hk)

theorem div_lt_of_lt_mul {rows cols k : Nat} (hk : k < rows * cols) : k / rows < cols :=
  Nat.div_lt_of_lt_mul hk

/-! ## Equality and sizes -/

/-- Matrices with the same sizes and the same stored list are equal. -/
theorem ext_entries {α : Type} {a b : Matrix α} (hr : a.rows = b.rows) (hc : a.cols = b.cols)
    (he : a.entries = b.entries) : a = b := by
  cases a
  cases b
  cases hr
  cases hc
  cases he
  rfl

theorem size_entries {α : Type} (m : Matrix α) : m.entries.size = m.size := m.size_eq

theorem sizes_of_size_one {α : Type} {m : Matrix α} (h : m.size = 1) : m.rows = 1 ∧ m.cols = 1 :=
  ⟨Nat.eq_one_of_mul_eq_one_right h, Nat.eq_one_of_mul_eq_one_left h⟩

theorem map_map {α : Type} (f g : α → α) (m : Matrix α) :
    (m.map f).map g = m.map fun x => g (f x) :=
  ext_entries rfl rfl Array.map_map

section
variable {α : Type}

@[simp] theorem rows_ofFn (r c : Nat) (f : Nat → Nat → α) : (ofFn r c f).rows = r := rfl
@[simp] theorem cols_ofFn (r c : Nat) (f : Nat → Nat → α) : (ofFn r c f).cols = c := rfl
@[simp] theorem rows_map (f : α → α) (m : Matrix α) : (m.map f).rows = m.rows := rfl
@[simp] theorem cols_map (f : α → α) (m : Matrix α) : (m.map f).cols = m.cols := rfl
@[simp] theorem rows_filled (r c : Nat) (x : α) : (filled r c x).rows = r := rfl
@[simp] theorem cols_filled (r c : Nat) (x : α) : (filled r c x).cols = c := rfl
@[simp] theorem rows_single (x : α) : (single x).rows = 1 := rfl
@[simp] theorem cols_single (x : α) : (single x).cols = 1 := rfl
@[simp] theorem rows_column (xs : Array α) : (column xs).rows = xs.size := rfl
@[simp] theorem cols_column (xs : Array α) : (column xs).cols = 1 := rfl

end

variable {α : Type} [Scalar α]

/-- The stored list, place by place. -/
theorem getD_entries (m : Matrix α) (k : Nat) :
    m.entries.getD k 0 = m.entry (k % m.rows) (k / m.rows) := by
  rw [entry, Nat.mod_add_div']

/-- Two stored lists of one length are equal if they agree place by place. -/
theorem entries_eq_of_getD {a b : Matrix α} (hs : a.size = b.size)
    (h : ∀ k, k < a.size → a.entries.getD k 0 = b.entries.getD k 0) : a.entries = b.entries := by
  refine Array.ext ?_ fun k hk hk' => ?_
  · rw [a.size_entries, b.size_entries, hs]
  · have hg := h k (a.size_entries ▸ hk)
    rwa [Array.getD_eq_getD_getElem?, Array.getD_eq_getD_getElem?,
      Array.getElem?_eq_getElem hk, Array.getElem?_eq_getElem hk'] at hg

/-- Matrices of the same sizes with the same entries are equal. -/
theorem ext_entry {a b : Matrix α} (hr : a.rows = b.rows) (hc : a.cols = b.cols)
    (he : ∀ i j, i < a.rows → j < a.cols → a.entry i j = b.entry i j) : a = b := by
  have hs : a.size = b.size := by rw [size, size, hr, hc]
  refine ext_entries hr hc (entries_eq_of_getD hs fun k hk => ?_)
  rw [getD_entries, getD_entries, ← hr]
  exact he _ _ (mod_lt_of_lt_mul hk) (div_lt_of_lt_mul hk)

/-! ## Sizes of results -/

@[simp] theorem rows_identity (n : Nat) : (identity n : Matrix α).rows = n := rfl
@[simp] theorem cols_identity (n : Nat) : (identity n : Matrix α).cols = n := rfl
@[simp] theorem rows_neg (m : Matrix α) : m.neg.rows = m.rows := rfl
@[simp] theorem cols_neg (m : Matrix α) : m.neg.cols = m.cols := rfl
@[simp] theorem rows_transpose (m : Matrix α) : m.transpose.rows = m.cols := rfl
@[simp] theorem cols_transpose (m : Matrix α) : m.transpose.cols = m.rows := rfl
@[simp] theorem rows_mul (a b : Matrix α) : (a.mul b).rows = a.rows := rfl
@[simp] theorem cols_mul (a b : Matrix α) : (a.mul b).cols = b.cols := rfl
@[simp] theorem rows_addAt (m : Matrix α) (i j : Nat) (x : α) : (m.addAt i j x).rows = m.rows := rfl
@[simp] theorem cols_addAt (m : Matrix α) (i j : Nat) (x : α) : (m.addAt i j x).cols = m.cols := rfl
@[simp] theorem rows_select (m : Matrix α) (r c : Selection) : (m.select r c).rows = r.count := rfl
@[simp] theorem cols_select (m : Matrix α) (r c : Selection) : (m.select r c).cols = c.count := rfl

/-! ## Entries -/

theorem entry_ofFn {r c i j : Nat} (f : Nat → Nat → α) (hi : i < r) (hj : j < c) :
    (ofFn r c f).entry i j = f i j := by
  have hk : i + j * r < r * c := place_lt hi hj
  rw [entry, rows_ofFn, Array.getD_eq_getD_getElem?]
  simp [ofFn, hk, Nat.mod_eq_of_lt hi, place_div j hi]

theorem ofFn_congr {r c : Nat} {f g : Nat → Nat → α} (h : ∀ i j, i < r → j < c → f i j = g i j) :
    ofFn r c f = ofFn r c g := by
  refine ext_entry rfl rfl fun i j (hi : i < r) (hj : j < c) => ?_
  rw [entry_ofFn f hi hj, entry_ofFn g hi hj]
  exact h i j hi hj

theorem entry_map {m : Matrix α} {i j : Nat} (f : α → α) (hi : i < m.rows) (hj : j < m.cols) :
    (m.map f).entry i j = f (m.entry i j) := by
  have hk : i + j * m.rows < m.entries.size := m.size_eq ▸ place_lt hi hj
  rw [entry, entry, rows_map, Array.getD_eq_getD_getElem?, Array.getD_eq_getD_getElem?]
  simp [map, Array.getElem?_eq_getElem hk]

theorem map_ofFn (h : α → α) (r c : Nat) (f : Nat → Nat → α) :
    (ofFn r c f).map h = ofFn r c fun i j => h (f i j) := by
  refine ext_entry rfl rfl fun i j (hi : i < r) (hj : j < c) => ?_
  rw [entry_map (m := ofFn r c f) h hi hj, entry_ofFn f hi hj, entry_ofFn _ hi hj]

theorem entry_neg {m : Matrix α} {i j : Nat} (hi : i < m.rows) (hj : j < m.cols) :
    m.neg.entry i j = -m.entry i j := entry_map _ hi hj

theorem entry_filled {r c i j : Nat} (x : α) (hi : i < r) (hj : j < c) :
    (filled r c x).entry i j = x := entry_ofFn _ hi hj

@[simp] theorem entry_single (x : α) : (single x).entry 0 0 = x :=
  entry_filled x Nat.one_pos Nat.one_pos

theorem single_entry {m : Matrix α} (hr : m.rows = 1) (hc : m.cols = 1) :
    single (m.entry 0 0) = m := by
  refine ext_entry hr.symm hc.symm fun i j (hi : i < 1) (hj : j < 1) => ?_
  obtain rfl : i = 0 := by omega
  obtain rfl : j = 0 := by omega
  exact entry_single (m.entry 0 0)

theorem entry_column {xs : Array α} {i : Nat} : (column xs).entry i 0 = xs.getD i 0 := by
  simp [entry, column]

theorem entry_transpose {m : Matrix α} {i j : Nat} (hi : i < m.cols) (hj : j < m.rows) :
    m.transpose.entry i j = m.entry j i := entry_ofFn _ hi hj

@[simp] theorem transpose_transpose (m : Matrix α) : m.transpose.transpose = m :=
  ext_entry rfl rfl fun i j (hi : i < m.rows) (hj : j < m.cols) => by
    rw [entry_transpose (m := m.transpose) hi hj, entry_transpose hj hi]

theorem entry_mul {a b : Matrix α} {i j : Nat} (hi : i < a.rows) (hj : j < b.cols) :
    (a.mul b).entry i j = Scalar.sumTo a.cols fun k => a.entry i k * b.entry k j :=
  entry_ofFn _ hi hj

theorem entry_select {m : Matrix α} {r c : Selection} {i j : Nat} (hi : i < r.count)
    (hj : j < c.count) : (m.select r c).entry i j = m.entry (r.nth i) (c.nth j) :=
  entry_ofFn _ hi hj

theorem entry_diagonal {m : Matrix α} {i : Nat} (hi : i < min m.rows m.cols) :
    m.diagonal.entry i 0 = m.entry i i := entry_ofFn _ hi Nat.one_pos

theorem entry_addAt {m : Matrix α} {r c i j : Nat} (x : α) (hr : r < m.rows)
    (hi : i < m.rows) (hj : j < m.cols) :
    (m.addAt r c x).entry i j = if i = r ∧ j = c then m.entry i j + x else m.entry i j := by
  have hk : i + j * m.rows < m.entries.size := m.size_eq ▸ place_lt hi hj
  rw [entry, entry, rows_addAt, Array.getD_eq_getD_getElem?, Array.getD_eq_getD_getElem?]
  simp only [addAt, Array.getElem?_modify]
  by_cases h : i = r ∧ j = c
  · obtain ⟨rfl, rfl⟩ := h
    simp [Array.getElem?_eq_getElem hk]
  · have hne : r + c * m.rows ≠ i + j * m.rows := by
      intro he
      refine h ⟨?_, ?_⟩
      · rw [← place_mod j hi, ← he, place_mod c hr]
      · rw [← place_div j hi, ← he, place_div c hr]
    rw [if_neg h, if_neg hne]

/-! ## Reshaping -/

omit [Scalar α] in
/-- A reshape keeps the stored list and needs exactly as many entries. -/
theorem reshape?_eq_some_iff {r c : Nat} {m n : Matrix α} :
    m.reshape? r c = some n ↔ m.size = r * c ∧ n.rows = r ∧ n.cols = c ∧ n.entries = m.entries := by
  unfold reshape? ofColumns?
  constructor
  · intro h
    split at h
    · next hs =>
      cases h
      exact ⟨m.size_entries.symm.trans hs, rfl, rfl, rfl⟩
    · cases h
  · rintro ⟨hs, hr, hc, he⟩
    rw [dif_pos (m.size_entries.trans hs)]
    exact congrArg some (ext_entries hr.symm hc.symm he.symm)

end Matrix
end ConvexProgram
