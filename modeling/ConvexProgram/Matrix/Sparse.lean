import ConvexProgram.Matrix.Basic

/-!
# Sparse matrices

A sparse matrix lists its stored entries by column and then row, each position once.  It is
assembled from triplets in any order: a triplet outside the matrix is dropped, and a position that
is written twice stores the sum.  A stored zero stays stored.

* `Triplet.Before`        the order of the list: by column, then by row;
* `Sparse.insert`         adds one triplet;
* `Sparse.ofTriplets`     assembles a list of them;
* `Sparse.toMatrix`       the dense matrix, with zero where nothing is stored.
-/

namespace ConvexProgram

structure Triplet (α : Type) where
  row : Nat
  col : Nat
  value : α

namespace Triplet

variable {α : Type}

/-- By column, and by row within a column. -/
def Before (s t : Triplet α) : Prop := s.col < t.col ∨ s.col = t.col ∧ s.row < t.row

instance (s t : Triplet α) : Decidable (s.Before t) :=
  inferInstanceAs (Decidable (_ ∨ _))

theorem Before.trans {s t u : Triplet α} (h : s.Before t) (h' : t.Before u) : s.Before u := by
  unfold Before at *
  omega

theorem eq_pos_of_not_before {s t : Triplet α} (h : ¬s.Before t) (h' : ¬t.Before s) :
    s.row = t.row ∧ s.col = t.col := by
  unfold Before at *
  omega

/-- Puts a triplet into a sorted list; at a position that is there already it is added. -/
def insertSorted [Add α] (t : Triplet α) : List (Triplet α) → List (Triplet α)
  | [] => [t]
  | s :: ss =>
    if t.Before s then t :: s :: ss
    else if s.Before t then s :: insertSorted t ss
    else { s with value := s.value + t.value } :: ss

/-- Every position of the new list is that of an old triplet or of the inserted one. -/
theorem mem_insertSorted [Add α] {t u : Triplet α} {ss : List (Triplet α)}
    (h : u ∈ insertSorted t ss) :
    u.row = t.row ∧ u.col = t.col ∨ ∃ s ∈ ss, u.row = s.row ∧ u.col = s.col := by
  induction ss with
  | nil =>
    simp only [insertSorted, List.mem_singleton] at h
    exact .inl ⟨by rw [h], by rw [h]⟩
  | cons s ss ih =>
    simp only [insertSorted] at h
    split at h
    · rcases List.mem_cons.mp h with rfl | h
      · exact .inl ⟨rfl, rfl⟩
      · exact .inr ⟨u, h, rfl, rfl⟩
    · split at h
      · rcases List.mem_cons.mp h with rfl | h
        · exact .inr ⟨u, List.mem_cons_self, rfl, rfl⟩
        · rcases ih h with h | ⟨v, hv, hp⟩
          · exact .inl h
          · exact .inr ⟨v, List.mem_cons_of_mem _ hv, hp⟩
      · rcases List.mem_cons.mp h with rfl | h
        · exact .inr ⟨s, List.mem_cons_self, rfl, rfl⟩
        · exact .inr ⟨u, List.mem_cons_of_mem _ h, rfl, rfl⟩

theorem sorted_insertSorted [Add α] (t : Triplet α) {ss : List (Triplet α)}
    (h : ss.Pairwise Before) : (insertSorted t ss).Pairwise Before := by
  induction ss with
  | nil => exact List.pairwise_singleton _ _
  | cons s ss ih =>
    obtain ⟨hs, hss⟩ := List.pairwise_cons.mp h
    simp only [insertSorted]
    split
    · next ht =>
      refine List.pairwise_cons.mpr ⟨fun u hu => ?_, h⟩
      rcases List.mem_cons.mp hu with rfl | hu
      · exact ht
      · exact ht.trans (hs u hu)
    · split
      · next ht =>
        refine List.pairwise_cons.mpr ⟨fun u hu => ?_, ih hss⟩
        rcases mem_insertSorted hu with ⟨hr, hc⟩ | ⟨v, hv, hr, hc⟩
        · unfold Before at *
          omega
        · have := hs v hv
          unfold Before at *
          omega
      · exact List.pairwise_cons.mpr ⟨hs, hss⟩

end Triplet

/-- A `rows × cols` matrix with its stored entries by column and then row. -/
structure Sparse (α : Type) where
  rows : Nat
  cols : Nat
  stored : List (Triplet α)
  inRange : ∀ t ∈ stored, t.row < rows ∧ t.col < cols
  sorted : stored.Pairwise Triplet.Before

namespace Sparse

variable {α : Type}

/-- The number of positions, stored or not. -/
def size (s : Sparse α) : Nat := s.rows * s.cols

def count (s : Sparse α) : Nat := s.stored.length

def empty (rows cols : Nat) : Sparse α := ⟨rows, cols, [], by simp, .nil⟩

/-- Adds a triplet at its position; one outside the matrix changes nothing. -/
def insert [Add α] (s : Sparse α) (t : Triplet α) : Sparse α :=
  if h : t.row < s.rows ∧ t.col < s.cols then
    { s with
      stored := t.insertSorted s.stored
      inRange := fun u hu => by
        rcases Triplet.mem_insertSorted hu with ⟨hr, hc⟩ | ⟨v, hv, hr, hc⟩
        · rw [hr, hc]
          exact h
        · rw [hr, hc]
          exact s.inRange v hv
      sorted := Triplet.sorted_insertSorted t s.sorted }
  else s

/-- The matrix of a list of triplets, added in order. -/
def ofTriplets [Add α] (rows cols : Nat) (ts : List (Triplet α)) : Sparse α :=
  ts.foldl insert (empty rows cols)

/-- The dense matrix with the stored entries, and zero elsewhere. -/
def toMatrix [Scalar α] (s : Sparse α) : Matrix α :=
  s.stored.foldl (fun m t => m.addAt t.row t.col t.value) (Matrix.filled s.rows s.cols 0)

end Sparse
end ConvexProgram
