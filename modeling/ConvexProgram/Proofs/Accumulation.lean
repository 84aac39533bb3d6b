import Mathlib.Algebra.BigOperators.Group.List.Basic
import Mathlib.Data.List.Dedup
import Mathlib.Data.List.Sort
import ConvexProgram.Proofs.Arithmetic
import ConvexProgram.Proofs.Assembly

/-!
# Accumulation of triplets

In exact arithmetic two lists of triplets say the same of a matrix if they mention the same places
with the same total at each (`Triplet.SameSums`).  Insertion into a sorted list says what the
triplet in front of the list says, so assembly keeps all that the triplets inside the matrix say;
and a sorted list, with each place once, is all there is to say.

* `Triplet.sameSums_insertSorted`            one step of the assembly;
* `Sparse.sameSums_stored_foldl_insert`      a whole run;
* `Triplet.SameSums.eq_of_sorted`            sorted lists with the same sums are equal;
* `Matrix.entry_addAll`                      the dense matrix has the totals as its entries;
* `assembly_exact`                           what is stored, what is read, and what does not matter.
-/

namespace ConvexProgram

namespace Triplet

variable {α : Type}

/-! ## What a list of triplets says -/

/-- The triplet stands inside a matrix with `r` rows and `c` columns. -/
def Within (r c : Nat) (t : Triplet α) : Prop := t.row < r ∧ t.col < c

def place (t : Triplet α) : Nat × Nat := (t.row, t.col)

/-- Some triplet of the list stands in row `i` and column `j`. -/
def Mentions (ts : List (Triplet α)) (i j : Nat) : Prop := ∃ t ∈ ts, t.At i j

instance (r c : Nat) (t : Triplet α) : Decidable (t.Within r c) := inferInstanceAs (Decidable (_ ∧ _))

instance (t : Triplet α) (i j : Nat) : Decidable (t.At i j) := inferInstanceAs (Decidable (_ ∧ _))

theorem mem_map_place_iff {ts : List (Triplet α)} {p : Nat × Nat} :
    p ∈ ts.map place ↔ Mentions ts p.1 p.2 := by
  rw [List.mem_map]
  exact exists_congr fun t => and_congr_right fun _ => Prod.ext_iff

theorem mentions_cons {t : Triplet α} {ts : List (Triplet α)} {i j : Nat} :
    Mentions (t :: ts) i j ↔ t.At i j ∨ Mentions ts i j := List.exists_mem_cons_iff _ _ _

theorem nodup_map_place {ts : List (Triplet α)} (h : ts.Pairwise Apart) : (ts.map place).Nodup :=
  List.pairwise_map.mpr (h.imp fun hst he => hst ⟨congrArg Prod.fst he, congrArg Prod.snd he⟩)

variable [ExactScalar α]

/-- The sum of the values of all triplets in row `i` and column `j`. -/
def total (ts : List (Triplet α)) (i j : Nat) : α := ((ts.filter fun t => t.At i j).map value).sum

theorem total_cons (t : Triplet α) (ts : List (Triplet α)) (i j : Nat) :
    total (t :: ts) i j = (if t.At i j then t.value else 0) + total ts i j := by
  unfold total
  by_cases h : t.At i j
  · rw [if_pos h, List.filter_cons_of_pos (by simpa using h), List.map_cons, List.sum_cons]
  · rw [if_neg h, List.filter_cons_of_neg (by simpa using h), zero_add]

theorem total_of_forall_ne {ts : List (Triplet α)} {i j : Nat} (h : ∀ t ∈ ts, ¬t.At i j) :
    total ts i j = 0 := by
  have hnil : (ts.filter fun t => t.At i j) = [] :=
    List.filter_eq_nil_iff.mpr fun t ht => by simpa using h t ht
  rw [total, hnil]
  exact List.sum_nil

/-- Where each place comes once, the total at a place is the value that stands there. -/
theorem total_of_mem {ts : List (Triplet α)} {t : Triplet α} (hts : ts.Pairwise Apart) (ht : t ∈ ts) :
    total ts t.row t.col = t.value := by
  induction ts with
  | nil => exact absurd ht List.not_mem_nil
  | cons s ts ih =>
    rw [List.pairwise_cons] at hts
    rw [total_cons]
    rcases List.mem_cons.mp ht with rfl | ht
    · have hrest : ∀ u ∈ ts, ¬u.At t.row t.col := fun u hu => (hts.1 u hu).symm
      rw [if_pos ⟨rfl, rfl⟩, total_of_forall_ne hrest, add_zero]
    · rw [if_neg (hts.1 t ht), ih hts.2 ht, zero_add]

theorem total_filter_within {r c i j : Nat} (hi : i < r) (hj : j < c) (ts : List (Triplet α)) :
    total (ts.filter fun t => t.Within r c) i j = total ts i j := by
  unfold total
  rw [List.filter_filter]
  refine congrArg (fun us : List (Triplet α) => (us.map value).sum) (List.filter_congr fun t _ => ?_)
  have hwithin : t.At i j → t.Within r c := fun ⟨hr, hc⟩ => ⟨hr ▸ hi, hc ▸ hj⟩
  rw [← Bool.decide_and, decide_eq_decide]
  exact and_iff_left_of_imp hwithin

/-- The lists mention the same places, with the same total at each. -/
structure SameSums (ss ts : List (Triplet α)) : Prop where
  mentions : ∀ i j, Mentions ss i j ↔ Mentions ts i j
  total : ∀ i j, total ss i j = total ts i j

namespace SameSums

variable {ss ts us : List (Triplet α)}

theorem refl (ts : List (Triplet α)) : SameSums ts ts := ⟨fun _ _ => .rfl, fun _ _ => rfl⟩

theorem trans (h : SameSums ss ts) (h' : SameSums ts us) : SameSums ss us :=
  ⟨fun i j => (h.mentions i j).trans (h'.mentions i j),
    fun i j => (h.total i j).trans (h'.total i j)⟩

theorem symm (h : SameSums ss ts) : SameSums ts ss :=
  ⟨fun i j => (h.mentions i j).symm, fun i j => (h.total i j).symm⟩

theorem of_perm (h : ss.Perm ts) : SameSums ss ts :=
  ⟨fun _ _ => exists_congr fun _ => and_congr_left fun _ => h.mem_iff,
    fun _ _ => ((h.filter _).map _).sum_eq⟩

theorem cons (t : Triplet α) (h : SameSums ss ts) : SameSums (t :: ss) (t :: ts) where
  mentions i j := by rw [mentions_cons, mentions_cons, h.mentions]
  total i j := by rw [total_cons, total_cons, h.total]

theorem append_left (us : List (Triplet α)) (h : SameSums ss ts) : SameSums (us ++ ss) (us ++ ts) := by
  induction us with
  | nil => exact h
  | cons u us ih => exact ih.cons u

/-- Two triplets at one place say what one with the sum of their values says. -/
theorem merge {s t : Triplet α} (h : s.row = t.row ∧ s.col = t.col) (ts : List (Triplet α)) :
    SameSums ({ s with value := s.value + t.value } :: ts) (t :: s :: ts) := by
  have hat : ∀ i j, t.At i j ↔ s.At i j := fun i j => by rw [At, At, h.1, h.2]
  refine ⟨fun i j => ?_, fun i j => ?_⟩
  · rw [mentions_cons, mentions_cons, mentions_cons, hat, ← or_assoc, or_self]
    exact .rfl
  · rw [total_cons, total_cons, total_cons, if_congr (hat i j) rfl rfl]
    by_cases hs : s.At i j
    · rw [if_pos (show At { s with value := s.value + t.value } i j from hs), if_pos hs, if_pos hs,
        add_comm s.value, add_assoc]
    · rw [if_neg (show ¬At { s with value := s.value + t.value } i j from hs), if_neg hs, if_neg hs,
        zero_add, zero_add]

end SameSums

theorem sameSums_insertSorted (t : Triplet α) (ss : List (Triplet α)) :
    SameSums (insertSorted t ss) (t :: ss) := by
  induction ss with
  | nil => exact .refl _
  | cons s ss ih =>
    rw [insertSorted]
    split
    · exact .refl _
    · next hts =>
      split
      · exact (ih.cons s).trans (.of_perm (.swap t s ss))
      · next hst => exact .merge (eq_pos_of_not_before hst hts) ss

/-! ## Sorted lists -/

theorem mem_iff_of_apart {ts : List (Triplet α)} (h : ts.Pairwise Apart) (u : Triplet α) :
    u ∈ ts ↔ Mentions ts u.row u.col ∧ total ts u.row u.col = u.value := by
  refine ⟨fun hu => ⟨⟨u, hu, rfl, rfl⟩, total_of_mem h hu⟩, fun ⟨⟨t, ht, hr, hc⟩, hu⟩ => ?_⟩
  have hvalue : t.value = u.value := by rw [← total_of_mem h ht, hr, hc, hu]
  have htu : t = u := by
    cases t
    cases u
    cases hr
    cases hc
    cases hvalue
    rfl
  exact htu ▸ ht

/-- A sorted list is the only one with its sums. -/
theorem SameSums.eq_of_sorted {ss ts : List (Triplet α)} (h : SameSums ss ts)
    (hss : ss.Pairwise Before) (hts : ts.Pairwise Before) : ss = ts := by
  have hsapart : ss.Pairwise Apart := hss.imp Before.apart
  have htapart : ts.Pairwise Apart := hts.imp Before.apart
  have hmem : ∀ u, u ∈ ss ↔ u ∈ ts := fun u => by
    rw [mem_iff_of_apart hsapart, mem_iff_of_apart htapart, h.mentions, h.total]
  have hperm : ss.Perm ts :=
    (List.perm_ext_iff_of_nodup (nodup_map_place hsapart).of_map (nodup_map_place htapart).of_map).mpr
      hmem
  refine hperm.eq_of_pairwise (fun s t _ _ hst hts => ?_) hss hts
  exact absurd ⟨rfl, rfl⟩ (hst.trans hts).apart

end Triplet

open Triplet

/-! ## Assembly -/

namespace Sparse

variable {α : Type} [ExactScalar α]

/-- What a run stores says what was stored and the triplets inside the matrix say together. -/
theorem sameSums_stored_foldl_insert (s : Sparse α) (ts : List (Triplet α)) :
    SameSums (ts.foldl insert s).stored
      ((ts.filter fun t => t.Within s.rows s.cols) ++ s.stored) := by
  induction ts generalizing s with
  | nil => exact .refl _
  | cons t ts ih =>
    have hrun := ih (s.insert t)
    rw [rows_insert, cols_insert] at hrun
    rw [List.foldl_cons]
    by_cases ht : t.Within s.rows s.cols
    · have hstep : (s.insert t).stored = t.insertSorted s.stored := congrArg stored (dif_pos ht)
      rw [hstep] at hrun
      rw [List.filter_cons_of_pos (by simpa using ht), List.cons_append]
      exact (hrun.trans ((sameSums_insertSorted t s.stored).append_left _)).trans
        (.of_perm List.perm_middle)
    · have hstep : s.insert t = s := dif_neg ht
      rw [hstep] at hrun ⊢
      rw [List.filter_cons_of_neg (by simpa using ht)]
      exact hrun

theorem sameSums_stored_ofTriplets (r c : Nat) (ts : List (Triplet α)) :
    SameSums (ofTriplets r c ts).stored (ts.filter fun t => t.Within r c) := by
  have hrun := sameSums_stored_foldl_insert (empty r c) ts
  rwa [show (empty r c : Sparse α).stored = [] from rfl, List.append_nil] at hrun

theorem eq_of_sameSums {s s' : Sparse α} (hr : s.rows = s'.rows) (hc : s.cols = s'.cols)
    (h : SameSums s.stored s'.stored) : s = s' := by
  have hstored : s.stored = s'.stored := h.eq_of_sorted s.sorted s'.sorted
  cases s
  cases s'
  cases hr
  cases hc
  cases hstored
  rfl

/-- Assembly depends on the sums of the triplets inside the matrix only. -/
theorem ofTriplets_congr {r c : Nat} {ts us : List (Triplet α)}
    (h : SameSums (ts.filter fun t => t.Within r c) (us.filter fun t => t.Within r c)) :
    ofTriplets r c ts = ofTriplets r c us := by
  refine eq_of_sameSums ?_ ?_ ?_
  · rw [rows_ofTriplets, rows_ofTriplets]
  · rw [cols_ofTriplets, cols_ofTriplets]
  · exact ((sameSums_stored_ofTriplets r c ts).trans h).trans (sameSums_stored_ofTriplets r c us).symm

/-- A sparse matrix is assembled again from the entries it stores. -/
theorem ofTriplets_stored (s : Sparse α) : ofTriplets s.rows s.cols s.stored = s := by
  have hall : (s.stored.filter fun t => t.Within s.rows s.cols) = s.stored :=
    List.filter_eq_self.mpr fun t ht => decide_eq_true (s.inRange t ht)
  have hsums := sameSums_stored_ofTriplets s.rows s.cols s.stored
  rw [hall] at hsums
  exact eq_of_sameSums (rows_ofTriplets _ _ _) (cols_ofTriplets _ _ _) hsums

theorem places_ofTriplets (r c : Nat) (ts : List (Triplet α)) :
    ((ofTriplets r c ts).stored.map place).Perm
      ((ts.filter fun t => t.Within r c).map place).dedup := by
  have hsums := sameSums_stored_ofTriplets r c ts
  refine (List.perm_ext_iff_of_nodup (nodup_map_place (ofTriplets r c ts).apart_stored)
    (List.nodup_dedup _)).mpr fun p => ?_
  rw [List.mem_dedup, mem_map_place_iff, mem_map_place_iff, hsums.mentions]

theorem total_stored_ofTriplets {r c i j : Nat} (hi : i < r) (hj : j < c) (ts : List (Triplet α)) :
    total (ofTriplets r c ts).stored i j = total ts i j := by
  rw [(sameSums_stored_ofTriplets r c ts).total, total_filter_within hi hj]

end Sparse

theorem Matrix.entry_addAll {α : Type} [ExactScalar α] {m : Matrix α} {ts : List (Triplet α)}
    {i j : Nat} (hin : ∀ t ∈ ts, t.row < m.rows) (hi : i < m.rows) (hj : j < m.cols) :
    (m.addAll ts).entry i j = m.entry i j + total ts i j := by
  induction ts generalizing m with
  | nil => exact (add_zero _).symm
  | cons t ts ih =>
    rw [List.forall_mem_cons] at hin
    have hrest := ih (m := m.addAt t.row t.col t.value) hin.2 hi hj
    have hat : (i = t.row ∧ j = t.col) ↔ t.At i j := and_congr eq_comm eq_comm
    rw [addAll_cons, hrest, entry_addAt _ hin.1 hi hj, if_congr hat rfl rfl, total_cons]
    by_cases ht : t.At i j
    · rw [if_pos ht, if_pos ht, add_assoc]
    · rw [if_neg ht, if_neg ht, zero_add]

theorem Sparse.entry_toMatrix {α : Type} [ExactScalar α] {s : Sparse α} {i j : Nat}
    (hi : i < s.rows) (hj : j < s.cols) : s.toMatrix.entry i j = total s.stored i j := by
  rw [toMatrix_eq_addAll, Matrix.entry_addAll (fun t ht => (s.inRange t ht).1) hi hj,
    Matrix.entry_filled 0 hi hj, zero_add]

/-! ## The laws of assembly -/

/-- Assembly in exact arithmetic.  Each entry of the dense matrix is the total of the triplets at its
place, and triplets outside the matrix make no difference.  The stored entries are sorted by column
and row, one for each place inside the matrix that a triplet mentions, with the total there as its
value.  The order of the triplets does not matter, and the stored entries assemble to the same
matrix. -/
theorem assembly_exact {α : Type} [ExactScalar α] (r c : Nat) (ts : List (Triplet α)) :
    ((Sparse.ofTriplets r c ts).toMatrix.rows = r ∧ (Sparse.ofTriplets r c ts).toMatrix.cols = c ∧
      ∀ i < r, ∀ j < c, (Sparse.ofTriplets r c ts).toMatrix.entry i j = total ts i j) ∧
    Sparse.ofTriplets r c (ts.filter fun t => t.Within r c) = Sparse.ofTriplets r c ts ∧
    ((Sparse.ofTriplets r c ts).stored.Pairwise Before ∧
      ((Sparse.ofTriplets r c ts).stored.map place).Perm
        ((ts.filter fun t => t.Within r c).map place).dedup ∧
      ∀ t ∈ (Sparse.ofTriplets r c ts).stored, t.value = total ts t.row t.col) ∧
    (∀ us : List (Triplet α), us.Perm ts → Sparse.ofTriplets r c us = Sparse.ofTriplets r c ts) ∧
    Sparse.ofTriplets r c (Sparse.ofTriplets r c ts).stored = Sparse.ofTriplets r c ts := by
  have hrows : (Sparse.ofTriplets r c ts).rows = r := Sparse.rows_ofTriplets r c ts
  have hcols : (Sparse.ofTriplets r c ts).cols = c := Sparse.cols_ofTriplets r c ts
  refine ⟨⟨?_, ?_, fun i hi j hj => ?_⟩, ?_, ⟨Sparse.sorted _, Sparse.places_ofTriplets r c ts,
    fun t ht => ?_⟩, fun us h => ?_, ?_⟩
  · rw [Sparse.rows_toMatrix, hrows]
  · rw [Sparse.cols_toMatrix, hcols]
  · rw [Sparse.entry_toMatrix (hrows.symm ▸ hi) (hcols.symm ▸ hj),
      Sparse.total_stored_ofTriplets hi hj]
  · refine Sparse.ofTriplets_congr ?_
    rw [List.filter_filter]
    simp only [Bool.and_self]
    exact .refl _
  · have hin := (Sparse.ofTriplets r c ts).inRange t ht
    rw [hrows, hcols] at hin
    rw [← Sparse.total_stored_ofTriplets hin.1 hin.2,
      total_of_mem (Sparse.ofTriplets r c ts).apart_stored ht]
  · exact Sparse.ofTriplets_congr (.of_perm (h.filter _))
  · have hagain := Sparse.ofTriplets_stored (Sparse.ofTriplets r c ts)
    rwa [hrows, hcols] at hagain

/-- Two triplets share a place, and one is outside a matrix with two rows. -/
def Triplet.repeated : List (Triplet ℚ) := [⟨0, 1, 1⟩, ⟨5, 0, 2⟩, ⟨1, 0, 4⟩, ⟨0, 1, 5 / 2⟩]

theorem assembly_exact_repeated :
    (Sparse.ofTriplets 2 2 repeated).toMatrix.entry 0 1 = 7 / 2 ∧
    (Sparse.ofTriplets 2 2 repeated).stored.map place = [(1, 0), (0, 1)] ∧
    Sparse.ofTriplets 2 2 repeated.reverse = Sparse.ofTriplets 2 2 repeated := by
  obtain ⟨⟨_, _, hentry⟩, _, _, horder, _⟩ := assembly_exact 2 2 repeated
  refine ⟨?_, rfl, horder repeated.reverse (List.reverse_perm repeated)⟩
  rw [hentry 0 (by decide) 1 (by decide)]
  decide +kernel

end ConvexProgram
