import ConvexProgram.Variable
import Mathlib.Data.List.Sort

/-!
# Distinct variables

Variables with one id are one unknown.  Of those that stand in a list, the first of each id is kept
(`Variable.mem_firstOfEach_iff`), and their ids, in increasing order, are the ids that occur
(`Variable.mem_sortedIds`).
-/

namespace ConvexProgram
namespace Variable

/-! ## The first of each id -/

theorem mem_firstOfEach_cons {v w : Variable} {vs : List Variable} :
    w ∈ firstOfEach (v :: vs) ↔ w = v ∨ w ∈ firstOfEach vs ∧ w.id ≠ v.id := by
  rw [firstOfEach, List.mem_cons, List.mem_filter, bne_iff_ne]

/-- A distinct variable is the first one of its id. -/
theorem mem_firstOfEach_iff {vs : List Variable} {w : Variable} :
    w ∈ firstOfEach vs ↔ vs.find? (fun v => v.id == w.id) = some w := by
  induction vs with
  | nil => simp [firstOfEach]
  | cons v vs ih =>
    rw [mem_firstOfEach_cons, List.find?_cons, ih]
    by_cases h : v.id = w.id
    · rw [beq_iff_eq.mpr h]
      refine ⟨fun hw => ?_, fun hv => Or.inl (Option.some.inj hv).symm⟩
      rcases hw with rfl | ⟨_, hne⟩
      · rfl
      · exact absurd h.symm hne
    · rw [beq_eq_false_iff_ne.mpr h]
      refine ⟨fun hw => ?_, fun hv => Or.inr ⟨hv, Ne.symm h⟩⟩
      rcases hw with rfl | ⟨hv, _⟩
      · exact absurd rfl h
      · exact hv

theorem mem_of_mem_firstOfEach {vs : List Variable} {w : Variable} (h : w ∈ firstOfEach vs) :
    w ∈ vs := List.mem_of_find?_eq_some (mem_firstOfEach_iff.mp h)

theorem exists_mem_firstOfEach {vs : List Variable} {v : Variable} (h : v ∈ vs) :
    ∃ w ∈ firstOfEach vs, w.id = v.id := by
  have hsome : (vs.find? fun w => w.id == v.id).isSome := by
    rw [List.find?_isSome]
    exact ⟨v, h, beq_self_eq_true v.id⟩
  obtain ⟨w, hw⟩ := Option.isSome_iff_exists.mp hsome
  have hid : w.id = v.id := beq_iff_eq.mp (List.find?_some (p := fun w : Variable => w.id == v.id) hw)
  rw [← hid] at hw
  exact ⟨w, mem_firstOfEach_iff.mpr hw, hid⟩

theorem pairwise_firstOfEach (vs : List Variable) :
    (firstOfEach vs).Pairwise fun v w => v.id ≠ w.id := by
  induction vs with
  | nil => exact .nil
  | cons v vs ih =>
    rw [firstOfEach, List.pairwise_cons]
    refine ⟨fun w hw => ?_, ih.filter _⟩
    exact Ne.symm (bne_iff_ne.mp (List.mem_filter.mp hw).2)

/-! ## The ids -/

theorem mem_sortedIds {vs : List Variable} {id : Ident} :
    id ∈ sortedIds vs ↔ ∃ v ∈ vs, v.id = id := by
  rw [sortedIds, List.mem_mergeSort, List.mem_map]
  constructor
  · rintro ⟨v, hv, hid⟩
    exact ⟨v, mem_of_mem_firstOfEach hv, hid⟩
  · rintro ⟨v, hv, rfl⟩
    exact exists_mem_firstOfEach hv

theorem nodup_sortedIds (vs : List Variable) : (sortedIds vs).Nodup := by
  have hp : ((firstOfEach vs).map Variable.id).Nodup :=
    List.pairwise_map.mpr (pairwise_firstOfEach vs)
  exact (List.mergeSort_perm _ _).nodup_iff.mpr hp

theorem pairwise_sortedIds (vs : List Variable) : (sortedIds vs).Pairwise (· < ·) := by
  have hle : (sortedIds vs).Pairwise (· ≤ ·) := List.pairwise_mergeSort' _ _
  exact hle.imp₂ (fun a b hab hne => Nat.lt_of_le_of_ne hab hne) (nodup_sortedIds vs)

end Variable
end ConvexProgram
