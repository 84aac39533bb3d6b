import ConvexProgram.Proofs.Arithmetic
import ConvexProgram.Proofs.Substitution

/-!
# What a violation of zero says

A comparison with zero is violated by at most zero where it holds, and a problem is violated by at
most zero where each of its constraints is.

* `Relation.Holds`                     the comparison itself, entry by entry or of the spectrum;
* `Relation.holds_nonneg_iff`, `Relation.holds_nonpos_iff`   the signs, for entries that are numbers;
* `Relation.holds_iff`                 the five comparisons in exact arithmetic;
* `Problem.worstViolation_le_iff`      a bound of the largest violation is one of each;
* `Problem.satisfied_iff`              the largest violation is zero if all constraints hold.
-/

namespace ConvexProgram

open Scalar

variable {α : Type}

/-! ## Comparisons with zero -/

section
variable [Scalar α] [Spectral α]

/-- A matrix compares with zero. -/
def Relation.Holds (m : Matrix α) : Relation → Prop
  | .zero => ∀ x ∈ m.entries, x = 0
  | .nonneg => ∀ x ∈ m.entries, 0 ≤ x
  | .nonpos => ∀ x ∈ m.entries, x ≤ 0
  | .psd => ∃ x, m.smallestEigenvalue = .ok x ∧ 0 ≤ x
  | .nsd => ∃ x, m.neg.smallestEigenvalue = .ok x ∧ 0 ≤ x

/-- The constraint holds under the given values. -/
def Constraint.Holds (σ : Assignment α) (c : Constraint α) : Prop :=
  ∃ x, c.violation σ = .ok x ∧ x ≤ 0

/-- The largest violation is zero. -/
def Problem.Satisfied (σ : Assignment α) (p : Problem α) : Prop := p.maxViolation σ = .ok 0

variable [OrderLaws α]

omit [Spectral α] in
theorem Matrix.isNumber_least {m : Matrix α} (h : ∀ x ∈ m.entries, IsNumber x) :
    IsNumber m.least :=
  Scalar.isNumber_least fun x hx => h x (Array.mem_toList_iff.mp hx)

omit [Spectral α] in
theorem Matrix.isNumber_greatest {m : Matrix α} (h : ∀ x ∈ m.entries, IsNumber x) :
    IsNumber m.greatest :=
  Scalar.isNumber_greatest fun x hx => h x (Array.mem_toList_iff.mp hx)

namespace Relation

theorem holds_nonneg_iff {m : Matrix α} (h : ∀ x ∈ m.entries, IsNumber x) :
    larger (-m.least) 0 ≤ 0 ↔ nonneg.Holds m := by
  have hm : IsNumber m.least := Matrix.isNumber_least h
  have hl : 0 ≤ m.least ↔ nonneg.Holds m := by
    show 0 ≤ least _ ↔ ∀ x ∈ m.entries, 0 ≤ x
    rw [le_least_iff (fun x hx => h x (Array.mem_toList_iff.mp hx)) OrderLaws.isNumber_zero]
    simp only [Array.mem_toList_iff]
  rw [larger_le_iff (OrderLaws.isNumber_neg hm) OrderLaws.isNumber_zero, OrderLaws.neg_nonpos hm, hl]
  exact ⟨fun hc => hc.1, fun hc => ⟨hc, OrderLaws.isNumber_zero⟩⟩

theorem holds_nonpos_iff {m : Matrix α} (h : ∀ x ∈ m.entries, IsNumber x) :
    larger m.greatest 0 ≤ 0 ↔ nonpos.Holds m := by
  have hl : m.greatest ≤ 0 ↔ nonpos.Holds m := by
    show greatest _ ≤ 0 ↔ ∀ x ∈ m.entries, x ≤ 0
    rw [greatest_le_iff (fun x hx => h x (Array.mem_toList_iff.mp hx)) OrderLaws.isNumber_zero]
    simp only [Array.mem_toList_iff]
  rw [larger_le_iff (Matrix.isNumber_greatest h) OrderLaws.isNumber_zero, hl]
  exact ⟨fun hc => hc.1, fun hc => ⟨hc, OrderLaws.isNumber_zero⟩⟩

/-- A sign that is violated by no positive number holds of entries that are numbers. -/
theorem holds_of_violation {m : Matrix α} {r : Relation} {x : α} (hr : r = .nonneg ∨ r = .nonpos)
    (hx : r.violation m = .ok x) (hx0 : IsNumber x → x ≤ 0) (h : ∀ y ∈ m.entries, IsNumber y) :
    r.Holds m := by
  rcases hr with rfl | rfl
  · obtain rfl : larger (-m.least) 0 = x := Except.ok.inj hx
    exact (holds_nonneg_iff h).mp (hx0 (isNumber_larger_right _ OrderLaws.isNumber_zero))
  · obtain rfl : larger m.greatest 0 = x := Except.ok.inj hx
    exact (holds_nonpos_iff h).mp (hx0 (isNumber_larger_right _ OrderLaws.isNumber_zero))

end Relation
end

section
variable [ExactScalar α] [Spectral α]

theorem Matrix.greatestAbs_nonpos_iff {m : Matrix α} :
    m.greatestAbs ≤ 0 ↔ Relation.zero.Holds m := by
  show Scalar.greatest _ ≤ 0 ↔ ∀ x ∈ m.entries, x = 0
  rw [greatest_le_iff (fun x _ => ExactScalar.isNumber x) le_rfl, List.forall_mem_map]
  simp only [Array.mem_toList_iff, Scalar.abs_nonpos_iff]

/-- the eigenvalue bounds the violation of a semidefinite comparison from below -/
theorem Matrix.violation_smallest_iff {m : Matrix α} :
    (∃ x, (m.smallestEigenvalue.bind fun x => .ok (larger (-x) 0)) = .ok x ∧ x ≤ 0) ↔
      ∃ x, m.smallestEigenvalue = .ok x ∧ 0 ≤ x := by
  cases m.smallestEigenvalue with
  | error f => exact ⟨fun ⟨_, hx, _⟩ => (nomatch hx), fun ⟨_, hx, _⟩ => (nomatch hx)⟩
  | ok y =>
    have hy : larger (-y) 0 ≤ 0 ↔ 0 ≤ y := by
      rw [larger_le_iff (ExactScalar.isNumber _) (ExactScalar.isNumber _), Left.neg_nonpos_iff]
      exact ⟨fun h => h.1, fun h => ⟨h, le_rfl⟩⟩
    refine ⟨fun ⟨x, hx, hle⟩ => ⟨y, rfl, hy.mp ?_⟩, fun ⟨x, hx, hle⟩ => ⟨_, rfl, hy.mpr ?_⟩⟩
    · rw [Except.ok.inj hx]
      exact hle
    · rw [Except.ok.inj hx]
      exact hle

/-- **In exact arithmetic a violation is at most zero exactly where the comparison holds.** -/
theorem Relation.holds_iff {m : Matrix α} {r : Relation} :
    (∃ x, r.violation m = .ok x ∧ x ≤ 0) ↔ r.Holds m := by
  have hone : ∀ y : α, (∃ x, (.ok y : Except Fault α) = .ok x ∧ x ≤ 0) ↔ y ≤ 0 := fun y =>
    ⟨fun ⟨x, hx, hle⟩ => Except.ok.inj hx ▸ hle, fun hle => ⟨y, rfl, hle⟩⟩
  cases r with
  | zero => exact (hone _).trans Matrix.greatestAbs_nonpos_iff
  | nonneg => exact (hone _).trans (holds_nonneg_iff fun x _ => ExactScalar.isNumber x)
  | nonpos => exact (hone _).trans (holds_nonpos_iff fun x _ => ExactScalar.isNumber x)
  | psd => exact Matrix.violation_smallest_iff
  | nsd => exact Matrix.violation_smallest_iff

end

/-! ## Constraints -/

section
variable [Scalar α] [Spectral α] {σ τ : Assignment α}

theorem Constraint.holds_congr {c d : Constraint α}
    (h : Fault.outcome (c.violation σ) = Fault.outcome (d.violation τ)) : c.Holds σ ↔ d.Holds τ := by
  constructor
  · intro ⟨x, hx, hle⟩
    exact ⟨x, Fault.eq_ok_of_outcome h.symm hx, hle⟩
  · intro ⟨x, hx, hle⟩
    exact ⟨x, Fault.eq_ok_of_outcome h hx, hle⟩

/-- A comparison reads the value of its expression and nothing else. -/
theorem Constraint.violation_compare_eq_ok {id : Ident} {r : Relation} {a : Expr α} {x : α} :
    Constraint.violation σ ⟨id, .compare r a⟩ = .ok x ↔
      ∃ c, a.value σ = .ok c ∧ r.violation c.toMatrix = .ok x := by
  show (a.value σ).bind (fun c => r.violation c.toMatrix) = .ok x ↔ _
  cases a.value σ with
  | error f => exact ⟨fun hx => (nomatch hx), fun ⟨_, hx, _⟩ => (nomatch hx)⟩
  | ok c =>
    constructor
    · intro hx
      exact ⟨c, rfl, hx⟩
    · intro ⟨d, hd, hx⟩
      rw [Except.ok.inj hd]
      exact hx

theorem Constraint.compare_holds_iff {id : Ident} {r : Relation} {a : Expr α} :
    Constraint.Holds σ ⟨id, .compare r a⟩ ↔
      ∃ c, a.value σ = .ok c ∧ ∃ x, r.violation c.toMatrix = .ok x ∧ x ≤ 0 := by
  unfold Constraint.Holds
  simp only [violation_compare_eq_ok]
  constructor
  · intro ⟨x, ⟨c, hc, hx⟩, hle⟩
    exact ⟨c, hc, x, hx, hle⟩
  · intro ⟨c, hc, x, hx, hle⟩
    exact ⟨x, ⟨c, hc, hx⟩, hle⟩

end

/-! ## The largest violation -/

namespace Problem

section
variable [Scalar α] [Spectral α] [OrderLaws α] {σ : Assignment α} {cs : List (Constraint α)}

theorem isNumber_worstViolation {worst x : α} (hw : IsNumber worst)
    (h : worstViolation σ worst cs = .ok x) : IsNumber x := by
  induction cs generalizing worst with
  | nil => exact Except.ok.inj h ▸ hw
  | cons k cs ih =>
    obtain ⟨y, _, hrest⟩ := Fault.bind_eq_ok_iff.mp h
    exact ih (isNumber_larger_left y hw) hrest

/-- Where the largest violation is found, all are found, and a bound of it is one of where the fold
starts and of each violation that is a number. -/
theorem worstViolation_le_iff {worst x c : α} (hw : IsNumber worst)
    (h : worstViolation σ worst cs = .ok x) :
    x ≤ c ↔ worst ≤ c ∧ ∀ k ∈ cs, ∃ y, k.violation σ = .ok y ∧ (IsNumber y → y ≤ c) := by
  induction cs generalizing worst with
  | nil =>
    have hwx : worst = x := Except.ok.inj h
    rw [hwx]
    exact ⟨fun hx => ⟨hx, fun k hk => absurd hk List.not_mem_nil⟩, fun hx => hx.1⟩
  | cons k cs ih =>
    obtain ⟨y, hy, hrest⟩ := Fault.bind_eq_ok_iff.mp h
    have hlarger : larger worst y ≤ c ↔ worst ≤ c ∧ (IsNumber y → y ≤ c) := by
      by_cases hn : IsNumber y
      · rw [larger_le_iff hw hn]
        exact ⟨fun hc => ⟨hc.1, fun _ => hc.2⟩, fun hc => ⟨hc.1, hc.2 hn⟩⟩
      · rw [larger_of_not_isNumber hw hn]
        exact ⟨fun hc => ⟨hc, fun h => absurd h hn⟩, fun hc => hc.1⟩
    rw [ih (isNumber_larger_left y hw) hrest, hlarger, List.forall_mem_cons, and_assoc, hy]
    simp only [Except.ok.injEq, exists_eq_left']

omit [OrderLaws α] in
/-- The largest violation is not found because of the first constraint that has none. -/
theorem worstViolation_eq_error_iff {worst : α} {f : Fault} :
    worstViolation σ worst cs = .error f ↔
      ∃ before k after, cs = before ++ k :: after ∧
        (∀ d ∈ before, ∃ y, d.violation σ = .ok y) ∧ k.violation σ = .error f := by
  constructor
  · intro h
    induction cs generalizing worst with
    | nil => cases h
    | cons k cs ih =>
      rcases Fault.bind_eq_error_iff.mp h with hk | ⟨y, hy, hrest⟩
      · exact ⟨[], k, cs, rfl, nofun, hk⟩
      · obtain ⟨before, d, after, rfl, hbefore, hd⟩ := ih hrest
        exact ⟨k :: before, d, after, rfl, List.forall_mem_cons.mpr ⟨⟨y, hy⟩, hbefore⟩, hd⟩
  · rintro ⟨before, k, after, rfl, hbefore, hk⟩
    induction before generalizing worst with
    | nil => exact Fault.bind_eq_error_iff.mpr (Or.inl hk)
    | cons d before ih =>
      obtain ⟨⟨y, hy⟩, hrest⟩ := List.forall_mem_cons.mp hbefore
      exact Fault.bind_eq_error_iff.mpr (Or.inr ⟨y, hy, ih hrest⟩)

theorem exists_worstViolation_le {worst c : α} (hw : worst ≤ c)
    (h : ∀ k ∈ cs, ∃ y, k.violation σ = .ok y ∧ y ≤ c) :
    ∃ x, worstViolation σ worst cs = .ok x ∧ x ≤ c := by
  induction cs generalizing worst with
  | nil => exact ⟨worst, rfl, hw⟩
  | cons k cs ih =>
    obtain ⟨⟨y, hy, hyc⟩, hcs⟩ := List.forall_mem_cons.mp h
    have hmax : larger worst y ≤ c :=
      (larger_le_iff (OrderLaws.isNumber_left hw) (OrderLaws.isNumber_left hyc)).mpr ⟨hw, hyc⟩
    unfold worstViolation
    rw [hy]
    exact ih hmax hcs

end

section
variable [ExactScalar α] [Spectral α] {σ : Assignment α}

theorem satisfied_iff {p : Problem α} : p.Satisfied σ ↔ ∀ c ∈ p.constraints, c.Holds σ := by
  refine ⟨fun h c hc => ?_, fun h => ?_⟩
  · obtain ⟨y, hy, hle⟩ := ((worstViolation_le_iff OrderLaws.isNumber_zero h).mp le_rfl).2 c hc
    exact ⟨y, hy, hle (ExactScalar.isNumber y)⟩
  · obtain ⟨x, hx, hle⟩ := exists_worstViolation_le (OrderLaws.isNumber_zero) h
    have hge : 0 ≤ x := ((worstViolation_le_iff OrderLaws.isNumber_zero hx).mp le_rfl).1
    rw [le_antisymm hle hge] at hx
    exact hx

end

end Problem
end ConvexProgram
