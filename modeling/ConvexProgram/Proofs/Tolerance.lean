import ConvexProgram.Proofs.Binary64
import ConvexProgram.Proofs.Violation
import ConvexProgram.Spectrum

/-!
# Two checks up to a tolerance

A problem can be checked by its largest violation, or constraint by constraint.  Both checks fail
with the first constraint that has no violation, and they agree as long as every violation is a
number.  The violation of an equality is none if the last entry is not a number
(`Constraint.endsInNaN_iff`), and no other constraint has such a violation.  The second check
rejects the equality then, while the first passes over it (`maxViolation_le_iff_satisfied`).
-/

namespace ConvexProgram

open Scalar

variable {α : Type} [Scalar α]

/-! ## Violations that are not a number -/

theorem Matrix.isNumber_greatestAbs_iff [SignLaws α] {m : Matrix α} :
    IsNumber m.greatestAbs ↔ ∀ x, m.entries.back? = some x → IsNumber x := by
  unfold greatestAbs
  rw [← Array.getLast?_toList]
  rcases List.eq_nil_or_concat m.entries.toList with hnil | ⟨xs, y, hlast⟩
  · rw [hnil]
    exact ⟨fun _ x hx => (nomatch hx), fun _ => OrderLaws.isNumber_zero⟩
  · rw [hlast, List.concat_eq_append, List.map_append, List.map_singleton,
      isNumber_greatest_concat, isNumber_abs_iff, List.getLast?_concat]
    exact ⟨fun hy x hx => Option.some.inj hx ▸ hy, fun h => h y rfl⟩

variable [Spectral α]

/-- The constraint is an equality, and the last entry that it compares is not a number. -/
def Constraint.EndsInNaN (σ : Assignment α) (c : Constraint α) : Prop :=
  ∃ a v x, c.body = .compare .zero a ∧ a.value σ = .ok v ∧
    v.toMatrix.entries.back? = some x ∧ ¬ IsNumber x

section
variable [SignLaws α] {σ : Assignment α} {x : α}

/-- The violation of a comparison is the larger of an amount and zero, but for an equality. -/
theorem Relation.isNumber_violation {m : Matrix α} {r : Relation} (hr : r ≠ .zero)
    (h : r.violation m = .ok x) : IsNumber x := by
  have hlarger : ∀ y : α, IsNumber (larger y 0) := fun y =>
    isNumber_larger_right y OrderLaws.isNumber_zero
  cases r with
  | zero => exact absurd rfl hr
  | nonneg => exact Except.ok.inj h ▸ hlarger _
  | nonpos => exact Except.ok.inj h ▸ hlarger _
  | psd =>
    obtain ⟨y, _, hy⟩ := Fault.bind_eq_ok_iff.mp h
    exact Except.ok.inj hy ▸ hlarger _
  | nsd =>
    obtain ⟨y, _, hy⟩ := Fault.bind_eq_ok_iff.mp h
    exact Except.ok.inj hy ▸ hlarger _

theorem Body.isNumber_violation_cone {bound a : Expr α}
    (h : (Body.cone bound a).violation σ = .ok x) : IsNumber x := by
  obtain ⟨t, _, ht⟩ := Fault.bind_eq_ok_iff.mp h
  have ht : (if t.toMatrix.size = 1 then
      (a.value σ).bind fun v => .ok (larger (v.toMatrix.norm + -t.toMatrix.entry 0 0) 0)
    else .error (.coneBound t.toMatrix.extent)) = .ok x := ht
  split at ht
  · obtain ⟨v, _, hv⟩ := Fault.bind_eq_ok_iff.mp ht
    exact Except.ok.inj hv ▸ isNumber_larger_right _ OrderLaws.isNumber_zero
  · cases ht

/-- The violations that are not a number are those of equalities whose last entry is none. -/
theorem Constraint.endsInNaN_iff {c : Constraint α} (h : c.violation σ = .ok x) :
    c.EndsInNaN σ ↔ ¬ IsNumber x := by
  obtain ⟨id, b⟩ := c
  constructor
  · rintro ⟨a, v, y, rfl, hv, hlast, hy⟩ hx
    obtain ⟨w, hw, hviol⟩ := violation_compare_eq_ok.mp h
    obtain rfl : v = w := Except.ok.inj (hv.symm.trans hw)
    obtain rfl : v.toMatrix.greatestAbs = x := Except.ok.inj hviol
    exact hy (Matrix.isNumber_greatestAbs_iff.mp hx y hlast)
  · intro hx
    cases b with
    | cone bound a => exact absurd (Body.isNumber_violation_cone h) hx
    | compare r a =>
      obtain ⟨v, hv, hviol⟩ := violation_compare_eq_ok.mp h
      by_cases hr : r = .zero
      · subst hr
        obtain rfl : v.toMatrix.greatestAbs = x := Except.ok.inj hviol
        rw [Matrix.isNumber_greatestAbs_iff, not_forall] at hx
        obtain ⟨y, hy⟩ := hx
        exact ⟨a, v, y, rfl, hv, Classical.not_imp.mp hy⟩
      · exact absurd (Relation.isNumber_violation hr hviol) hx

end

/-! ## The two checks -/

section
variable {σ : Assignment α} {tol x : α} {c : Constraint α}

theorem Constraint.isSatisfied_of_violation (h : c.violation σ = .ok x) :
    c.isSatisfied σ tol = .ok (decide (x ≤ tol)) := by
  unfold isSatisfied
  rw [h]
  rfl

variable [SignLaws α]

/-- What the largest violation asks of a constraint is that it is satisfied or passed over. -/
theorem Constraint.isSatisfied_or_endsInNaN_iff (h : c.violation σ = .ok x) :
    c.isSatisfied σ tol = .ok true ∨ c.EndsInNaN σ ↔ (IsNumber x → x ≤ tol) := by
  rw [isSatisfied_of_violation h, Except.ok.injEq, decide_eq_true_iff, endsInNaN_iff h,
    imp_iff_or_not]

theorem Constraint.isSatisfied_of_endsInNaN (h : c.EndsInNaN σ) :
    c.isSatisfied σ tol = .ok false := by
  have hviol : ∃ y, c.violation σ = .ok y := by
    obtain ⟨a, v, _, hbody, hv, _⟩ := h
    obtain ⟨id, b⟩ := c
    obtain rfl : b = .compare .zero a := hbody
    exact ⟨_, violation_compare_eq_ok.mpr ⟨v, hv, rfl⟩⟩
  obtain ⟨y, hy⟩ := hviol
  have hnot : ¬ y ≤ tol := fun hle => (endsInNaN_iff hy).mp h (OrderLaws.isNumber_left hle)
  rw [isSatisfied_of_violation hy, decide_eq_false hnot]

end

/-! ## An equality over floats -/

/-- The sum of a vector is minimised, while the vector is zero. -/
def Problem.zeroVector : Problem Float :=
  let x : Expr Float := .var ⟨0, .vector 2, none, {}⟩
  ⟨.minimize, x.sum, [⟨1, .compare .zero x⟩]⟩

/-- The variable `0` has the given entries, and no other variable has a value. -/
def Assignment.ofEntries (xs : Array Float) : Assignment Float
  | 0 => some (.ofColumn xs)
  | _ => none

/-! ## One bound for all constraints -/

/-- **The largest violation and the constraints one by one.**  There is no largest violation
because of the first constraint that has none.  Otherwise it is within the tolerance if and only if
every constraint is satisfied, apart from equalities whose last entry is not a number, which are
never satisfied. -/
theorem maxViolation_le_iff_satisfied {α : Type} [Scalar α] [Spectral α] [SignLaws α]
    (p : Problem α) (σ : Assignment α) {tol : α} (htol : 0 ≤ tol) :
    (∀ f, p.maxViolation σ = .error f ↔
      ∃ before c after, p.constraints = before ++ c :: after ∧
        (∀ d ∈ before, ∃ y, d.violation σ = .ok y) ∧ c.violation σ = .error f) ∧
    (∀ x, p.maxViolation σ = .ok x →
      (x ≤ tol ↔ ∀ c ∈ p.constraints, c.isSatisfied σ tol = .ok true ∨ c.EndsInNaN σ)) ∧
    ∀ c : Constraint α, c.EndsInNaN σ → c.isSatisfied σ tol = .ok false := by
  refine ⟨fun f => Problem.worstViolation_eq_error_iff, fun x hx => ?_,
    fun c => Constraint.isSatisfied_of_endsInNaN⟩
  have hzero : IsNumber (0 : α) := OrderLaws.isNumber_zero
  have hviol := ((Problem.worstViolation_le_iff hzero hx).mp
    (Problem.isNumber_worstViolation hzero hx)).2
  rw [Problem.worstViolation_le_iff hzero hx]
  constructor
  · intro ⟨_, hall⟩ c hc
    obtain ⟨y, hy, hle⟩ := hall c hc
    exact (Constraint.isSatisfied_or_endsInNaN_iff hy).mpr hle
  · intro hall
    refine ⟨htol, fun c hc => ?_⟩
    obtain ⟨y, hy, _⟩ := hviol c hc
    exact ⟨y, hy, (Constraint.isSatisfied_or_endsInNaN_iff hy).mp (hall c hc)⟩

theorem maxViolation_le_iff_satisfied_zeroVector :
    (0 : Float) ≤ 3 ∧ Problem.zeroVector.maxViolation (.ofEntries #[0 / 0, 2]) = .ok 2 ∧
    ((2 : Float) ≤ 3 ↔ ∀ c ∈ Problem.zeroVector.constraints,
      c.isSatisfied (.ofEntries #[0 / 0, 2]) 3 = .ok true ∨ c.EndsInNaN (.ofEntries #[0 / 0, 2])) := by
  have htol : (0 : Float) ≤ 3 := by decide +kernel
  have hmax : Problem.zeroVector.maxViolation (.ofEntries #[0 / 0, 2]) = .ok 2 := by decide +kernel
  exact ⟨htol, hmax, (maxViolation_le_iff_satisfied _ _ htol).2.1 _ hmax⟩

/-- The largest violation is zero at a point where the only constraint is not satisfied. -/
theorem maxViolation_passes_over_nan :
    Problem.zeroVector.maxViolation (.ofEntries #[5, 0 / 0]) = .ok 0 ∧ (0 : Float) ≤ 0 ∧
    ∃ c ∈ Problem.zeroVector.constraints, c.isSatisfied (.ofEntries #[5, 0 / 0]) 0 = .ok false := by
  refine ⟨by decide +kernel, by decide +kernel, _, List.mem_singleton_self _, ?_⟩
  decide +kernel

end ConvexProgram
