import ConvexProgram.Spectrum
import ConvexProgram.Proofs.Binary64
import ConvexProgram.Proofs.Elimination.Meaning
import ConvexProgram.Proofs.Violation

/-!
# Signs that an elimination keeps

A feasible solution of the reduced problem gives back values of the declared sign.  Which sign that
is, is decided where a variable stands first (`eliminate_first_sign`); so every sign is kept if the
leaves of one id are equal, except that of a symmetric variable (`eliminate_keeps_sign`).  No law of
arithmetic is needed but the order of the numbers, so this also holds of floats, as long as no entry
is NaN.

Signs are lost where one of these conditions fails (`Problem.LosesSign`).  A symmetric variable gives
way to its packed triangle, which carries no sign, and nothing is added that compares the matrix.
-/

namespace ConvexProgram

open Scalar

section
variable {α : Type} [Scalar α]

/-- The variable has a value whose entries have the declared sign if all of them are numbers; of two
signs, nonnegative counts. -/
def Variable.KeepsSign (σ : Assignment α) (v : Variable) : Prop :=
  ∃ c, σ v.id = some c ∧ ((∀ x ∈ c.toMatrix.entries, IsNumber x) →
    (v.attributes.nonneg = true → ∀ x ∈ c.toMatrix.entries, 0 ≤ x) ∧
    (v.attributes.nonneg = false → v.attributes.nonpos = true →
      ∀ x ∈ c.toMatrix.entries, x ≤ 0))

/-! ## The constraint of a sign -/

theorem Row.Made.replacement_of_relation {r : Row α} (hr : r.Made) {rel : Relation}
    (hs : r.declared.isSymmetric = false) (hrel : r.declared.attributes.relation? = some rel) :
    r.replacement = .var r.standIn := by
  cases hr with
  | packed v id fillId hsym hsq => exact Bool.noConfusion (hs.symm.trans hsym)
  | relaxed v id rel hsym hrel => rfl
  | kept v hsym hnone => exact Option.noConfusion rfl (heq_of_eq (hrel.symm.trans hnone))

variable [Spectral α] [OrderLaws α] {e : Elimination α} {p : Problem α} {σ : Assignment α} {x : α}

/-- Where the reduced problem is not violated, a stand-in has a value of the sign that its row
compares it with. -/
theorem Elimination.Reduces.sign_of_row (h : e.Reduces p) {row : Row α} (hrow : row ∈ e.inverse.rows)
    {rel : Relation} (hs : row.declared.isSymmetric = false)
    (hrel : row.declared.attributes.relation? = some rel) (hsign : rel = .nonneg ∨ rel = .nonpos)
    (hx : e.problem.maxViolation σ = .ok x) (hx0 : x ≤ 0) :
    ∃ c, σ row.standIn.id = some c ∧
      ((∀ y ∈ c.toMatrix.entries, IsNumber y) → rel.Holds c.toMatrix) := by
  obtain ⟨added, hadded, hcs⟩ := h.constraints
  have hcond : row.condition? = some (.compare rel (.var row.standIn)) := by
    unfold Row.condition?
    rw [hs, hrel, (h.made row hrow).replacement_of_relation hs hrel]
    rfl
  obtain ⟨⟨id, b⟩, hk, rfl⟩ : ∃ k ∈ added, k.body = .compare rel (.var row.standIn) := by
    have hmem : Body.compare rel (.var row.standIn) ∈ added.map Constraint.body := by
      rw [hadded, List.mem_filterMap]
      exact ⟨row, hrow, hcond⟩
    exact List.mem_map.mp hmem
  have hmem : (⟨id, .compare rel (.var row.standIn)⟩ : Constraint α) ∈ e.problem.constraints := by
    rw [hcs]
    exact List.mem_append_right _ hk
  obtain ⟨y, hy, hle⟩ := ((Problem.worstViolation_le_iff OrderLaws.isNumber_zero hx).mp hx0).2 _ hmem
  -- the violation is that of the evaluated stand-in, which has the entries of its assigned value
  -- in the sizes of its shape
  obtain ⟨c, hc, hcy⟩ := Constraint.violation_compare_eq_ok.mp hy
  obtain ⟨d, hd, _, hentries⟩ := Variable.exists_of_matrix_eq_ok (Expr.matrix_of_value hc)
  refine ⟨d, hd, fun hnum => ?_⟩
  rw [hentries] at hnum
  have hholds := Relation.holds_of_violation hsign hcy hle hnum
  rcases hsign with rfl | rfl
  · show ∀ z ∈ d.toMatrix.entries, 0 ≤ z
    rw [hentries]
    exact hholds
  · show ∀ z ∈ d.toMatrix.entries, z ≤ 0
    rw [hentries]
    exact hholds

theorem Elimination.Reduces.keepsSign_of_row (h : e.Reduces p) {row : Row α}
    (hrow : row ∈ e.inverse.rows) {τ : Assignment α} (hs : row.declared.isSymmetric = false)
    (hmark : row.declared.attributes.nonneg = true ∨ row.declared.attributes.nonpos = true)
    (hx : e.problem.maxViolation σ = .ok x) (hx0 : x ≤ 0)
    (hrec : row.recover σ = .ok (τ row.declared.id)) : row.declared.KeepsSign τ := by
  have hτ : τ row.declared.id = σ row.standIn.id := by
    rw [Row.recover_of_not_symmetric σ hs] at hrec
    exact (Except.ok.inj hrec).symm
  cases hn : row.declared.attributes.nonneg with
  | true =>
    have hrel : row.declared.attributes.relation? = some .nonneg :=
      Attributes.relation?_eq_some_iff.mpr (Or.inl ⟨hn, rfl⟩)
    obtain ⟨c, hc, hholds⟩ := h.sign_of_row hrow hs hrel (Or.inl rfl) hx hx0
    refine ⟨c, hτ.trans hc, fun hnum => ⟨fun _ => hholds hnum, fun hf => ?_⟩⟩
    exact Bool.noConfusion (hf.symm.trans hn)
  | false =>
    have hp : row.declared.attributes.nonpos = true := by
      rcases hmark with h | h
      · exact Bool.noConfusion (hn.symm.trans h)
      · exact h
    have hrel : row.declared.attributes.relation? = some .nonpos :=
      Attributes.relation?_eq_some_iff.mpr (Or.inr (Or.inl ⟨hn, hp, rfl⟩))
    obtain ⟨c, hc, hholds⟩ := h.sign_of_row hrow hs hrel (Or.inr rfl) hx hx0
    refine ⟨c, hτ.trans hc, fun hnum => ⟨fun ht => ?_, fun _ _ => hholds hnum⟩⟩
    exact Bool.noConfusion (hn.symm.trans ht)

end

/-! ## A problem over floats -/

/-- The sum of a vector `x` is minimised, where `x` has the attributes `first`, while no entry of it
is above five, where it has the attributes `later`. -/
def Problem.atMostFive (first later : Attributes) : Problem Float where
  sense := .minimize
  objective := (Expr.var ⟨0, .vector 3, none, first⟩).sum
  constraints := [⟨2, .compare .nonpos
    ((Expr.var ⟨0, .vector 3, none, later⟩).sub (.const 1 (.scalar 5)))⟩]

/-- The solution that gives an id three entries, and no other id a value. -/
def Solution.ofEntries (id : Ident) (xs : Array Float) : Solution Float where
  status := .optimal
  value := none
  primal := Table.ofPairs [(id, .ofColumn xs)]
  dual := ∅

/-! ## Feasible solutions -/

/-- **The first leaf of an id decides its sign.**  If no variable is symmetric, every solution that
does not violate the reduced problem is carried back, and each id gets a value of the sign that its
first leaf is declared with, whatever the later leaves say. -/
theorem eliminate_first_sign {α : Type} [Scalar α] [Spectral α] [OrderLaws α] {p : Problem α}
    {next next' : Ident} {e : Elimination α} {s : Solution α} {x : α}
    (hsym : ∀ v ∈ p.leaves, v.isSymmetric = false)
    (he : p.eliminate next = (.ok e, next'))
    (hx : e.problem.maxViolation s.primal.assignment = .ok x) (hx0 : x ≤ 0) :
    ∃ r, e.inverse.recover s = .ok r ∧
      ∀ id v, p.leaves.find? (fun w => w.id == id) = some v →
        v.attributes.nonneg = true ∨ v.attributes.nonpos = true →
          v.id = id ∧ v.KeepsSign r.primal.assignment := by
  have hred := Problem.eliminate_reduces he
  have hplain : ∀ row ∈ e.inverse.rows, row.declared.isSymmetric = false := fun row hrow =>
    hsym _ (hred.declared_mem_leaves hrow)
  obtain ⟨t, ht⟩ : ∃ t, Row.recoverAll s.primal.assignment e.inverse.rows = .ok t :=
    Row.exists_recoverAll fun row hrow => ⟨_, Row.recover_of_not_symmetric _ (hplain row hrow)⟩
  refine ⟨_, Inverse.recover_of_recoverAll ht, ?_⟩
  intro id v hv hmark
  have hid : v.id = id := beq_iff_eq.mp (List.find?_some (p := fun w : Variable => w.id == id) hv)
  have hfirst : v ∈ p.unknowns := by
    rw [← hid] at hv
    exact Variable.mem_firstOfEach_iff.mpr hv
  rw [← hred.declared] at hfirst
  obtain ⟨row, hrow, rfl⟩ := List.mem_map.mp hfirst
  have hrec := Row.recover_of_recoverAll ht hred.pairwise_rows row hrow
  exact ⟨hid, hred.keepsSign_of_row hrow (hplain row hrow) hmark hx hx0 hrec⟩

theorem eliminate_first_sign_atMostFive : ∃ e next r,
    (Problem.atMostFive { nonneg := true } {}).eliminate 3 = (.ok e, next) ∧
    e.problem.maxViolation (Solution.ofEntries 3 #[0, 1, 2]).primal.assignment = .ok 0 ∧
    e.inverse.recover (Solution.ofEntries 3 #[0, 1, 2]) = .ok r ∧
    Variable.KeepsSign r.primal.assignment ⟨0, .vector 3, none, { nonneg := true }⟩ := by
  have he : (Problem.atMostFive { nonneg := true } {}).eliminate 3 = (.ok _, _) := rfl
  have hx : (((Problem.atMostFive { nonneg := true } {}).afterScan (Scan.run ⟨3, []⟩
      (Problem.atMostFive { nonneg := true } {}).unknowns)).problem.maxViolation
      (Solution.ofEntries 3 #[0, 1, 2]).primal.assignment) = .ok 0 := by decide +kernel
  obtain ⟨r, hr, hkeep⟩ := eliminate_first_sign (by decide) he hx OrderLaws.isNumber_zero
  exact ⟨_, _, r, he, hx, hr, (hkeep 0 _ rfl (Or.inl rfl)).2⟩

/-- **The sign of every variable that is not symmetric is kept**, if the leaves of one id are
equal. -/
theorem eliminate_keeps_sign {α : Type} [Scalar α] [Spectral α] [OrderLaws α] {p : Problem α}
    {next next' : Ident} {e : Elimination α} {s r : Solution α} {x : α}
    (hleaves : ∀ v ∈ p.leaves, ∀ w ∈ p.leaves, v.id = w.id → v = w)
    (he : p.eliminate next = (.ok e, next')) (hr : e.inverse.recover s = .ok r)
    (hx : e.problem.maxViolation s.primal.assignment = .ok x) (hx0 : x ≤ 0) :
    ∀ v ∈ p.leaves, v.isSymmetric = false →
      v.attributes.nonneg = true ∨ v.attributes.nonpos = true →
        v.KeepsSign r.primal.assignment := by
  have hred := Problem.eliminate_reduces he
  rw [hred.forall_leaves_iff hleaves]
  intro row hrow hs hmark
  have hrec := Row.recover_of_recoverAll (Inverse.recover_eq_ok hr).1 hred.pairwise_rows row hrow
  exact hred.keepsSign_of_row hrow hs hmark hx hx0 hrec

theorem eliminate_keeps_sign_traceAbove : ∃ e next r,
    Problem.traceAbove.eliminate 3 = (.ok e, next) ∧
    e.inverse.recover Solution.traceAbove = .ok r ∧
    e.problem.maxViolation Solution.traceAbove.primal.assignment = .ok 0 ∧
    Variable.KeepsSign r.primal.assignment ⟨1, .scalar, none, { nonneg := true }⟩ := by
  have he : Problem.traceAbove.eliminate 3 = (.ok _, _) := rfl
  have hx : (Problem.traceAbove.afterScan
      (Scan.run ⟨3, []⟩ Problem.traceAbove.unknowns)).problem.maxViolation
      Solution.traceAbove.primal.assignment = .ok 0 := by decide +kernel
  exact ⟨_, _, _, he, rfl, hx, eliminate_keeps_sign (by decide) he rfl hx le_rfl
    ⟨1, .scalar, none, { nonneg := true }⟩ (by decide) rfl (Or.inl rfl)⟩

/-! ## Lost signs -/

/-- A solution does not violate the reduced problem and gives the variable back a value against a
sign that it is declared with. -/
def Problem.LosesSign {α : Type} [Scalar α] [Spectral α] (p : Problem α) (next : Ident)
    (s : Solution α) (v : Variable) : Prop :=
  v ∈ p.leaves ∧ ∃ e next' r c, p.eliminate next = (.ok e, next') ∧
    e.problem.maxViolation s.primal.assignment = .ok 0 ∧ e.inverse.recover s = .ok r ∧
    r.primal.assignment v.id = some c ∧
    ((v.attributes.nonneg = true ∧ ∃ x ∈ c.toMatrix.entries, ¬ 0 ≤ x) ∨
      (v.attributes.nonpos = true ∧ ∃ x ∈ c.toMatrix.entries, ¬ x ≤ 0))

/-- The sum of a variable is minimised. -/
def Problem.sumOf (v : Variable) : Problem Float := ⟨.minimize, (Expr.var v).sum, []⟩

/-- NaN hides the entries before it when the least one is looked for. -/
theorem Problem.sumOf_losesSign_of_nan :
    (Problem.sumOf ⟨0, .vector 3, none, { nonneg := true }⟩).LosesSign 1
      (Solution.ofEntries 1 #[-1, 0 / 0, 5]) ⟨0, .vector 3, none, { nonneg := true }⟩ := by
  refine ⟨by decide, _, _, _, _, rfl, ?_, rfl, rfl,
    Or.inl ⟨rfl, -1, Array.mem_of_getElem? (i := 0) rfl, ?_⟩⟩
  · decide +kernel
  · decide +kernel

/-- A sign is lost if another leaf of the id comes first, and where an entry is not a number. -/
theorem eliminate_loses_later_sign :
    (∀ v ∈ (Problem.atMostFive {} { nonneg := true }).leaves,
      v.isSymmetric = false ∧ v.attributes.nonpos = false) ∧
    (Problem.atMostFive {} { nonneg := true }).LosesSign 3 (Solution.ofEntries 0 #[-1, 0, 0])
      ⟨0, .vector 3, none, { nonneg := true }⟩ ∧
    (Problem.sumOf ⟨0, .vector 3, none, { nonneg := true }⟩).LosesSign 1
      (Solution.ofEntries 1 #[-1, 0 / 0, 5]) ⟨0, .vector 3, none, { nonneg := true }⟩ := by
  refine ⟨by decide, ?_, Problem.sumOf_losesSign_of_nan⟩
  refine ⟨by decide, _, _, _, _, rfl, ?_, rfl, rfl,
    Or.inl ⟨rfl, -1, Array.mem_of_getElem? (i := 0) rfl, ?_⟩⟩
  · decide +kernel
  · decide +kernel

/-- The sign of a symmetric variable is lost, and the second of two signs, and a sign where an entry
is not a number. -/
theorem eliminate_loses_sign : (∀ v, (Problem.sumOf v).leaves = [v]) ∧
    (Problem.sumOf ⟨0, .matrix 2 2, none, { nonneg := true, symmetric := true }⟩).LosesSign 1
      (Solution.ofEntries 1 #[-1, 0, 0])
      ⟨0, .matrix 2 2, none, { nonneg := true, symmetric := true }⟩ ∧
    (Problem.sumOf ⟨0, .vector 3, none, { nonneg := true, nonpos := true }⟩).LosesSign 1
      (Solution.ofEntries 1 #[1, 1, 1]) ⟨0, .vector 3, none, { nonneg := true, nonpos := true }⟩ ∧
    (Problem.sumOf ⟨0, .vector 3, none, { nonneg := true }⟩).LosesSign 1
      (Solution.ofEntries 1 #[-1, 0 / 0, 5]) ⟨0, .vector 3, none, { nonneg := true }⟩ := by
  refine ⟨fun v => rfl, ?_, ?_, Problem.sumOf_losesSign_of_nan⟩
  · refine ⟨by decide, _, _, _, _, rfl, ?_, rfl, rfl,
      Or.inl ⟨rfl, -1, Array.mem_of_getElem? (i := 0) rfl, ?_⟩⟩
    · decide +kernel
    · decide +kernel
  · refine ⟨by decide, _, _, _, _, rfl, ?_, rfl, rfl,
      Or.inr ⟨rfl, 1, Array.mem_of_getElem? (i := 0) rfl, ?_⟩⟩
    · decide +kernel
    · decide +kernel

end ConvexProgram
