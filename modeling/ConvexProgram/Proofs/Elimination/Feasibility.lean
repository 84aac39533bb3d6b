import ConvexProgram.Proofs.Elimination.Ids
import ConvexProgram.Proofs.Elimination.Meaning
import ConvexProgram.Proofs.Unpacking
import ConvexProgram.Proofs.Violation

/-!
# The feasible points of a reduced problem

In exact arithmetic the reduced problem has the feasible points of the given one at which the
attributes hold that became constraints (`feasible_iff`).  One direction carries a solution back.
The other finds values for the stand-ins: those of a packed variable are the upper triangle of its
matrix, and every other stand-in takes the value of its variable.
-/

namespace ConvexProgram

open Fault

/-! ## Attributes that hold -/

section
variable {α : Type} [Scalar α] [Spectral α]

/-- The value of a variable compares with zero. -/
def Variable.Satisfies (σ : Assignment α) (v : Variable) (r : Relation) : Prop :=
  ∃ c, (Expr.var v).value σ = .ok c ∧ r.Holds c.toMatrix

/-- Of nonnegative, nonpositive, positive and negative semidefinite, the first that a variable is
declared with holds of its value. -/
structure Variable.Respected (σ : Assignment α) (v : Variable) : Prop where
  nonneg : v.attributes.nonneg = true → v.Satisfies σ .nonneg
  nonpos : v.attributes.nonneg = false → v.attributes.nonpos = true → v.Satisfies σ .nonpos
  psd : v.attributes.nonneg = false → v.attributes.nonpos = false → v.attributes.psd = true →
    v.Satisfies σ .psd
  nsd : v.attributes.nonneg = false → v.attributes.nonpos = false → v.attributes.psd = false →
    v.attributes.nsd = true → v.Satisfies σ .nsd

/-- No constraint is violated, and the attributes of the variables that are not symmetric hold. -/
structure Problem.Feasible (σ : Assignment α) (p : Problem α) : Prop where
  constraints : p.Satisfied σ
  attributes : ∀ v ∈ p.leaves, v.isSymmetric = false → v.Respected σ

theorem Variable.respected_iff {σ : Assignment α} {v : Variable} :
    v.Respected σ ↔ ∀ r, v.attributes.relation? = some r → v.Satisfies σ r := by
  constructor
  · intro h r hr
    rcases Attributes.relation?_eq_some_iff.mp hr with
      ⟨hn, rfl⟩ | ⟨hn, hp, rfl⟩ | ⟨hn, hp, hs, rfl⟩ | ⟨hn, hp, hs, ht, rfl⟩
    · exact h.nonneg hn
    · exact h.nonpos hn hp
    · exact h.psd hn hp hs
    · exact h.nsd hn hp hs ht
  · intro h
    have hof : ∀ r, _ → v.Satisfies σ r := fun r hr => h r (Attributes.relation?_eq_some_iff.mpr hr)
    refine ⟨?_, ?_, ?_, ?_⟩
    · intro hn
      exact hof _ (Or.inl ⟨hn, rfl⟩)
    · intro hn hp
      exact hof _ (Or.inr (Or.inl ⟨hn, hp, rfl⟩))
    · intro hn hp hs
      exact hof _ (Or.inr (Or.inr (Or.inl ⟨hn, hp, hs, rfl⟩)))
    · intro hn hp hs ht
      exact hof _ (Or.inr (Or.inr (Or.inr ⟨hn, hp, hs, ht, rfl⟩)))

end

/-! ## The constraint of a row -/

section
variable {α : Type} [ExactScalar α] [Spectral α] {σ τ : Assignment α}

theorem Row.condition_holds_iff {row : Row α}
    (hval : outcome (row.replacement.value σ) = outcome ((Expr.var row.declared).value τ)) :
    (∀ b, row.condition? = some b → Constraint.Holds σ ⟨0, b⟩) ↔
      (row.declared.isSymmetric = false → row.declared.Respected τ) := by
  have hcompare : ∀ r, Constraint.Holds σ ⟨0, .compare r row.replacement⟩ ↔
      row.declared.Satisfies τ r := by
    intro r
    have hval' : ∀ c, row.replacement.value σ = .ok c ↔ (Expr.var row.declared).value τ = .ok c :=
      fun c => ⟨eq_ok_of_outcome hval.symm, eq_ok_of_outcome hval⟩
    rw [Constraint.compare_holds_iff]
    simp only [hval', Relation.holds_iff]
    rfl
  rw [Variable.respected_iff]
  unfold condition?
  cases row.declared.isSymmetric with
  | true => exact ⟨fun _ h => (nomatch h), fun _ b hb => (nomatch hb)⟩
  | false =>
    constructor
    · intro h _ r hr
      refine (hcompare r).mp (h _ ?_)
      rw [hr]
      rfl
    · intro h b hb
      obtain ⟨r, hr, rfl⟩ := Option.map_eq_some_iff.mp hb
      exact (hcompare r).mpr (h rfl r hr)

namespace Elimination.Reduces

variable {e : Elimination α} {p : Problem α}

omit [Spectral α] in
/-- A replacement has the value of the variable that its row declares. -/
theorem outcome_replacement (h : e.Reduces p)
    (hs : ∀ v ∈ p.leaves, Substitution.KeepsShape e.inverse.replacement? v)
    (hm : ∀ v ∈ p.leaves, Substitution.KeepsMatrix e.inverse.replacement? σ τ v)
    {row : Row α} (hrow : row ∈ e.inverse.rows) :
    outcome (row.replacement.value σ) = outcome ((Expr.var row.declared).value τ) := by
  have hv := h.declared_mem_leaves hrow
  have hval := Expr.outcome_value_subst (e := .var row.declared)
    (List.forall_mem_singleton.mpr (hs _ hv)) (List.forall_mem_singleton.mpr (hm _ hv))
  unfold Inverse.replacement? at hval
  rw [Expr.subst_var, h.row?_declared hrow] at hval
  exact hval

/-- The constraints that were added hold where the attributes do. -/
theorem added_hold_iff (h : e.Reduces p)
    (hleaves : ∀ v ∈ p.leaves, ∀ w ∈ p.leaves, v.id = w.id → v = w)
    (hval : ∀ row ∈ e.inverse.rows,
      outcome (row.replacement.value σ) = outcome ((Expr.var row.declared).value τ))
    {added : List (Constraint α)}
    (hadded : added.map Constraint.body = e.inverse.rows.filterMap Row.condition?) :
    (∀ c ∈ added, c.Holds σ) ↔ ∀ v ∈ p.leaves, v.isSymmetric = false → v.Respected τ := by
  have hbody : (∀ c ∈ added, c.Holds σ) ↔
      ∀ b ∈ e.inverse.rows.filterMap Row.condition?, Constraint.Holds σ ⟨0, b⟩ := by
    rw [← hadded, List.forall_mem_map]
    rfl
  rw [hbody, h.forall_leaves_iff hleaves]
  simp only [List.mem_filterMap]
  constructor
  · intro hb row hrow
    refine (Row.condition_holds_iff (hval row hrow)).mp fun b hcond => ?_
    exact hb b ⟨row, hrow, hcond⟩
  · intro hr b ⟨row, hrow, hcond⟩
    exact (Row.condition_holds_iff (hval row hrow)).mpr (hr row hrow) b hcond

/-- **The reduced problem is feasible where the given one is**, under any values that the
replacements share with the variables. -/
theorem satisfied_iff (h : e.Reduces p)
    (hleaves : ∀ v ∈ p.leaves, ∀ w ∈ p.leaves, v.id = w.id → v = w)
    (hm : ∀ v ∈ p.leaves, Substitution.KeepsMatrix e.inverse.replacement? σ τ v) :
    e.problem.Satisfied σ ↔ p.Feasible τ := by
  have hs := h.keepsShape fun v hv w hw hid => by rw [hleaves v hv w hw hid]
  obtain ⟨added, hadded, hcs⟩ := h.constraints
  have hgiven : (∀ c ∈ p.constraints.map (Constraint.subst e.inverse.replacement?), c.Holds σ) ↔
      ∀ c ∈ p.constraints, c.Holds τ := by
    rw [List.forall_mem_map]
    refine forall₂_congr fun c hc => Constraint.holds_congr ?_
    exact Problem.outcome_violation_of_mem hs hm hc
  have hnew := h.added_hold_iff hleaves (fun _ hrow => h.outcome_replacement hs hm hrow) hadded
  rw [Problem.satisfied_iff, hcs, List.forall_mem_append, hgiven, hnew, ← Problem.satisfied_iff]
  exact ⟨fun hf => ⟨hf.1, hf.2⟩, fun hf => ⟨hf.constraints, hf.attributes⟩⟩

end Elimination.Reduces

end

/-! ## Values for the stand-ins -/

section
variable {α : Type} [Scalar α]

/-- The variable has a value with as many entries as its shape, which is a symmetric matrix if the
variable is symmetric. -/
def Variable.Fits (τ : Assignment α) (v : Variable) : Prop :=
  ∃ c, τ v.id = some c ∧ c.toMatrix.size = v.shape.size ∧
    (v.isSymmetric = true → c.toMatrix.IsSymmetricOf v.shape.rows)

/-- The variable has the same entries under both, and the very same value unless it is
symmetric. -/
def Variable.Agrees (σ τ : Assignment α) (v : Variable) : Prop :=
  ∃ c d, σ v.id = some c ∧ τ v.id = some d ∧ c.toMatrix = d.toMatrix ∧
    (v.isSymmetric = false → c = d)

omit [Scalar α] in
theorem Row.exists_table {rows : List (Row α)} {P : Row α → Value α → Prop}
    (hp : rows.Pairwise fun r s => r.standIn.id ≠ s.standIn.id) (h : ∀ r ∈ rows, ∃ c, P r c) :
    ∃ t : Table α, ∀ r ∈ rows, ∃ c, t[r.standIn.id]? = some c ∧ P r c := by
  induction rows with
  | nil => exact ⟨∅, fun r hr => absurd hr List.not_mem_nil⟩
  | cons r rows ih =>
    rw [List.pairwise_cons] at hp
    obtain ⟨⟨c, hc⟩, hrows⟩ := List.forall_mem_cons.mp h
    obtain ⟨t, ht⟩ := ih hp.2 hrows
    refine ⟨t.insert r.standIn.id c, List.forall_mem_cons.mpr ⟨⟨c, ?_, hc⟩, fun s hs => ?_⟩⟩
    · rw [Std.ExtTreeMap.getElem?_insert_self]
    · rw [Std.ExtTreeMap.getElem?_insert, if_neg (by simpa using hp.1 s hs)]
      exact ht s hs

variable [Scalar.UnitLaws α]

/-- Each stand-in has a value that is carried back to the one wanted. -/
theorem Row.Made.exists_value {r : Row α} (hr : r.Made) {τ : Assignment α}
    (hfit : r.declared.Fits τ) :
    ∃ c, ∀ σ : Assignment α, σ r.standIn.id = some c →
      ∃ d, r.recover σ = .ok (some d) ∧ ∃ f, τ r.declared.id = some f ∧ d.toMatrix = f.toMatrix ∧
        (r.declared.isSymmetric = false → d = f) := by
  obtain ⟨f, hf, _, hsymm⟩ := hfit
  cases hs : r.declared.isSymmetric with
  | false =>
    refine ⟨f, fun σ hσ => ⟨f, ?_, f, hf, rfl, fun _ => rfl⟩⟩
    rw [recover_of_not_symmetric σ hs, hσ]
  | true =>
    have hm := hsymm hs
    have hsize : (Value.ofColumn (UpperTriangle.upper f.toMatrix)).size
        = UpperTriangle.length r.declared.shape.rows := by
      show (UpperTriangle.upper f.toMatrix).size * 1 = _
      rw [Nat.mul_one, UpperTriangle.size_upper, hm.rows]
    refine ⟨.ofColumn (UpperTriangle.upper f.toMatrix), fun σ hσ =>
      ⟨_, recover_of_size hs hσ hsize, f, hf, ?_, fun h => nomatch h⟩⟩
    show (fullValue _ (UpperTriangle.symmetrize _ (UpperTriangle.upper f.toMatrix))).toMatrix = _
    rw [← hm.rows, UpperTriangle.symmetrize_upper hm.transpose]
    exact toMatrix_fullValue hm.rows (hm.cols.trans (Shape.cols_of_isSquare (hr.isSquare hs)).symm)

theorem Elimination.Reduces.exists_solution {e : Elimination α} {p : Problem α} {τ : Assignment α}
    (h : e.Reduces p) (hp : e.inverse.rows.Pairwise fun r s => r.standIn.id ≠ s.standIn.id)
    (hleaves : ∀ v ∈ p.leaves, ∀ w ∈ p.leaves, v.id = w.id → v = w)
    (hfit : ∀ v ∈ p.leaves, v.Fits τ) :
    ∃ s r : Solution α, e.inverse.recover s = .ok r ∧
      ∀ v ∈ p.leaves, v.Agrees r.primal.assignment τ := by
  -- the values are chosen row by row and put into one table, then carried back by their rows
  obtain ⟨t, ht⟩ := Row.exists_table hp fun row hrow =>
    (h.made row hrow).exists_value (hfit _ (h.declared_mem_leaves hrow))
  have hrec : ∀ row ∈ e.inverse.rows, ∃ d, row.recover t.assignment = .ok (some d) ∧
      ∃ f, τ row.declared.id = some f ∧ d.toMatrix = f.toMatrix ∧
        (row.declared.isSymmetric = false → d = f) := by
    intro row hrow
    obtain ⟨c, hc, hback⟩ := ht row hrow
    exact hback t.assignment hc
  obtain ⟨t', ht'⟩ : ∃ t', Row.recoverAll t.assignment e.inverse.rows = .ok t' := by
    refine Row.exists_recoverAll fun row hrow => ?_
    obtain ⟨d, hd, _⟩ := hrec row hrow
    exact ⟨some d, hd⟩
  refine ⟨⟨.optimal, none, t, ∅⟩, _, Inverse.recover_of_recoverAll ht', ?_⟩
  rw [h.forall_leaves_iff hleaves]
  intro row hrow
  obtain ⟨d, hd, f, hf, hdf, heq⟩ := hrec row hrow
  have hback := Row.recover_of_recoverAll ht' h.pairwise_rows row hrow
  rw [hd] at hback
  exact ⟨d, f, (Except.ok.inj hback).symm, hf, hdf, heq⟩

theorem Row.recover_isSymmetricOf {r : Row α} (hr : r.Made) {σ : Assignment α} {c : Value α}
    (hs : r.declared.isSymmetric = true) (hc : r.recover σ = .ok (some c)) :
    c.toMatrix.IsSymmetricOf r.declared.shape.rows := by
  obtain ⟨_, hnone⟩ | ⟨d, _, _, hsome⟩ := recover_of_symmetric hs hc
  · cases hnone
  · have hcols := Shape.cols_of_isSquare (hr.isSquare hs)
    rw [Option.some.inj hsome, toMatrix_fullValue rfl hcols.symm]
    exact UpperTriangle.isSymmetricOf_symmetrize _ _

end

/-- **The reduced problem has the feasible points at which the attributes hold.**  A solution of it
is feasible where its recovered values are, and these are symmetric where they are declared to be;
and any values of the variables, symmetric where they have to be, are the recovered values of some
solution. -/
theorem eliminate_feasible_iff {α : Type} [ExactScalar α] [Spectral α] {p : Problem α}
    {next next' : Ident} {e : Elimination α}
    (hleaves : ∀ v ∈ p.leaves, ∀ w ∈ p.leaves, v.id = w.id → v = w)
    (he : p.eliminate next = (.ok e, next')) :
    (∀ s r, e.inverse.recover s = .ok r →
      (e.problem.Satisfied s.primal.assignment ↔ p.Feasible r.primal.assignment) ∧
      ∀ v ∈ p.leaves, v.isSymmetric = true → ∀ c, r.primal.assignment v.id = some c →
        c.toMatrix.IsSymmetricOf v.shape.rows) ∧
    ((∀ v ∈ p.leaves, v.id < next) → ∀ τ, (∀ v ∈ p.leaves, v.Fits τ) →
      ∃ s r, e.inverse.recover s = .ok r ∧ (∀ v ∈ p.leaves, v.Agrees r.primal.assignment τ) ∧
        (e.problem.Satisfied s.primal.assignment ↔ p.Feasible τ)) := by
  have hred := Problem.eliminate_reduces he
  have hshape : ∀ v ∈ p.leaves, ∀ w ∈ p.leaves, v.id = w.id → v.shape = w.shape :=
    fun v hv w hw hid => by rw [hleaves v hv w hw hid]
  constructor
  · intro s r hr
    refine ⟨hred.satisfied_iff hleaves (hred.keepsMatrix hshape hr), ?_⟩
    rw [hred.forall_leaves_iff hleaves]
    intro row hrow hs c hc
    have hrec := Row.recover_of_recoverAll (Inverse.recover_eq_ok hr).1 hred.pairwise_rows row hrow
    refine Row.recover_isSymmetricOf (hred.made row hrow) hs (hrec.trans ?_)
    exact congrArg Except.ok hc
  · intro hold τ hfit
    obtain ⟨s, r, hr, hagree⟩ :=
      hred.exists_solution (Problem.pairwise_standIn he hold) hleaves hfit
    refine ⟨s, r, hr, hagree, hred.satisfied_iff hleaves fun v hv => ?_⟩
    obtain ⟨c, d, hc, hd, hcd, _⟩ := hagree v hv
    exact (hred.keepsMatrix hshape hr v hv).trans (Variable.outcome_matrix_of_toMatrix_eq hc hd hcd)

/-- `X = [1, 2; 2, 3]` and `y = 2` in terms of the declared variables. -/
def Assignment.traceAbove : Assignment ℚ :=
  (Table.ofPairs [(0, .dense ⟨2, 2, #[1, 2, 2, 3], rfl⟩), (1, .scalar 2)]).assignment

theorem Assignment.traceAbove_fits : ∀ v ∈ Problem.traceAbove.leaves, v.Fits Assignment.traceAbove := by
  have hl : Problem.traceAbove.leaves = [⟨0, .matrix 2 2, none, { symmetric := true }⟩,
      ⟨0, .matrix 2 2, none, { symmetric := true }⟩, ⟨1, .scalar, none, { nonneg := true }⟩] := rfl
  rw [hl]
  have hx : (⟨0, .matrix 2 2, none, { symmetric := true }⟩ : Variable).Fits Assignment.traceAbove :=
    ⟨_, rfl, rfl, fun _ => ⟨rfl, rfl, rfl⟩⟩
  have hy : (⟨1, .scalar, none, { nonneg := true }⟩ : Variable).Fits Assignment.traceAbove :=
    ⟨_, rfl, rfl, fun h => nomatch h⟩
  intro v hv
  rcases List.mem_cons.mp hv with rfl | hv
  · exact hx
  · rcases List.mem_cons.mp hv with rfl | hv
    · exact hx
    · rw [List.mem_singleton.mp hv]
      exact hy

theorem eliminate_feasible_iff_traceAbove : ∃ e next r,
    Problem.traceAbove.eliminate 3 = (.ok e, next) ∧
    e.inverse.recover Solution.traceAbove = .ok r ∧
    e.problem.Satisfied Solution.traceAbove.primal.assignment ∧
    Problem.traceAbove.Feasible r.primal.assignment ∧
    ∃ s' r', e.inverse.recover s' = .ok r' ∧
      (∀ v ∈ Problem.traceAbove.leaves, v.Agrees r'.primal.assignment Assignment.traceAbove) ∧
      (e.problem.Satisfied s'.primal.assignment ↔
        Problem.traceAbove.Feasible Assignment.traceAbove) := by
  have he : Problem.traceAbove.eliminate 3 = (.ok _, _) := rfl
  have h := eliminate_feasible_iff (by decide) he
  have hz : (Problem.traceAbove.afterScan
      (Scan.run ⟨3, []⟩ Problem.traceAbove.unknowns)).problem.maxViolation
      Solution.traceAbove.primal.assignment = .ok 0 := by decide +kernel
  exact ⟨_, _, _, rfl, rfl, hz, (h.1 Solution.traceAbove _ rfl).1.mp hz,
    h.2 (by decide) _ Assignment.traceAbove_fits⟩

end ConvexProgram
