import ConvexProgram.Proofs.Elimination.Form

/-!
# A second elimination

In a reduced problem nothing restricts a variable, and leaves of one id are equal.  An elimination
from such a problem keeps every variable and replaces it by itself, so it draws no id, adds no
constraint and gives the problem back (`Problem.eliminate_of_isPlain`).  Eliminating twice is
eliminating once (`eliminate_idempotent`).
-/

namespace ConvexProgram

variable {α : Type}

/-- Nothing restricts a variable of the problem, and leaves of one id are equal. -/
structure Problem.IsPlain (p : Problem α) : Prop where
  plain : ∀ v ∈ p.leaves, v.attributes.hasForcing = false
  unique : ∀ v ∈ p.leaves, ∀ w ∈ p.leaves, v.id = w.id → v = w

/-- the row of a variable that stands for itself -/
def Row.same (v : Variable) : Row α := ⟨v, v, .var v⟩

/-! ## Plain variables in a scan -/

section
variable [Scalar α]

theorem Counter.visit_of_plain (c : Counter) {v : Variable} (h : v.attributes.hasForcing = false) :
    (c.visit v : Except Fault (Visit α)) = .ok (c.keep v) := by
  obtain ⟨hplain, hrel⟩ := Attributes.hasForcing_eq_false_iff.mp h
  have hsym : v.isSymmetric = false := hplain
  unfold visit
  rw [hsym, hrel]
  rfl

theorem Scan.run_of_plain (c : Counter) {vs : List Variable}
    (h : ∀ v ∈ vs, v.attributes.hasForcing = false) :
    (run c vs : Scan α) = ⟨vs.map Row.same, [], c.next, none⟩ := by
  induction vs with
  | nil => rfl
  | cons v vs ih =>
    rw [List.forall_mem_cons] at h
    rw [run, Counter.visit_of_plain c h.1]
    -- a variable that is kept leaves the counter as it is
    show Scan.mk (.same v :: (run c vs).rows) (run c vs).added (run c vs).next (run c vs).fault = _
    rw [ih h.2]
    rfl

end

/-! ## Plain problems -/

section
variable {p : Problem α}

theorem Problem.IsPlain.row?_same (h : p.IsPlain) {v : Variable} (hv : v ∈ p.leaves) :
    (⟨p.unknowns.map Row.same⟩ : Inverse α).row? v.id = some (.same v) := by
  obtain ⟨w, hw, hid⟩ := Variable.exists_mem_firstOfEach hv
  have hwv : w = v := h.unique w (Variable.mem_of_mem_firstOfEach hw) v hv hid
  have hp : (p.unknowns.map Row.same).Pairwise fun r s : Row α => r.declared.id ≠ s.declared.id :=
    List.pairwise_map.mpr (Variable.pairwise_firstOfEach p.leaves)
  exact Row.find?_declared hp (List.mem_map_of_mem (hwv ▸ hw))

theorem Problem.IsPlain.subst_same (h : p.IsPlain) :
    p.subst (⟨p.unknowns.map Row.same⟩ : Inverse α).replacement? = p := by
  refine subst_eq_self fun v hv => ?_
  rw [Expr.subst_var, Inverse.replacement?, h.row?_same hv]
  rfl

/-- **Eliminating from a plain problem does nothing.** -/
theorem Problem.eliminate_of_isPlain [Scalar α] (h : p.IsPlain) (next : Ident) :
    p.eliminate next = (.ok ⟨p, ⟨p.unknowns.map Row.same⟩⟩, next) := by
  have hscan : (Scan.run ⟨next, []⟩ p.unknowns : Scan α)
      = ⟨p.unknowns.map Row.same, [], next, none⟩ :=
    Scan.run_of_plain _ fun v hv => h.plain v (Variable.mem_of_mem_firstOfEach hv)
  unfold eliminate
  simp only [hscan, afterScan, h.subst_same, List.append_nil]

end

/-! ## The reduced problem -/

/-- A reduced problem is plain, if no two stand-ins share an id. -/
theorem Elimination.Reduces.isPlain [Scalar α] {e : Elimination α} {p : Problem α}
    (h : e.Reduces p)
    (hp : e.inverse.rows.Pairwise fun r s => r.standIn.id ≠ s.standIn.id) : e.problem.IsPlain := by
  have hnodup : (e.inverse.rows.map fun r => r.standIn.id).Nodup := List.pairwise_map.mpr hp
  constructor
  · intro v hv
    obtain ⟨r, hr, rfl⟩ := h.mem_leaves_iff.mp hv
    exact (h.made r hr).hasForcing_standIn
  · intro v hv w hw hid
    obtain ⟨r, hr, rfl⟩ := h.mem_leaves_iff.mp hv
    obtain ⟨s, hs, rfl⟩ := h.mem_leaves_iff.mp hw
    rw [List.inj_on_of_nodup_map hnodup hr hs hid]

/-- **Eliminating twice is eliminating once**, also where leaves of one id differ in the given
problem.  The reduced problem is plain; a second elimination draws no id and gives it back, and the
tables have each of its variables stand for itself. -/
theorem eliminate_idempotent [Scalar α] {p : Problem α} {next next' : Ident} {e : Elimination α}
    (hold : ∀ v ∈ p.leaves, v.id < next) (he : p.eliminate next = (.ok e, next'))
    (counter : Ident) :
    e.problem.IsPlain ∧
    ∃ e', e.problem.eliminate counter = (.ok e', counter) ∧ e'.problem = e.problem ∧
      (∀ id, (e'.inverse.row? id).isSome ↔ id ∈ e.problem.variableIds) ∧
      ∀ v ∈ e.problem.leaves, e'.inverse.declared? v.id = some v ∧
        e'.inverse.standIn? v.id = some v ∧ e'.inverse.replacement? v.id = some (.var v) := by
  have hplain : e.problem.IsPlain :=
    (Problem.eliminate_reduces he).isPlain (Problem.pairwise_standIn he hold)
  have he' := Problem.eliminate_of_isPlain hplain counter
  refine ⟨hplain, _, he', rfl, fun id => ?_, fun v hv => ?_⟩
  · rw [(Problem.eliminate_reduces he').isSome_row?_iff]
    exact List.mem_mergeSort.symm
  · rw [Inverse.declared?, Inverse.standIn?, Inverse.replacement?, hplain.row?_same hv]
    exact ⟨rfl, rfl, rfl⟩

/-- A `2 × 2` variable stands as symmetric in the objective, and under a name and as nonnegative in
the constraint; the sum of its entries is at most `t`. -/
def Problem.declaredTwice : Problem ℚ where
  sense := .minimize
  objective := (Expr.var ⟨0, .matrix 2 2, none, { symmetric := true }⟩).trace
  constraints := [⟨2, .compare .nonpos
    ((Expr.var ⟨0, .matrix 2 2, some "X", { nonneg := true }⟩).sum.sub
      (.var ⟨1, .scalar, some "t", { nonneg := true }⟩))⟩]

theorem eliminate_idempotent_declaredTwice : ∃ e e',
    (∀ v ∈ Problem.declaredTwice.leaves, v.id < 3) ∧
    Problem.declaredTwice.eliminate 3 = (.ok e, 7) ∧ e.problem.eliminate 7 = (.ok e', 7) ∧
    e.problem.IsPlain ∧ e'.problem = e.problem ∧
    e.problem.leaves.map Variable.id = [3, 3, 5, 5] ∧
    ∀ v ∈ e.problem.leaves, e'.inverse.standIn? v.id = some v := by
  have hold : ∀ v ∈ Problem.declaredTwice.leaves, v.id < 3 := by decide
  have he : Problem.declaredTwice.eliminate 3 = (.ok _, 7) := rfl
  obtain ⟨hplain, e', he', hsame, _, htables⟩ := eliminate_idempotent hold he 7
  exact ⟨_, e', hold, he, he', hplain, hsame, rfl, fun v hv => (htables v hv).2.1⟩

end ConvexProgram
