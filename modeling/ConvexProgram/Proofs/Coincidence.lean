import ConvexProgram.Proofs.DistinctVariables
import ConvexProgram.Proofs.Replacement

/-!
# What evaluation reads

Evaluation looks at the values of the variables that occur and at no others, it needs all of them,
and it asks for them from left to right.

* `Reads`               a computation depends on the values of the listed variables alone, needs each
  of them, and fails at the first one without a value if that is all that is wrong;
* `Reads.bind`          two computations in a row read the variables of both, one list after the
  other;
* `Expr.reads_matrix`, `Constraint.reads_violation`, `Problem.reads_worstViolation`   what is read
  are the leaves, in their order;
* `evaluation_reads_variables`   the same of values, violations and problems, by ids.
-/

namespace ConvexProgram

open Fault

variable {α β γ : Type}

/-! ## Values that are there and values that are not -/

namespace Assignment

/-- Every value of `σ` is one of `τ`, under the same id. -/
def Extends (τ σ : Assignment α) : Prop := ∀ id c, σ id = some c → τ id = some c

/-- The first of the variables that has no value. -/
def firstMissing? (σ : Assignment α) (vs : List Variable) : Option Variable :=
  vs.find? fun v => (σ v.id).isNone

variable {σ τ : Assignment α} {vs : List Variable}

theorem firstMissing?_eq_none_iff :
    σ.firstMissing? vs = none ↔ ∀ v ∈ vs, ∃ c, σ v.id = some c := by
  unfold firstMissing?
  simp [Option.ne_none_iff_exists']

theorem of_firstMissing?_eq_some {v : Variable} (h : σ.firstMissing? vs = some v) :
    v ∈ vs ∧ σ v.id = none := by
  have hnone := List.find?_some (p := fun w : Variable => (σ w.id).isNone) h
  exact ⟨List.mem_of_find?_eq_some h, Option.isNone_iff_eq_none.mp hnone⟩

theorem firstMissing?_append (vs ws : List Variable) :
    σ.firstMissing? (vs ++ ws) = (σ.firstMissing? vs).or (σ.firstMissing? ws) :=
  List.find?_append

/-- An extension agrees with the values that are there. -/
theorem Extends.agrees (h : τ.Extends σ) (hvs : ∀ v ∈ vs, ∃ c, σ v.id = some c) :
    ∀ v ∈ vs, σ v.id = τ v.id := by
  intro v hv
  obtain ⟨c, hc⟩ := hvs v hv
  rw [hc, h v.id c hc]

end Assignment

open Assignment

/-! ## Computations that read variables -/

/-- The computation reads the values of these variables, in this order. -/
structure Reads (vs : List Variable) (f : Assignment α → Except Fault β) : Prop where
  /-- no other value is looked at -/
  congr : ∀ {σ τ : Assignment α}, (∀ v ∈ vs, σ v.id = τ v.id) → f σ = f τ
  /-- there is no result without all of the values -/
  assigned : ∀ {σ : Assignment α} {b : β}, f σ = .ok b → ∀ v ∈ vs, ∃ c, σ v.id = some c
  /-- if further values would give a result, the fault is the first value that is not there -/
  missing : ∀ {σ τ : Assignment α} {b : β} {v : Variable}, τ.Extends σ → f τ = .ok b →
    σ.firstMissing? vs = some v → f σ = .error (.unassigned v.label)

namespace Reads

variable {vs ws : List Variable} {f : Assignment α → Except Fault β}

theorem const (x : Except Fault β) : Reads [] fun _ : Assignment α => x where
  congr _ := rfl
  assigned _ _ hv := absurd hv List.not_mem_nil
  missing _ _ hv := nomatch hv

/-- A fault that comes whatever the values are leaves no result to account for. -/
theorem fault (vs : List Variable) (e : Fault) :
    Reads vs fun _ : Assignment α => (.error e : Except Fault β) where
  congr _ := rfl
  assigned h := nomatch h
  missing _ h := nomatch h

/-- **Two computations in a row** read the variables of the first and then those of the second. -/
theorem bind {g : β → Assignment α → Except Fault γ} (hf : Reads vs f) (hg : ∀ b, Reads ws (g b)) :
    Reads (vs ++ ws) fun σ => (f σ).bind fun b => g b σ where
  congr {σ τ} h := by
    rw [List.forall_mem_append] at h
    have hgστ : (fun b => g b σ) = fun b => g b τ := funext fun b => (hg b).congr h.2
    rw [hf.congr h.1, hgστ]
  assigned {σ b} h := by
    obtain ⟨a, ha, hb⟩ := bind_eq_ok_iff.mp h
    exact List.forall_mem_append.mpr ⟨hf.assigned ha, (hg a).assigned hb⟩
  missing {σ τ b v} hext hb hv := by
    obtain ⟨a, ha, hb⟩ := bind_eq_ok_iff.mp hb
    rw [firstMissing?_append] at hv
    cases hvs : σ.firstMissing? vs with
    | some w =>
      rw [hvs] at hv
      obtain rfl : w = v := Option.some.inj hv
      rw [hf.missing hext ha hvs]
      rfl
    | none =>
      -- all that the first one reads is there, so it has the result it has in the extension
      rw [hvs] at hv
      rw [hf.congr (hext.agrees (firstMissing?_eq_none_iff.mp hvs)), ha]
      exact (hg a).missing hext hb hv

/-- What is done with a result reads nothing more. -/
theorem andThen (hf : Reads vs f) (g : β → Except Fault γ) : Reads vs fun σ => (f σ).bind g := by
  have h := hf.bind fun b => const (α := α) (g b)
  rwa [List.append_nil] at h

/-- Values that agree on the ids of more variables than are read give the same. -/
theorem eq_of_agree {σ τ : Assignment α} (hf : Reads vs f) (hvs : vs ⊆ ws)
    (h : ∀ id ∈ Variable.sortedIds ws, σ id = τ id) : f σ = f τ :=
  hf.congr fun v hv => h v.id (Variable.mem_sortedIds.mpr ⟨v, hvs hv, rfl⟩)

end Reads

/-! ## Expressions -/

variable [Scalar α]

theorem Variable.reads_matrix (v : Variable) : Reads [v] fun σ : Assignment α => v.matrix σ where
  congr {σ τ} h := by
    unfold matrix
    rw [h v (List.mem_singleton_self v)]
  assigned h w hw := by
    obtain rfl : w = v := List.mem_singleton.mp hw
    obtain ⟨c, hc, _⟩ := exists_of_matrix_eq_ok h
    exact ⟨c, hc⟩
  missing _ _ hw := by
    obtain ⟨hwv, hnone⟩ := of_firstMissing?_eq_some hw
    cases List.mem_singleton.mp hwv
    unfold matrix
    rw [hnone]

namespace Expr

theorem reads_matrices {es : List (Expr α)} (h : ∀ e ∈ es, Reads e.leaves fun σ => e.matrix σ) :
    Reads (es.flatMap leaves) fun σ => matrices σ es := by
  induction es with
  | nil => exact Reads.const _
  | cons e es ih =>
    rw [List.forall_mem_cons] at h
    exact h.1.bind fun m => (ih h.2).andThen fun ms => .ok (m :: ms)

/-- An expression reads its leaves, from left to right. -/
theorem reads_matrix (e : Expr α) : Reads e.leaves fun σ => e.matrix σ := by
  induction e using Expr.ind with
  | var v => exact v.reads_matrix
  | const id c => exact Reads.const _
  | unary op a ih => exact ih.andThen (op.apply a.shape)
  | binary op a b iha ihb =>
    exact iha.bind fun m => ihb.andThen (op.apply a.shape b.shape m)
  | stack d es ih =>
    rw [leaves_stack]
    exact (reads_matrices ih).andThen d.apply

theorem reads_value (e : Expr α) : Reads e.leaves fun σ => e.value σ := e.reads_matrix.andThen _

end Expr

/-! ## Constraints and problems -/

variable [Spectral α]

theorem Body.reads_violation (b : Body α) :
    Reads (b.args.flatMap Expr.leaves) fun σ => b.violation σ := by
  cases b with
  | compare r a =>
    show Reads (a.leaves ++ []) _
    rw [List.append_nil]
    exact a.reads_value.andThen fun v => r.violation v.toMatrix
  | cone bound a =>
    show Reads (bound.leaves ++ (a.leaves ++ [])) _
    rw [List.append_nil]
    refine bound.reads_value.bind fun t => ?_
    -- a bound of another size is refused before the argument is looked at
    by_cases ht : t.toMatrix.size = 1
    · simp only [if_pos ht]
      exact a.reads_value.andThen _
    · simp only [if_neg ht]
      exact Reads.fault a.leaves _

theorem Constraint.reads_violation (c : Constraint α) : Reads c.leaves fun σ => c.violation σ :=
  c.body.reads_violation

theorem Problem.reads_worstViolation (cs : List (Constraint α)) (worst : α) :
    Reads (cs.flatMap Constraint.leaves) fun σ => worstViolation σ worst cs := by
  induction cs generalizing worst with
  | nil => exact Reads.const _
  | cons c cs ih => exact c.reads_violation.bind fun x => ih (Scalar.larger worst x)

/-! ## What is read, by ids -/

/-- **Evaluation reads the variables that occur.**  The value of an expression depends on the values
of its variables alone, and there is none without all of them; if nothing but values is missing, the
fault names the first leaf without one.  Violations, objective values and the largest violation
depend on the values of the variables alone as well. -/
theorem evaluation_reads_variables {α : Type} [Scalar α] [Spectral α] {σ τ : Assignment α} :
    (∀ e : Expr α, (∀ id ∈ e.variableIds, σ id = τ id) → e.value σ = e.value τ) ∧
    (∀ e : Expr α, (∃ c, e.value σ = .ok c) → ∀ id ∈ e.variableIds, ∃ d, σ id = some d) ∧
    (∀ e : Expr α, (∃ id ∈ e.variableIds, σ id = none) → τ.Extends σ → (∃ c, e.value τ = .ok c) →
      ∃ v, σ.firstMissing? e.leaves = some v ∧ e.value σ = .error (.unassigned v.label)) ∧
    (∀ c : Constraint α, (∀ id ∈ c.variableIds, σ id = τ id) → c.violation σ = c.violation τ) ∧
    ∀ p : Problem α, (∀ id ∈ p.variableIds, σ id = τ id) →
      p.objectiveValue σ = p.objectiveValue τ ∧ p.maxViolation σ = p.maxViolation τ := by
  refine ⟨fun e => e.reads_value.eq_of_agree (List.Subset.refl _), ?_, ?_,
    fun c => c.reads_violation.eq_of_agree (List.Subset.refl _), fun p h => ⟨?_, ?_⟩⟩
  · rintro e ⟨c, hc⟩ id hid
    obtain ⟨v, hv, rfl⟩ := Variable.mem_sortedIds.mp hid
    exact e.reads_value.assigned hc v hv
  · rintro e ⟨id, hid, hnone⟩ hext ⟨c, hc⟩
    cases hv : σ.firstMissing? e.leaves with
    | some v => exact ⟨v, rfl, e.reads_value.missing hext hc hv⟩
    | none =>
      obtain ⟨v, hv', rfl⟩ := Variable.mem_sortedIds.mp hid
      obtain ⟨d, hd⟩ := firstMissing?_eq_none_iff.mp hv v hv'
      cases hd.symm.trans hnone
  · exact p.objective.reads_value.eq_of_agree (List.subset_append_left _ _) h
  · exact (Problem.reads_worstViolation p.constraints 0).eq_of_agree
      (List.subset_append_right _ _) h

/-- The vector `y + x` times the number `z`, with `z` on the left. -/
def Expr.scaledSum : Expr ℚ :=
  (Expr.var ⟨2, .scalar, none, {}⟩).mul
    ((Expr.var ⟨1, .vector 2, some "y", {}⟩).add (.var ⟨0, .vector 2, none, {}⟩))

/-- The value of `z` alone. -/
def Assignment.ofScale (z : ℚ) : Assignment ℚ
  | 2 => some (.scalar z)
  | _ => none

/-- Of `y` and `x`, which have no values, `y` is read first; and a value for an id that does not
occur changes nothing. -/
theorem evaluation_reads_variables_scaledSum :
    (∃ id ∈ Expr.scaledSum.variableIds, Assignment.ofScale 7 id = none) ∧
    (Assignment.ofTriple #[1, 2] #[3, 4] 7).Extends (.ofScale 7) ∧
    (∃ c, Expr.scaledSum.value (.ofTriple #[1, 2] #[3, 4] 7) = .ok c) ∧
    Expr.scaledSum.value (.ofScale 7) = .error (.unassigned "y") ∧
    (∀ id ∈ Problem.ordered.variableIds, Assignment.ofTriple #[1, 2] #[3, 4] 7 id
      = Function.update (Assignment.ofTriple #[1, 2] #[3, 4] 7) 5 (some (.scalar 0)) id) ∧
    Problem.ordered.maxViolation (.ofTriple #[1, 2] #[3, 4] 7) = Problem.ordered.maxViolation
      (Function.update (Assignment.ofTriple #[1, 2] #[3, 4] 7) 5 (some (.scalar 0))) := by
  have hmissing : ∃ id ∈ Expr.scaledSum.variableIds, Assignment.ofScale 7 id = none :=
    ⟨1, Variable.mem_sortedIds.mpr ⟨⟨1, .vector 2, some "y", {}⟩, by decide, rfl⟩, rfl⟩
  have hext : (Assignment.ofTriple #[1, 2] #[3, 4] 7).Extends (.ofScale 7) := by
    intro id c hc
    match id, hc with
    | 2, hc => exact hc
  have hvalue : ∃ c, Expr.scaledSum.value (.ofTriple #[1, 2] #[3, 4] 7) = .ok c := ⟨_, rfl⟩
  have hagree : ∀ id ∈ Problem.ordered.variableIds, Assignment.ofTriple #[1, 2] #[3, 4] 7 id
      = Function.update (Assignment.ofTriple #[1, 2] #[3, 4] 7) 5 (some (.scalar 0)) id := by
    intro id hid
    obtain ⟨v, hv, rfl⟩ := Variable.mem_sortedIds.mp hid
    have hne : ∀ v ∈ Problem.ordered.leaves, v.id ≠ 5 := by decide
    exact (Function.update_of_ne (hne v hv) _ _).symm
  obtain ⟨v, hv, herror⟩ := evaluation_reads_variables.2.2.1 _ hmissing hext hvalue
  cases hv
  exact ⟨hmissing, hext, hvalue, herror, hagree,
    (evaluation_reads_variables.2.2.2.2 _ hagree).2⟩

end ConvexProgram
