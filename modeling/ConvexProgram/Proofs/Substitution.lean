import ConvexProgram.Problem

/-!
# Substitution and evaluation

Two computations have the same outcome if both return the same result or both fail with a fault of
the same kind (`Fault.outcome`).  If each leaf of an expression is replaced by an expression of its
shape with the matrix of the leaf, then

* `Expr.shape_subst`              the declared shape stays;
* `Expr.outcome_matrix_subst`     the matrix, or the kind of fault, stays;
* `Expr.outcome_value_subst`, `Constraint.outcome_violation_subst`,
  `Problem.outcome_worstViolation_subst`   so do values and violations.

The replacements are evaluated under one assignment and the leaves under another, so that a
variable may be traded for others.
-/

namespace ConvexProgram

/-! ## Outcomes -/

namespace Fault

/-- What a caller can tell of a computation: its result, or the kind of its fault. -/
def outcome {β : Type} (x : Except Fault β) : Except Kind β := x.mapError kind

variable {β γ : Type}

@[simp] theorem outcome_ok (b : β) : outcome (.ok b) = .ok b := rfl

@[simp] theorem outcome_error (f : Fault) : outcome (.error f : Except Fault β) = .error f.kind := rfl

theorem outcome_eq_ok_iff {x : Except Fault β} {b : β} : outcome x = .ok b ↔ x = .ok b := by
  cases x with
  | ok c => simp
  | error f => simp

theorem eq_ok_of_outcome {x y : Except Fault β} {b : β} (h : outcome x = outcome y)
    (hy : y = .ok b) : x = .ok b := by
  rw [hy] at h
  exact outcome_eq_ok_iff.mp h

theorem exists_ok_iff_of_outcome {x : Except Fault β} {p : Prop} [Decidable p] {b : β} {k : Kind}
    (h : outcome x = if p then .ok b else .error k) : (∃ c, x = .ok c) ↔ p := by
  by_cases hp : p
  · rw [if_pos hp] at h
    exact iff_of_true ⟨b, outcome_eq_ok_iff.mp h⟩ hp
  · rw [if_neg hp] at h
    refine iff_of_false (fun ⟨c, hc⟩ => ?_) hp
    rw [hc] at h
    cases h

theorem outcome_bind {x y : Except Fault β} {f g : β → Except Fault γ} (h : outcome x = outcome y)
    (hf : ∀ b, outcome (f b) = outcome (g b)) : outcome (x.bind f) = outcome (y.bind g) := by
  cases x with
  | ok b =>
    have hy : y = .ok b := eq_ok_of_outcome h.symm rfl
    rw [hy]
    exact hf b
  | error e =>
    cases y with
    | ok b => cases h
    | error e' =>
      have hk : e.kind = e'.kind := Except.error.inj h
      exact congrArg Except.error hk

theorem bind_eq_ok_iff {x : Except Fault β} {f : β → Except Fault γ} {c : γ} :
    x.bind f = .ok c ↔ ∃ b, x = .ok b ∧ f b = .ok c := by
  cases x with
  | ok b => exact ⟨fun h => ⟨b, rfl, h⟩, fun ⟨_, hb, h⟩ => Except.ok.inj hb ▸ h⟩
  | error e => exact ⟨fun h => (nomatch h), fun ⟨_, hb, _⟩ => (nomatch hb)⟩

theorem bind_eq_error_iff {x : Except Fault β} {f : β → Except Fault γ} {e : Fault} :
    x.bind f = .error e ↔ x = .error e ∨ ∃ b, x = .ok b ∧ f b = .error e := by
  cases x with
  | ok b =>
    refine ⟨fun h => Or.inr ⟨b, rfl, h⟩, fun h => ?_⟩
    rcases h with hx | ⟨_, hb, h⟩
    · cases hx
    · exact Except.ok.inj hb ▸ h
  | error e' =>
    refine ⟨fun h => Or.inl (congrArg Except.error (Except.error.inj h)), fun h => ?_⟩
    rcases h with hx | ⟨_, hb, _⟩
    · exact congrArg Except.error (Except.error.inj hx)
    · cases hb

theorem map_eq_ok_iff {x : Except Fault β} {f : β → γ} {c : γ} :
    x.map f = .ok c ↔ ∃ b, x = .ok b ∧ f b = c := by
  cases x with
  | ok b =>
    exact ⟨fun h => ⟨b, rfl, Except.ok.inj h⟩, fun ⟨_, hb, h⟩ => Except.ok.inj hb ▸ congrArg _ h⟩
  | error e => exact ⟨fun h => (nomatch h), fun ⟨_, hb, _⟩ => (nomatch hb)⟩

theorem outcome_map_eq_error_iff {x : Except Fault β} {f : β → γ} {k : Kind} :
    outcome (x.map f) = .error k ↔ outcome x = .error k := by
  cases x with
  | ok b => exact ⟨nofun, nofun⟩
  | error e =>
    have hkind : ∀ {δ : Type}, outcome (.error e : Except Fault δ) = .error k ↔ e.kind = k :=
      ⟨Except.error.inj, congrArg Except.error⟩
    exact hkind.trans hkind.symm

theorem outcome_bind_eq_error_iff {x : Except Fault β} {f : β → Except Fault γ} {k : Kind} :
    outcome (x.bind f) = .error k ↔
      outcome x = .error k ∨ ∃ b, x = .ok b ∧ outcome (f b) = .error k := by
  cases x with
  | ok b =>
    refine ⟨fun h => Or.inr ⟨b, rfl, h⟩, fun h => ?_⟩
    rcases h with hx | ⟨_, hb, h⟩
    · cases hx
    · exact Except.ok.inj hb ▸ h
  | error e =>
    refine ⟨fun h => Or.inl (congrArg Except.error (Except.error.inj h)), fun h => ?_⟩
    rcases h with hx | ⟨_, hb, _⟩
    · exact congrArg Except.error (Except.error.inj hx)
    · cases hb

theorem outcome_bind_of_error {x : Except Fault β} {k : Kind} (f : β → Except Fault γ)
    (h : outcome x = .error k) : outcome (x.bind f) = .error k :=
  outcome_bind_eq_error_iff.mpr (Or.inl h)

end Fault

open Fault

variable {α : Type}

/-! ## Leaves that are replaced by their like -/

/-- The expression in place of a leaf has the shape of the leaf. -/
def Substitution.KeepsShape (θ : Substitution α) (v : Variable) : Prop :=
  ((Expr.var v).subst θ).shape = v.shape

/-- The expression in place of a leaf evaluates under `σ` as the leaf does under `τ`. -/
def Substitution.KeepsMatrix [Scalar α] (θ : Substitution α) (σ τ : Assignment α) (v : Variable) :
    Prop :=
  outcome (((Expr.var v).subst θ).matrix σ) = outcome (v.matrix τ)

namespace Expr

variable {θ : Substitution α}

theorem shape_subst {e : Expr α} (h : ∀ v ∈ e.leaves, θ.KeepsShape v) :
    (e.subst θ).shape = e.shape := by
  induction e using Expr.ind with
  | var v => exact (h v List.mem_cons_self).trans (shape_var v).symm
  | const id c => rw [subst_const]
  | unary op a ih => rw [subst_unary, shape_unary, shape_unary, ih h]
  | binary op a b iha ihb =>
    rw [leaves_binary, List.forall_mem_append] at h
    rw [subst_binary, shape_binary, shape_binary, iha h.1, ihb h.2]
  | stack d es ih =>
    rw [leaves_stack] at h
    have hs : (es.map (subst θ)).map shape = es.map shape := by
      rw [List.map_map]
      refine List.map_congr_left fun e he => ih e he fun v hv => ?_
      exact h v (List.mem_flatMap.mpr ⟨e, he, hv⟩)
    rw [subst_stack, shape_stack, shape_stack, hs]

variable [Scalar α] {σ τ : Assignment α}

theorem outcome_matrices_map {f g : Expr α → Expr α} {es : List (Expr α)}
    (h : ∀ e ∈ es, outcome ((f e).matrix σ) = outcome ((g e).matrix τ)) :
    outcome (matrices σ (es.map f)) = outcome (matrices τ (es.map g)) := by
  induction es with
  | nil => rfl
  | cons e es ih =>
    rw [List.forall_mem_cons] at h
    rw [List.map_cons, List.map_cons, matrices_cons, matrices_cons]
    exact outcome_bind h.1 fun m => outcome_bind (ih h.2) fun ms => rfl

/-- **A substitution that keeps the leaves keeps the matrix.**  The shapes have to be kept as well,
because some atoms look at the declared shape of an argument. -/
theorem outcome_matrix_subst {e : Expr α} (hs : ∀ v ∈ e.leaves, θ.KeepsShape v)
    (hm : ∀ v ∈ e.leaves, θ.KeepsMatrix σ τ v) :
    outcome ((e.subst θ).matrix σ) = outcome (e.matrix τ) := by
  induction e using Expr.ind with
  | var v => exact hm v List.mem_cons_self
  | const id c => rfl
  | unary op a ih =>
    rw [subst_unary, matrix_unary, matrix_unary, shape_subst (e := a) hs]
    exact outcome_bind (ih hs hm) fun m => rfl
  | binary op a b iha ihb =>
    rw [leaves_binary, List.forall_mem_append] at hs hm
    rw [subst_binary, matrix_binary, matrix_binary, shape_subst hs.1, shape_subst hs.2]
    exact outcome_bind (iha hs.1 hm.1) fun m => outcome_bind (ihb hs.2 hm.2) fun n => rfl
  | stack d es ih =>
    rw [leaves_stack] at hs hm
    have h : ∀ e ∈ es, outcome ((e.subst θ).matrix σ) = outcome (e.matrix τ) := fun e he =>
      ih e he (fun v hv => hs v (List.mem_flatMap.mpr ⟨e, he, hv⟩))
        (fun v hv => hm v (List.mem_flatMap.mpr ⟨e, he, hv⟩))
    have hms := outcome_matrices_map (g := id) h
    rw [List.map_id] at hms
    rw [subst_stack, matrix_stack, matrix_stack]
    exact outcome_bind hms fun ms => rfl

theorem outcome_value_subst {e : Expr α} (hs : ∀ v ∈ e.leaves, θ.KeepsShape v)
    (hm : ∀ v ∈ e.leaves, θ.KeepsMatrix σ τ v) :
    outcome ((e.subst θ).value σ) = outcome (e.value τ) := by
  unfold value
  rw [shape_subst hs]
  exact outcome_bind (outcome_matrix_subst hs hm) fun m => rfl

end Expr

/-! ## Constraints and problems -/

variable [Scalar α] [Spectral α] {θ : Substitution α} {σ τ : Assignment α}

theorem Constraint.outcome_violation_subst {c : Constraint α}
    (hs : ∀ v ∈ c.leaves, θ.KeepsShape v) (hm : ∀ v ∈ c.leaves, θ.KeepsMatrix σ τ v) :
    outcome ((c.subst θ).violation σ) = outcome (c.violation τ) := by
  obtain ⟨id, b⟩ := c
  have hv : ∀ a ∈ b.args, outcome ((a.subst θ).value σ) = outcome (a.value τ) := fun a ha =>
    Expr.outcome_value_subst (fun v hv => hs v (List.mem_flatMap.mpr ⟨a, ha, hv⟩))
      (fun v hv => hm v (List.mem_flatMap.mpr ⟨a, ha, hv⟩))
  cases b with
  | compare r a => exact outcome_bind (hv a List.mem_cons_self) fun m => rfl
  | cone bound a =>
    refine outcome_bind (hv bound List.mem_cons_self) fun t => ?_
    show outcome (if _ then _ else _) = outcome (if _ then _ else _)
    split
    · exact outcome_bind (hv a (List.mem_cons_of_mem _ List.mem_cons_self)) fun m => rfl
    · rfl

/-- What is kept of the leaves of a problem is kept of each of its constraints. -/
theorem Problem.outcome_violation_of_mem {p : Problem α} (hs : ∀ v ∈ p.leaves, θ.KeepsShape v)
    (hm : ∀ v ∈ p.leaves, θ.KeepsMatrix σ τ v) {c : Constraint α} (hc : c ∈ p.constraints) :
    outcome ((c.subst θ).violation σ) = outcome (c.violation τ) := by
  have hleaf : ∀ v ∈ c.leaves, v ∈ p.leaves := by
    intro v hv
    exact List.mem_append_right _ (List.mem_flatMap.mpr ⟨c, hc, hv⟩)
  exact Constraint.outcome_violation_subst (fun v hv => hs v (hleaf v hv))
    (fun v hv => hm v (hleaf v hv))

theorem Problem.outcome_worstViolation_subst {cs : List (Constraint α)} {worst : α}
    (hs : ∀ v ∈ cs.flatMap Constraint.leaves, θ.KeepsShape v)
    (hm : ∀ v ∈ cs.flatMap Constraint.leaves, θ.KeepsMatrix σ τ v) :
    outcome (worstViolation σ worst (cs.map (Constraint.subst θ)))
      = outcome (worstViolation τ worst cs) := by
  induction cs generalizing worst with
  | nil => rfl
  | cons c cs ih =>
    rw [List.flatMap_cons, List.forall_mem_append] at hs hm
    exact outcome_bind (Constraint.outcome_violation_subst hs.1 hm.1) fun x => ih hs.2 hm.2

end ConvexProgram
