import ConvexProgram.Proofs.Replacement

/-!
# Laws of substitution

A substitution works on all leaves at once and on nothing else.  For expressions, constraints and
problems alike (`Substitution.Lawful`), one that has no replacement for a leaf changes nothing, two
in a row are one (`Substitution.andThen`), and the leaves that are left stand where they stood, the
constants among them with their ids and values.

* `Expr.tips`                the variables and the constants, in their order;
* `Expr.subst_subst`, `Constraint.subst_subst`, `Problem.subst_subst`   two substitutions in a row;
* `Expr.tips_subst`          what is left of the tips;
* `subst_lawful`             the laws of all three kinds.
-/

namespace ConvexProgram

variable {α : Type}

/-! ## Variables and constants in their order -/

/-- A variable, or a constant with its id. -/
abbrev Tip (α : Type) := Variable ⊕ Ident × Value α

namespace Expr

mutual
/-- The variables and the constants of an expression, from left to right and with repetitions. -/
def tips : Expr α → List (Tip α)
  | .var v => [.inl v]
  | .const id c => [.inr (id, c)]
  | .unary _ a => a.tips
  | .binary _ a b => a.tips ++ b.tips
  | .stack _ parts => tipsList parts

def tipsList : List (Expr α) → List (Tip α)
  | [] => []
  | e :: es => e.tips ++ tipsList es
end

theorem tipsList_eq_flatMap (es : List (Expr α)) : tipsList es = es.flatMap tips := by
  induction es with
  | nil => rfl
  | cons e es ih => rw [tipsList, ih, List.flatMap_cons]

@[simp] theorem tips_var (v : Variable) : (Expr.var v : Expr α).tips = [.inl v] := rfl

@[simp] theorem tips_const (id : Ident) (c : Value α) :
    (Expr.const id c).tips = [.inr (id, c)] := rfl

@[simp] theorem tips_unary (op : UnaryAtom) (a : Expr α) : (Expr.unary op a).tips = a.tips := rfl

@[simp] theorem tips_binary (op : BinaryAtom) (a b : Expr α) :
    (Expr.binary op a b).tips = a.tips ++ b.tips := rfl

@[simp] theorem tips_stack (d : Direction) (parts : List (Expr α)) :
    (Expr.stack d parts).tips = parts.flatMap tips := tipsList_eq_flatMap parts

end Expr

def Constraint.tips (c : Constraint α) : List (Tip α) := c.body.args.flatMap Expr.tips

def Problem.tips (p : Problem α) : List (Tip α) :=
  p.objective.tips ++ p.constraints.flatMap Constraint.tips

/-! ## Substitutions in a row -/

namespace Substitution

/-- First `θ`, and then `η` in what is put in and in the variables that stay. -/
def andThen (θ η : Substitution α) : Substitution α := fun id =>
  match θ id with
  | some a => some (a.subst η)
  | none => η id

/-- The variables that stand where a variable stood. -/
def leavesFor (θ : Substitution α) (v : Variable) : List Variable := (θ v.id).elim [v] Expr.leaves

/-- The variables and constants that stand where one of them stood; a constant stays. -/
def tipsFor (θ : Substitution α) : Tip α → List (Tip α)
  | .inl v => (θ v.id).elim [.inl v] Expr.tips
  | .inr c => [.inr c]

variable (θ η : Substitution α)

theorem leavesFor_eq (v : Variable) : θ.leavesFor v = ((Expr.var v).subst θ).leaves := by
  unfold leavesFor
  rw [Expr.subst_var]
  cases θ v.id with
  | none => rfl
  | some a => rfl

theorem tipsFor_inl (v : Variable) : θ.tipsFor (.inl v) = ((Expr.var v).subst θ).tips := by
  show (θ v.id).elim [.inl v] Expr.tips = _
  rw [Expr.subst_var]
  cases θ v.id with
  | none => rfl
  | some a => rfl

/-- The variables of one kind of tree are replaced lawfully. -/
structure Lawful {T : Type} (subst : Substitution α → T → T) (leaves : T → List Variable)
    (tips : T → List (Tip α)) : Prop where
  /-- a tree without a variable that is replaced stays as it is -/
  unchanged : ∀ θ t, (∀ v ∈ leaves t, θ v.id = none) → subst θ t = t
  /-- two substitutions in a row are one -/
  subst_subst : ∀ θ η t, subst η (subst θ t) = subst (θ.andThen η) t
  /-- what is put in stands in the place of the variable, and is not replaced itself -/
  leaves_subst : ∀ θ t, leaves (subst θ t) = (leaves t).flatMap θ.leavesFor
  /-- so it is with constants, which keep their ids and values -/
  tips_subst : ∀ θ t, tips (subst θ t) = (tips t).flatMap θ.tipsFor

end Substitution

variable (θ η : Substitution α)

namespace Expr

theorem subst_subst (e : Expr α) : (e.subst θ).subst η = e.subst (θ.andThen η) := by
  induction e using Expr.ind with
  | var v =>
    rw [subst_var, subst_var]
    unfold Substitution.andThen
    cases θ v.id with
    | none => rfl
    | some a => rfl
  | const id c => rfl
  | unary op a ih => rw [subst_unary, subst_unary, subst_unary, ih]
  | binary op a b iha ihb => rw [subst_binary, subst_binary, subst_binary, iha, ihb]
  | stack d es ih =>
    rw [subst_stack, subst_stack, subst_stack, List.map_map]
    exact congrArg (Expr.stack d) (List.map_congr_left ih)

theorem tips_subst (e : Expr α) : (e.subst θ).tips = e.tips.flatMap θ.tipsFor := by
  induction e using Expr.ind with
  | var v => rw [tips_var, List.flatMap_singleton, Substitution.tipsFor_inl]
  | const id c => rfl
  | unary op a ih => rw [subst_unary, tips_unary, tips_unary, ih]
  | binary op a b iha ihb =>
    rw [subst_binary, tips_binary, tips_binary, List.flatMap_append, iha, ihb]
  | stack d es ih =>
    rw [subst_stack, tips_stack, tips_stack, List.flatMap_map, List.flatMap_assoc]
    exact congrArg List.flatten (List.map_congr_left ih)

end Expr

namespace Constraint

theorem subst_subst (c : Constraint α) : (c.subst θ).subst η = c.subst (θ.andThen η) := by
  have hbody : (c.body.subst θ).subst η = c.body.subst (θ.andThen η) := by
    cases c.body with
    | compare r a => exact congrArg (Body.compare r) (Expr.subst_subst θ η a)
    | cone bound a =>
      exact congrArg₂ Body.cone (Expr.subst_subst θ η bound) (Expr.subst_subst θ η a)
  exact congrArg (Constraint.mk c.id) hbody

theorem tips_subst (c : Constraint α) : (c.subst θ).tips = c.tips.flatMap θ.tipsFor := by
  unfold tips subst
  rw [Body.args_subst, List.flatMap_map, List.flatMap_assoc]
  exact congrArg List.flatten (List.map_congr_left fun a _ => Expr.tips_subst θ a)

end Constraint

namespace Problem

theorem subst_subst (p : Problem α) : (p.subst θ).subst η = p.subst (θ.andThen η) := by
  have hcs : (p.constraints.map (Constraint.subst θ)).map (Constraint.subst η)
      = p.constraints.map (Constraint.subst (θ.andThen η)) := by
    rw [List.map_map]
    exact List.map_congr_left fun c _ => Constraint.subst_subst θ η c
  exact congrArg₂ (Problem.mk p.sense) (Expr.subst_subst θ η p.objective) hcs

theorem tips_subst (p : Problem α) : (p.subst θ).tips = p.tips.flatMap θ.tipsFor := by
  have hcs : (p.constraints.map (Constraint.subst θ)).flatMap Constraint.tips
      = (p.constraints.flatMap Constraint.tips).flatMap θ.tipsFor := by
    rw [List.flatMap_map, List.flatMap_assoc]
    exact congrArg List.flatten (List.map_congr_left fun c _ => Constraint.tips_subst θ c)
  unfold tips
  rw [List.flatMap_append, ← Expr.tips_subst, ← hcs]
  rfl

end Problem

/-! ## The laws -/

theorem Substitution.var_subst_of_none {θ : Substitution α} {v : Variable} (h : θ v.id = none) :
    (Expr.var v).subst θ = .var v := by
  rw [Expr.subst_var, h]
  rfl

/-- **Substitution is simultaneous and lawful** on expressions, on constraints and on problems, and
every constraint keeps its id. -/
theorem subst_lawful {α : Type} :
    Substitution.Lawful (@Expr.subst α) Expr.leaves Expr.tips ∧
    Substitution.Lawful (@Constraint.subst α) Constraint.leaves Constraint.tips ∧
    Substitution.Lawful (@Problem.subst α) Problem.leaves Problem.tips ∧
    (∀ (θ : Substitution α) (c : Constraint α), (c.subst θ).id = c.id) ∧
    ∀ (θ : Substitution α) (p : Problem α),
      (p.subst θ).constraints.map Constraint.id = p.constraints.map Constraint.id := by
  have hvar : ∀ θ : Substitution α, θ.leavesFor = fun v => ((Expr.var v).subst θ).leaves :=
    fun θ => funext θ.leavesFor_eq
  refine ⟨⟨?_, Expr.subst_subst, ?_, Expr.tips_subst⟩,
    ⟨?_, Constraint.subst_subst, ?_, Constraint.tips_subst⟩,
    ⟨?_, Problem.subst_subst, ?_, Problem.tips_subst⟩, fun _ _ => rfl, ?_⟩
  · intro θ e h
    exact Expr.subst_eq_self fun v hv => Substitution.var_subst_of_none (h v hv)
  · intro θ e
    rw [hvar, Expr.leaves_subst]
  · intro θ c h
    exact Constraint.subst_eq_self fun v hv => Substitution.var_subst_of_none (h v hv)
  · intro θ c
    rw [hvar, Constraint.leaves_subst]
  · intro θ p h
    exact Problem.subst_eq_self fun v hv => Substitution.var_subst_of_none (h v hv)
  · intro θ p
    rw [hvar, Problem.leaves_subst]
  · intro θ p
    exact List.map_map

/-- Two vectors change places, once and twice. -/
theorem subst_lawful_crossed :
    (∀ v ∈ Problem.ordered.leaves, (fun _ => none : Substitution ℚ) v.id = none) ∧
    Problem.ordered.subst (fun _ => none) = Problem.ordered ∧
    (Problem.ordered.subst .crossed).subst .crossed
      = Problem.ordered.subst (Substitution.crossed.andThen .crossed) ∧
    (Problem.ordered.subst .crossed).leaves.map Variable.id = [1, 1, 0, 0, 2, 0, 0] := by
  have h : Substitution.Lawful (@Problem.subst ℚ) Problem.leaves Problem.tips := subst_lawful.2.2.1
  refine ⟨fun _ _ => rfl, h.unchanged _ _ fun _ _ => rfl, h.subst_subst _ _ _, ?_⟩
  rw [h.leaves_subst]
  rfl

end ConvexProgram
