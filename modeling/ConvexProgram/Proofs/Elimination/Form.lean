import ConvexProgram.Proofs.Elimination.Tables
import Mathlib.Data.List.Forall2

/-!
# The form of a reduced problem

The reduced problem has the objective and the constraints of the given one in their order, with
stand-ins where variables stood, and after them one constraint for each variable whose attributes
became one (`eliminate_form`).
-/

namespace ConvexProgram

/-! ## The constraint of a variable -/

/-- The attributes that become constraints; of several, the first in this list counts. -/
def Attributes.comparisons : List (Attribute × Relation) :=
  [(.nonneg, .nonneg), (.nonpos, .nonpos), (.psd, .psd), (.nsd, .nsd)]

def Attributes.comparison? (s : Attributes) : Option (Attribute × Relation) :=
  comparisons.find? fun q => s.has q.1

theorem Attributes.relation?_eq_map (s : Attributes) :
    s.relation? = s.comparison?.map Prod.snd := by
  unfold relation? comparison? comparisons
  cases hnonneg : s.nonneg <;> cases hnonpos : s.nonpos <;> cases hpsd : s.psd <;>
    cases hnsd : s.nsd <;> simp [has, hnonneg, hnonpos, hpsd, hnsd]

/-- The variable is compared with zero. -/
def Variable.isCompared (v : Variable) : Bool := !v.isSymmetric && v.attributes.comparison?.isSome

variable {α : Type}

theorem Row.condition?_of_isCompared {r : Row α} (h : r.declared.isCompared = true) :
    ∃ q, r.declared.attributes.comparison? = some q ∧
      r.condition? = some (.compare q.2 r.replacement) := by
  rw [Variable.isCompared, Bool.and_eq_true, Bool.not_eq_true'] at h
  obtain ⟨q, hq⟩ := Option.isSome_iff_exists.mp h.2
  refine ⟨q, hq, ?_⟩
  rw [condition?, h.1, Attributes.relation?_eq_map, hq]
  rfl

theorem Row.condition?_of_not_isCompared {r : Row α} (h : r.declared.isCompared = false) :
    r.condition? = none := by
  unfold condition?
  split
  · rfl
  · next hsym =>
    have hnone : r.declared.attributes.comparison? = none := by
      simpa [Variable.isCompared, hsym] using h
    rw [Attributes.relation?_eq_map, hnone]
    rfl

theorem Row.args_of_condition? {r : Row α} {b : Body α} (h : r.condition? = some b) :
    b.args = [r.replacement] := by
  cases hc : r.declared.isCompared with
  | true =>
    obtain ⟨q, _, hb⟩ := condition?_of_isCompared hc
    rw [hb] at h
    cases h
    rfl
  | false =>
    rw [condition?_of_not_isCompared hc] at h
    cases h

/-- The rows that are compared bring one constraint each, in their order. -/
theorem Row.forall₂_condition? {rows : List (Row α)} {P : Variable → Body α → Prop}
    (h : ∀ r ∈ rows, r.declared.isCompared = true →
      ∃ b, r.condition? = some b ∧ P r.declared b) :
    List.Forall₂ P ((rows.map Row.declared).filter Variable.isCompared)
      (rows.filterMap Row.condition?) := by
  induction rows with
  | nil => exact .nil
  | cons r rows ih =>
    obtain ⟨hr, hrows⟩ := List.forall_mem_cons.mp h
    rw [List.map_cons, List.filter_cons, List.filterMap_cons]
    cases hc : r.declared.isCompared with
    | true =>
      obtain ⟨b, hb, hp⟩ := hr hc
      rw [hb]
      exact .cons hp (ih hrows)
    | false =>
      rw [condition?_of_not_isCompared hc]
      exact ih hrows

/-! ## Copies of constraints -/

/-- The comparison of a body, and none for a cone. -/
def Body.relation? : Body α → Option Relation
  | .compare r _ => some r
  | .cone _ _ => none

/-- The constraint `d` says of changed arguments what `c` says, under the same id. -/
structure Constraint.CopyOf (f : Expr α → Expr α) (c d : Constraint α) : Prop where
  id : d.id = c.id
  relation? : d.body.relation? = c.body.relation?
  args : d.body.args = c.body.args.map f

theorem Constraint.copyOf_subst (θ : Substitution α) (c : Constraint α) :
    CopyOf (Expr.subst θ) c (c.subst θ) := by
  refine ⟨rfl, ?_, Body.args_subst θ c.body⟩
  unfold subst
  cases c.body with
  | compare r a => rfl
  | cone bound a => rfl

/-! ## Leaves of the reduced problem -/

section
variable [Scalar α] {e : Elimination α} {p : Problem α}

namespace Elimination.Reduces

theorem leaves_subst_var (h : e.Reduces p) {r : Row α} (hr : r ∈ e.inverse.rows) {v : Variable}
    (hid : r.declared.id = v.id) :
    ((Expr.var v).subst e.inverse.replacement?).leaves = [r.standIn] := by
  rw [Expr.subst_var, Inverse.replacement?, ← hid, h.row?_declared hr]
  exact (h.made r hr).givesWay.leaves

/-- Where leaves of the problem are replaced, their stand-ins are found instead. -/
theorem map_leaves_subst (h : e.Reduces p) {vs : List Variable} (hvs : ∀ v ∈ vs, v ∈ p.leaves) :
    (vs.flatMap fun v => ((Expr.var v).subst e.inverse.replacement?).leaves).map some
      = vs.map fun v => e.inverse.standIn? v.id := by
  induction vs with
  | nil => rfl
  | cons v vs ih =>
    obtain ⟨hv, hvs⟩ := List.forall_mem_cons.mp hvs
    obtain ⟨r, hr, hid, hrow⟩ := h.exists_row hv
    rw [List.flatMap_cons, List.map_append, List.map_cons, ih hvs, h.leaves_subst_var hr hid,
      Inverse.standIn?, hrow]
    rfl

theorem leaves_eq (h : e.Reduces p) : ∃ added : List (Constraint α),
    added.map Constraint.body = e.inverse.rows.filterMap Row.condition? ∧
    e.problem.leaves = (p.subst e.inverse.replacement?).leaves ++ added.flatMap Constraint.leaves := by
  obtain ⟨added, hadded, hcs⟩ := h.constraints
  refine ⟨added, hadded, ?_⟩
  unfold Problem.leaves Problem.subst
  rw [h.objective, hcs, List.flatMap_append, List.append_assoc]

/-- The variables of the reduced problem are the stand-ins. -/
theorem mem_leaves_iff (h : e.Reduces p) {w : Variable} :
    w ∈ e.problem.leaves ↔ ∃ r ∈ e.inverse.rows, r.standIn = w := by
  obtain ⟨added, hadded, hleaves⟩ := h.leaves_eq
  rw [hleaves, List.mem_append, Problem.leaves_subst, List.mem_flatMap, List.mem_flatMap]
  constructor
  · rintro (⟨v, hv, hw⟩ | ⟨c, hc, hw⟩)
    · obtain ⟨r, hr, hid, _⟩ := h.exists_row hv
      rw [h.leaves_subst_var hr hid, List.mem_singleton] at hw
      exact ⟨r, hr, hw.symm⟩
    · have hbody : c.body ∈ e.inverse.rows.filterMap Row.condition? :=
        hadded ▸ List.mem_map_of_mem hc
      obtain ⟨r, hr, hcond⟩ := List.mem_filterMap.mp hbody
      rw [Constraint.leaves, Row.args_of_condition? hcond, List.flatMap_singleton,
        (h.made r hr).givesWay.leaves, List.mem_singleton] at hw
      exact ⟨r, hr, hw.symm⟩
  · rintro ⟨r, hr, rfl⟩
    refine Or.inl ⟨r.declared, h.declared_mem_leaves hr, ?_⟩
    rw [h.leaves_subst_var hr rfl]
    exact List.mem_singleton_self _

theorem exists_standIn? (h : e.Reduces p) {id : Ident} (hid : id ∈ p.variableIds) :
    ∃ w, e.inverse.standIn? id = some w := by
  obtain ⟨v, hv, rfl⟩ := Variable.mem_sortedIds.mp hid
  obtain ⟨r, _, _, hrow⟩ := h.exists_row hv
  exact ⟨r.standIn, by rw [Inverse.standIn?, hrow, Option.map_some]⟩

theorem mem_variableIds_iff (h : e.Reduces p) {id : Ident} :
    id ∈ e.problem.variableIds ↔
      ∃ i ∈ p.variableIds, (e.inverse.standIn? i).map Variable.id = some id := by
  unfold Problem.variableIds Inverse.standIn?
  simp only [Variable.mem_sortedIds, h.mem_leaves_iff]
  constructor
  · rintro ⟨_, ⟨r, hr, rfl⟩, rfl⟩
    refine ⟨r.declared.id, ⟨r.declared, h.declared_mem_leaves hr, rfl⟩, ?_⟩
    rw [h.row?_declared hr]
    rfl
  · rintro ⟨_, ⟨v, hv, rfl⟩, hid⟩
    obtain ⟨r, hr, _, hrow⟩ := h.exists_row hv
    rw [hrow] at hid
    exact ⟨r.standIn, ⟨r, hr, rfl⟩, Option.some.inj hid⟩

/-- Where no two stand-ins share an id, the reduced problem has as many ids as the given one. -/
theorem perm_variableIds (h : e.Reduces p)
    (hp : e.inverse.rows.Pairwise fun r s => r.standIn.id ≠ s.standIn.id) :
    (e.problem.variableIds.map some).Perm
      (p.variableIds.map fun i => (e.inverse.standIn? i).map Variable.id) := by
  have hnodup : (e.problem.variableIds.map some).Nodup :=
    (Variable.nodup_sortedIds _).map (Option.some_injective _)
  have himage : (p.variableIds.map fun i => (e.inverse.standIn? i).map Variable.id).Nodup := by
    refine (Variable.nodup_sortedIds _).map_on fun i hi j hj hij => ?_
    obtain ⟨v, hv⟩ := h.exists_standIn? hi
    obtain ⟨w, hw⟩ := h.exists_standIn? hj
    rw [hv, hw] at hij
    exact Inverse.standIn?_injective hp hv hw (Option.some.inj hij)
  rw [List.perm_ext_iff_of_nodup hnodup himage]
  intro o
  rw [List.mem_map, List.mem_map]
  constructor
  · rintro ⟨id, hid, rfl⟩
    exact h.mem_variableIds_iff.mp hid
  · rintro ⟨i, hi, rfl⟩
    obtain ⟨w, hw⟩ := h.exists_standIn? hi
    have himg : (e.inverse.standIn? i).map Variable.id = some w.id := by rw [hw, Option.map_some]
    exact ⟨w.id, h.mem_variableIds_iff.mpr ⟨i, hi, himg⟩, himg.symm⟩

/-- Each variable that is compared has its constraint. -/
theorem forall₂_added (h : e.Reduces p) {added : List (Constraint α)}
    (hadded : added.map Constraint.body = e.inverse.rows.filterMap Row.condition?) :
    List.Forall₂ (fun v d => ∃ q a, v.attributes.comparison? = some q ∧
        e.inverse.replacement? v.id = some a ∧ d.body = .compare q.2 a)
      (p.unknowns.filter Variable.isCompared) added := by
  have hbodies : List.Forall₂ (fun v b => ∃ q a, v.attributes.comparison? = some q ∧
        e.inverse.replacement? v.id = some a ∧ b = .compare q.2 a)
      (p.unknowns.filter Variable.isCompared) (added.map Constraint.body) := by
    rw [hadded, ← h.declared]
    refine Row.forall₂_condition? fun r hr hc => ?_
    obtain ⟨q, hq, hb⟩ := Row.condition?_of_isCompared hc
    refine ⟨_, hb, q, r.replacement, hq, ?_, rfl⟩
    rw [Inverse.replacement?, h.row?_declared hr, Option.map_some]
  exact List.forall₂_map_right_iff.mp hbodies

theorem forall₂_copies (h : e.Reduces p) :
    List.Forall₂ (fun c d => Constraint.CopyOf (Expr.subst e.inverse.replacement?) c d ∧
        d.leaves.map some = c.leaves.map fun v => e.inverse.standIn? v.id)
      p.constraints (p.constraints.map (Constraint.subst e.inverse.replacement?)) := by
  refine List.forall₂_map_right_iff.mpr (List.forall₂_same.mpr fun c hc => ?_)
  refine ⟨Constraint.copyOf_subst _ c, ?_⟩
  rw [Constraint.leaves_subst]
  refine h.map_leaves_subst fun v hv => ?_
  exact List.mem_append_right _ (List.mem_flatMap.mpr ⟨c, hc, hv⟩)

end Elimination.Reduces

end

/-- **The form of a reduced problem.**  It has the sense and the objective of the given problem, its
constraints in order under their ids, and then, for each variable that is compared, in the order in
which they appear, the comparison of its expression.  Where the given problem has a leaf the reduced
one has its stand-in, and it has no variable but these. -/
theorem eliminate_form [Scalar α] {p : Problem α} {next next' : Ident} {e : Elimination α}
    (he : p.eliminate next = (.ok e, next')) :
    e.problem.sense = p.sense ∧
    e.problem.objective = p.objective.subst e.inverse.replacement? ∧
    e.problem.objective.leaves.map some
      = p.objective.leaves.map (fun v => e.inverse.standIn? v.id) ∧
    (∃ copies added, e.problem.constraints = copies ++ added ∧
      List.Forall₂ (fun c d => Constraint.CopyOf (Expr.subst e.inverse.replacement?) c d ∧
          d.leaves.map some = c.leaves.map fun v => e.inverse.standIn? v.id)
        p.constraints copies ∧
      List.Forall₂ (fun v d => ∃ q a, v.attributes.comparison? = some q ∧
          e.inverse.replacement? v.id = some a ∧ d.body = .compare q.2 a)
        (p.unknowns.filter Variable.isCompared) added) ∧
    (∀ v ∈ e.problem.leaves, v.attributes.hasForcing = false) ∧
    e.problem.variableIds.Pairwise (· < ·) ∧
    (∀ id, id ∈ e.problem.variableIds ↔
      ∃ i ∈ p.variableIds, (e.inverse.standIn? i).map Variable.id = some id) ∧
    ((∀ v ∈ p.leaves, v.id < next) → (e.problem.variableIds.map some).Perm
      (p.variableIds.map fun i => (e.inverse.standIn? i).map Variable.id)) := by
  have hred := Problem.eliminate_reduces he
  obtain ⟨added, hadded, hcs⟩ := hred.constraints
  refine ⟨hred.sense, hred.objective, ?_, ⟨_, added, hcs, hred.forall₂_copies,
    hred.forall₂_added hadded⟩, ?_, Variable.pairwise_sortedIds _, fun id =>
    hred.mem_variableIds_iff, fun hold => hred.perm_variableIds (Problem.pairwise_standIn he hold)⟩
  · rw [hred.objective, Expr.leaves_subst]
    exact hred.map_leaves_subst fun v hv => List.mem_append_left _ hv
  · intro v hv
    obtain ⟨r, hr, rfl⟩ := hred.mem_leaves_iff.mp hv
    exact (hred.made r hr).hasForcing_standIn

theorem eliminate_form_traceGap : ∃ e, Problem.traceGap.eliminate 7 = (.ok e, 12) ∧
    e.problem.sense = .minimize ∧
    (∀ v ∈ e.problem.leaves, v.attributes.hasForcing = false) ∧
    e.problem.constraints.map Constraint.id = [5, 6, 11] ∧
    e.problem.variableIds.Pairwise (· < ·) ∧
    (e.problem.variableIds.map some).Perm
      (Problem.traceGap.variableIds.map fun i => (e.inverse.standIn? i).map Variable.id) := by
  have he : Problem.traceGap.eliminate 7 = (.ok _, 12) := rfl
  obtain ⟨hsense, _, _, _, hplain, hsorted, _, hperm⟩ := eliminate_form he
  exact ⟨_, he, hsense, hplain, rfl, hsorted, hperm (by decide)⟩

end ConvexProgram
