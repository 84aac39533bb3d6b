import ConvexProgram.Proofs.Elimination.Drawn
import ConvexProgram.Proofs.Elimination.Ids
import ConvexProgram.Proofs.Elimination.Meaning

/-!
# The tables of an elimination

The rows give, for each id of the problem, the variable as declared, its stand-in and the expression
that takes its place.  A stand-in restricts nothing, keeps what the solver is told otherwise, and is
the one variable of its expression; its id is that of the variable or a new one, and no two
variables share it (`eliminate_tables`).
-/

namespace ConvexProgram

variable {α : Type}

/-! ## One row -/

theorem Attributes.hasForcing_withoutForcing (s : Attributes) :
    s.withoutForcing.hasForcing = false := rfl

/-- The variable `w` and the expression `a` can take the place of `v`. -/
structure Variable.GivesWay (v w : Variable) (a : Expr α) : Prop where
  plain : w.attributes.hasForcing = false
  name : w.name = v.name
  integer : w.attributes.integer = v.attributes.integer
  boolean : w.attributes.boolean = v.attributes.boolean
  shape : a.shape = v.shape
  leaves : a.leaves = [w]

section
variable [Scalar α]

theorem Row.Made.hasForcing_standIn {r : Row α} (hr : r.Made) :
    r.standIn.attributes.hasForcing = false := by
  cases hr with
  | packed v id fillId hsym hsq => exact Attributes.hasForcing_withoutForcing _
  | relaxed v id rel hsym hrel => exact Attributes.hasForcing_withoutForcing _
  | kept v hsym hrel => exact Attributes.hasForcing_eq_false_iff.mpr ⟨hsym, hrel⟩

theorem Row.Made.givesWay {r : Row α} (hr : r.Made) :
    r.declared.GivesWay r.standIn r.replacement := by
  have hplain := hr.hasForcing_standIn
  have hshape := hr.shape_replacement
  cases hr with
  | packed v id fillId hsym hsq => exact ⟨hplain, rfl, rfl, rfl, hshape, rfl⟩
  | relaxed v id rel hsym hrel => exact ⟨hplain, rfl, rfl, rfl, hshape, rfl⟩
  | kept v hsym hrel => exact ⟨hplain, rfl, rfl, rfl, hshape, rfl⟩

/-- A variable without restrictions stands for itself. -/
theorem Row.Made.standIn_eq {r : Row α} (hr : r.Made)
    (h : r.declared.attributes.hasForcing = false) : r.standIn = r.declared := by
  obtain ⟨hplain, hnone⟩ := Attributes.hasForcing_eq_false_iff.mp h
  cases hr with
  | packed v id fillId hsym hsq => cases hsym.symm.trans hplain
  | relaxed v id rel hsym hrel => cases hrel.symm.trans hnone
  | kept v hsym hrel => rfl

end

/-! ## All rows -/

theorem Inverse.row?_eq_some {inv : Inverse α} {id : Ident} {r : Row α}
    (h : inv.row? id = some r) : r ∈ inv.rows ∧ r.declared.id = id :=
  ⟨List.mem_of_find?_eq_some h,
    beq_iff_eq.mp (List.find?_some (p := fun r : Row α => r.declared.id == id) h)⟩

/-- Two ids with one stand-in are the same. -/
theorem Inverse.standIn?_injective {inv : Inverse α}
    (hp : inv.rows.Pairwise fun r s => r.standIn.id ≠ s.standIn.id) {i j : Ident} {v w : Variable}
    (hi : inv.standIn? i = some v) (hj : inv.standIn? j = some w) (hid : v.id = w.id) : i = j := by
  obtain ⟨r, hr, rfl⟩ := Option.map_eq_some_iff.mp hi
  obtain ⟨s, hs, rfl⟩ := Option.map_eq_some_iff.mp hj
  obtain ⟨hrmem, rfl⟩ := row?_eq_some hr
  obtain ⟨hsmem, rfl⟩ := row?_eq_some hs
  have hnodup : (inv.rows.map fun r => r.standIn.id).Nodup := List.pairwise_map.mpr hp
  rw [List.inj_on_of_nodup_map hnodup hrmem hsmem hid]

theorem Elimination.mem_drawnIds {e : Elimination α} {r : Row α} (p : Problem α)
    (hr : r ∈ e.inverse.rows) (h : r.declared.attributes.hasForcing = true) :
    r.standIn.id ∈ e.drawnIds p := by
  have hid : r.standIn.id ∈ r.standInIds := by
    rw [Row.standInIds, if_pos h]
    exact List.mem_singleton_self _
  exact List.mem_append_left _ (List.mem_append_left _ (List.mem_flatMap.mpr ⟨r, hr, hid⟩))

variable [Scalar α]

namespace Elimination.Reduces

variable {e : Elimination α} {p : Problem α}

theorem isSome_row?_iff (h : e.Reduces p) (id : Ident) :
    (e.inverse.row? id).isSome ↔ id ∈ p.unknowns.map Variable.id := by
  rw [← h.declared, List.map_map, List.mem_map, Option.isSome_iff_exists]
  constructor
  · rintro ⟨r, hr⟩
    exact ⟨r, Inverse.row?_eq_some hr⟩
  · rintro ⟨r, hr, rfl⟩
    exact ⟨r, h.row?_declared hr⟩

end Elimination.Reduces

section
variable {p : Problem α} {e : Elimination α} {next next' : Ident}

/-- The id of a new stand-in is drawn by the elimination, and once. -/
theorem Problem.count_drawnIds (he : p.eliminate next = (.ok e, next')) {r : Row α}
    (hr : r ∈ e.inverse.rows) (h : r.declared.attributes.hasForcing = true) :
    (e.drawnIds p).count r.standIn.id = 1 := by
  have hperm := perm_drawnIds he
  have hnodup : (e.drawnIds p).Nodup := hperm.nodup_iff.mpr List.nodup_range'
  exact List.count_eq_one_of_mem hnodup (Elimination.mem_drawnIds p hr h)

theorem Problem.standIn_id_not_mem_ids (hold : ∀ id ∈ p.ids, id < next)
    (he : p.eliminate next = (.ok e, next')) {r : Row α} (hr : r ∈ e.inverse.rows)
    (h : r.declared.attributes.hasForcing = true) : r.standIn.id ∉ p.ids := by
  intro hid
  have hdrawn := (perm_drawnIds he).mem_iff.mp (Elimination.mem_drawnIds p hr h)
  exact absurd (hold _ hid) (Nat.not_lt.mpr (List.mem_range'_1.mp hdrawn).1)

/-- The id of a variable is kept where nothing restricts it. -/
theorem Problem.standIn_id_eq_iff (hold : ∀ id ∈ p.ids, id < next)
    (he : p.eliminate next = (.ok e, next')) {r : Row α} (hr : r ∈ e.inverse.rows) :
    r.standIn.id = r.declared.id ↔ r.declared.attributes.hasForcing = false := by
  have hred := eliminate_reduces he
  constructor
  · intro hid
    by_contra hne
    have hnew := standIn_id_not_mem_ids hold he hr (eq_true_of_ne_false hne)
    exact hnew (hid ▸ id_mem_ids (hred.declared_mem_leaves hr))
  · intro hf
    rw [(hred.made r hr).standIn_eq hf]

end

/-- **The tables of an elimination.**  Their keys are the ids of the problem, under which they have
the variable as it stands first, its stand-in and its expression.  No two ids share a stand-in; it
has the id of its variable if nothing restricts the variable, and otherwise an id that the problem
does not have and that is drawn for nothing else. -/
theorem eliminate_tables {p : Problem α} {next next' : Ident} {e : Elimination α}
    (hold : ∀ id ∈ p.ids, id < next) (he : p.eliminate next = (.ok e, next')) :
    (∀ id, ((e.inverse.declared? id).isSome ↔ id ∈ p.unknowns.map Variable.id) ∧
      ((e.inverse.standIn? id).isSome ↔ id ∈ p.unknowns.map Variable.id) ∧
      ((e.inverse.replacement? id).isSome ↔ id ∈ p.unknowns.map Variable.id)) ∧
    (∀ i j v w, e.inverse.standIn? i = some v → e.inverse.standIn? j = some w → v.id = w.id →
      i = j) ∧
    (e.drawnIds p).Perm (List.range' next (next' - next)) ∧
    ∀ v ∈ p.unknowns, p.leaves.find? (fun w => w.id == v.id) = some v ∧
      e.inverse.declared? v.id = some v ∧
      ∃ w a, e.inverse.standIn? v.id = some w ∧ e.inverse.replacement? v.id = some a ∧
        v.GivesWay w a ∧ (w.id = v.id ↔ v.attributes.hasForcing = false) ∧
        (v.attributes.hasForcing = true → w.id ∉ p.ids ∧ (e.drawnIds p).count w.id = 1) := by
  have hred := Problem.eliminate_reduces he
  have holdLeaf : ∀ v ∈ p.leaves, v.id < next := fun v hv => hold _ (Problem.id_mem_ids hv)
  refine ⟨fun id => ?_, fun i j v w => ?_, Problem.perm_drawnIds he, fun v hv => ?_⟩
  · simp only [Inverse.declared?, Inverse.standIn?, Inverse.replacement?, Option.isSome_map,
      hred.isSome_row?_iff, and_self]
  · exact Inverse.standIn?_injective (Problem.pairwise_standIn he holdLeaf)
  · refine ⟨Variable.mem_firstOfEach_iff.mp hv, ?_⟩
    rw [← hred.declared] at hv
    obtain ⟨r, hr, rfl⟩ := List.mem_map.mp hv
    rw [Inverse.declared?, Inverse.standIn?, Inverse.replacement?, hred.row?_declared hr]
    refine ⟨rfl, r.standIn, r.replacement, rfl, rfl, (hred.made r hr).givesWay,
      Problem.standIn_id_eq_iff hold he hr, fun hf => ?_⟩
    exact ⟨Problem.standIn_id_not_mem_ids hold he hr hf, Problem.count_drawnIds he hr hf⟩

/-! ## A problem with every kind of row -/

/-- Two symmetric matrices `X` and `Y` of one size, a nonnegative integer `t` and an unrestricted
number `s`: the trace of `X` exceeds that of `Y` by at most `t`, and `t + s` is nonnegative. -/
def Problem.traceGap : Problem ℚ :=
  let x : Expr ℚ := .var ⟨0, .matrix 2 2, some "X", { symmetric := true }⟩
  let y : Expr ℚ := .var ⟨1, .matrix 2 2, none, { symmetric := true, psd := true }⟩
  let t : Expr ℚ := .var ⟨2, .scalar, some "t", { nonneg := true, integer := true }⟩
  let s : Expr ℚ := .var ⟨3, .scalar, none, {}⟩
  ⟨.minimize, (x.add y).sum.add ((Expr.const 4 (.scalar 2)).mul s),
    [⟨5, .compare .nonpos ((x.trace.sub y.trace).sub t)⟩, ⟨6, .compare .nonneg (t.add s)⟩]⟩

theorem eliminate_tables_traceGap : ∃ e, Problem.traceGap.eliminate 7 = (.ok e, 12) ∧
    (∀ id ∈ Problem.traceGap.ids, id < 7) ∧
    (e.drawnIds Problem.traceGap).Perm [7, 8, 9, 10, 11] ∧
    ∀ v ∈ Problem.traceGap.unknowns, ∃ w a, e.inverse.standIn? v.id = some w ∧
      e.inverse.replacement? v.id = some a ∧ v.GivesWay w a ∧
      (w.id = v.id ↔ v.attributes.hasForcing = false) := by
  have hold : ∀ id ∈ Problem.traceGap.ids, id < 7 := by decide
  have he : Problem.traceGap.eliminate 7 = (.ok _, 12) := rfl
  obtain ⟨_, _, hperm, hrows⟩ := eliminate_tables hold he
  refine ⟨_, he, hold, hperm, fun v hv => ?_⟩
  obtain ⟨_, _, w, a, hw, ha, hgives, hid, _⟩ := hrows v hv
  exact ⟨w, a, hw, ha, hgives, hid⟩

end ConvexProgram
