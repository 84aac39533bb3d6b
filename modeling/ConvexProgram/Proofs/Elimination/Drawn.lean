import ConvexProgram.Identifiers
import ConvexProgram.Proofs.Elimination.Rows
import Mathlib.Data.List.Dedup

/-!
# The ids drawn by an elimination

An elimination draws an id for each new stand-in, for each fill matrix and for each constraint it
adds.  Together these ids are an interval from the counter on, each of them once
(`Problem.perm_drawnIds`).
-/

namespace ConvexProgram

variable {α : Type}

theorem Attributes.hasForcing_eq (s : Attributes) :
    s.hasForcing = (s.symmetric || s.relation?.isSome) := by
  unfold hasForcing relation?
  cases s.nonneg <;> cases s.nonpos <;> cases s.symmetric <;> cases s.psd <;> cases s.nsd <;> rfl

theorem Attributes.hasForcing_eq_false_iff {s : Attributes} :
    s.hasForcing = false ↔ s.symmetric = false ∧ s.relation? = .none := by
  rw [hasForcing_eq, Bool.or_eq_false_iff, Option.isSome_eq_false_iff, Option.isNone_iff_eq_none]

namespace Row

/-- the id of a stand-in that is new -/
def standInIds (r : Row α) : List Ident :=
  if r.declared.attributes.hasForcing then [r.standIn.id] else []

def fillIds (r : Row α) : List Ident := r.replacement.constantIds

theorem fillIds_unpacked [Scalar α] (v w : Variable) (id fillId : Ident) :
    (⟨v, w, unpacked v id fillId⟩ : Row α).fillIds = [fillId] := rfl

theorem fillIds_var (v w : Variable) : (⟨v, w, .var w⟩ : Row α).fillIds = [] := rfl

end Row

namespace Counter

/-! ## One variable -/

/-- the fill matrices so far -/
def fillIds (c : Counter) : List Ident := c.fills.map Prod.snd

/-- The fill matrices got their ids before the next one. -/
def Valid (c : Counter) : Prop := ∀ id ∈ c.fillIds, id < c.next

/-- the fill matrices of the rows that are not there at `c` -/
def newFillIds (c : Counter) (rows : List (Row α)) : List Ident :=
  (rows.flatMap Row.fillIds).dedup.filter fun id => id ∉ c.fillIds

/-- the ids that rows and constraints have from a scan that starts at `c` -/
def drawnIds (c : Counter) (rows : List (Row α)) (added : List (Constraint α)) : List Ident :=
  rows.flatMap Row.standInIds ++ c.newFillIds rows ++ added.map Constraint.id

/-- What looking at one variable does to the counter: the ids it draws are the next ones, in the
order of stand-in, fill matrix and constraint. -/
structure Draws (c : Counter) (s : Visit α) : Prop where
  le : c.next ≤ s.counter.next
  valid : s.counter.Valid
  fillIds : ∀ id, id ∈ s.counter.fillIds ↔ id ∈ c.fillIds ∨ id ∈ s.row.fillIds
  drawn : c.drawnIds [s.row] s.added = List.range' c.next (s.counter.next - c.next)

theorem mem_fillIds_of_lookup {c : Counter} {n : Nat} {id : Ident}
    (h : c.fills.lookup n = some id) : id ∈ c.fillIds := by
  obtain ⟨l, r, hl, _⟩ := List.lookup_eq_some_iff.mp h
  unfold fillIds
  rw [hl]
  simp

theorem draws_relax {c : Counter} (hc : c.Valid) {v : Variable} {r : Relation}
    (hr : v.attributes.relation? = some r) : c.Draws (c.relax v r : Visit α) := by
  have hforce : v.attributes.hasForcing = true := by
    rw [Attributes.hasForcing_eq, hr, Option.isSome_some, Bool.or_true]
  have hstep : c.next + 2 - c.next = 2 := Nat.add_sub_cancel_left _ _
  refine ⟨Nat.le_add_right _ _, fun i hi => Nat.lt_add_right 2 (hc i hi), fun i => ?_, ?_⟩
  · show i ∈ c.fillIds ↔ i ∈ c.fillIds ∨ i ∈ []
    rw [List.mem_nil_iff, or_false]
  · simp [drawnIds, newFillIds, relax, Row.standInIds, Row.fillIds_var, hforce, hstep,
      Variable.relaxed, List.range'_succ]

theorem draws_keep {c : Counter} (hc : c.Valid) {v : Variable} (hsym : v.isSymmetric = false)
    (hr : v.attributes.relation? = none) : c.Draws (c.keep v : Visit α) := by
  have hforce : v.attributes.hasForcing = false := Attributes.hasForcing_eq_false_iff.mpr ⟨hsym, hr⟩
  refine ⟨Nat.le_refl _, hc, fun i => ?_, ?_⟩
  · show i ∈ c.fillIds ↔ i ∈ c.fillIds ∨ i ∈ []
    rw [List.mem_nil_iff, or_false]
  · simp [drawnIds, newFillIds, keep, Row.standInIds, Row.fillIds_var, hforce]

section
variable [Scalar α]

theorem pack_of_lookup {c : Counter} {v : Variable} {id : Ident}
    (h : c.fills.lookup v.shape.rows = some id) :
    (c.pack v : Visit α) = ⟨⟨v, v.packed c.next, Row.unpacked v c.next id⟩, [],
      ⟨c.next + 1, c.fills⟩⟩ := by
  unfold pack fillId
  simp only [h]
  rfl

theorem pack_of_lookup_none {c : Counter} {v : Variable}
    (h : c.fills.lookup v.shape.rows = none) :
    (c.pack v : Visit α) = ⟨⟨v, v.packed c.next, Row.unpacked v c.next (c.next + 1)⟩, [],
      ⟨c.next + 2, (v.shape.rows, c.next + 1) :: c.fills⟩⟩ := by
  unfold pack fillId
  simp only [h]
  rfl

theorem draws_pack {c : Counter} (hc : c.Valid) {v : Variable} (hv : v.isSymmetric = true) :
    c.Draws (c.pack v : Visit α) := by
  have hforce : v.attributes.hasForcing = true := by
    rw [Attributes.hasForcing_eq, show v.attributes.symmetric = true from hv, Bool.true_or]
  cases hl : c.fills.lookup v.shape.rows with
  | some id =>
    have hold : id ∈ c.fillIds := mem_fillIds_of_lookup hl
    have hstep : c.next + 1 - c.next = 1 := Nat.add_sub_cancel_left _ _
    rw [pack_of_lookup hl]
    refine ⟨Nat.le_succ _, fun i hi => Nat.lt_succ_of_lt (hc i hi), fun i => ?_, ?_⟩
    · show i ∈ c.fillIds ↔ i ∈ c.fillIds ∨ i ∈ [id]
      rw [List.mem_singleton]
      exact ⟨Or.inl, fun h => h.elim (fun h => h) fun h => h ▸ hold⟩
    · simp [drawnIds, newFillIds, Row.standInIds, Row.fillIds_unpacked, hforce, hold, hstep,
        Variable.packed, Variable.relaxed]
  | none =>
    have hnew : c.next + 1 ∉ c.fillIds := fun h => Nat.not_succ_lt_self (hc _ h)
    have hstep : c.next + 2 - c.next = 2 := Nat.add_sub_cancel_left _ _
    rw [pack_of_lookup_none hl]
    refine ⟨Nat.le_add_right _ _, ?_, fun i => ?_, ?_⟩
    · show ∀ i ∈ (c.next + 1) :: c.fillIds, i < c.next + 2
      refine List.forall_mem_cons.mpr ⟨Nat.lt_succ_self _, fun i hi => ?_⟩
      exact Nat.lt_add_right 2 (hc i hi)
    · show i ∈ (c.next + 1) :: c.fillIds ↔ i ∈ c.fillIds ∨ i ∈ [c.next + 1]
      rw [List.mem_cons, List.mem_singleton, or_comm]
    · simp [drawnIds, newFillIds, Row.standInIds, Row.fillIds_unpacked, hforce, hnew, hstep,
        Variable.packed, Variable.relaxed, List.range'_succ]

theorem visit_draws {c : Counter} (hc : c.Valid) {v : Variable} {s : Visit α}
    (h : c.visit v = .ok s) : c.Draws s := by
  obtain ⟨hsym, _, rfl⟩ | ⟨_, r, hr, rfl⟩ | ⟨hsym, hr, rfl⟩ := visit_cases h
  · exact draws_pack hc hsym
  · exact draws_relax hc hr
  · exact draws_keep hc hsym hr

end

/-! ## A whole scan -/

theorem nodup_newFillIds (c : Counter) (rows : List (Row α)) : (c.newFillIds rows).Nodup :=
  (List.nodup_dedup _).filter _

theorem mem_newFillIds {c : Counter} {rows : List (Row α)} {id : Ident} :
    id ∈ c.newFillIds rows ↔ id ∈ rows.flatMap Row.fillIds ∧ id ∉ c.fillIds := by
  rw [newFillIds, List.mem_filter, List.mem_dedup, decide_eq_true_iff]

/-- A fill matrix of the later rows is new if the first row has not brought it. -/
theorem perm_newFillIds_cons {c c' : Counter} {r : Row α} (rows : List (Row α))
    (h : ∀ id, id ∈ c'.fillIds ↔ id ∈ c.fillIds ∨ id ∈ r.fillIds) :
    (c.newFillIds (r :: rows)).Perm (c.newFillIds [r] ++ c'.newFillIds rows) := by
  have hapart : (c.newFillIds [r] ++ c'.newFillIds rows).Nodup := by
    refine List.nodup_append.mpr ⟨c.nodup_newFillIds _, c'.nodup_newFillIds _, ?_⟩
    intro i hi j hj hij
    have hr : i ∈ r.fillIds := by simpa using (mem_newFillIds.mp hi).1
    exact (mem_newFillIds.mp hj).2 ((h j).mpr (Or.inr (hij ▸ hr)))
  refine (List.perm_ext_iff_of_nodup (c.nodup_newFillIds _) hapart).mpr fun id => ?_
  simp only [List.mem_append, mem_newFillIds, h, List.flatMap_cons, List.flatMap_nil,
    List.not_mem_nil, or_false]
  tauto

theorem perm_drawnIds_cons {c c' : Counter} {r : Row α} {rows : List (Row α)}
    {added later : List (Constraint α)}
    (h : ∀ id, id ∈ c'.fillIds ↔ id ∈ c.fillIds ∨ id ∈ r.fillIds) :
    (c.drawnIds (r :: rows) (added ++ later)).Perm
      (c.drawnIds [r] added ++ c'.drawnIds rows later) := by
  have hfill := List.perm_iff_count.mp (perm_newFillIds_cons rows h)
  rw [List.perm_iff_count]
  intro id
  have hid := hfill id
  simp only [drawnIds, List.flatMap_cons, List.flatMap_nil, List.map_append, List.count_append,
    List.count_nil] at hid ⊢
  omega

end Counter

theorem range'_append_of_le {a b c : Nat} (hab : a ≤ b) (hbc : b ≤ c) :
    List.range' a (b - a) ++ List.range' b (c - b) = List.range' a (c - a) := by
  obtain ⟨m, rfl⟩ := Nat.exists_eq_add_of_le hab
  obtain ⟨n, rfl⟩ := Nat.exists_eq_add_of_le hbc
  rw [Nat.add_sub_cancel_left, Nat.add_sub_cancel_left, Nat.add_assoc, Nat.add_sub_cancel_left]
  exact List.range'_append_1

/-- The ids of the new stand-ins, of the fill matrices, each once, and of the constraints that come
after those of the given problem. -/
def Elimination.drawnIds (e : Elimination α) (p : Problem α) : List Ident :=
  e.inverse.rows.flatMap Row.standInIds ++ (e.inverse.rows.flatMap Row.fillIds).dedup ++
    (e.problem.constraints.drop p.constraints.length).map Constraint.id

theorem Problem.drawnIds_afterScan (p : Problem α) (scan : Scan α) (next : Ident) :
    (p.afterScan scan).drawnIds p = Counter.drawnIds ⟨next, []⟩ scan.rows scan.added := by
  have hfill : (scan.rows.flatMap Row.fillIds).dedup = Counter.newFillIds ⟨next, []⟩ scan.rows :=
    (List.filter_eq_self.mpr fun id _ => decide_eq_true List.not_mem_nil).symm
  have hadded : (p.afterScan scan).problem.constraints.drop p.constraints.length = scan.added :=
    List.drop_left' (List.length_map _)
  unfold Elimination.drawnIds Counter.drawnIds
  rw [hadded, ← hfill]
  rfl

variable [Scalar α]

theorem Scan.next_run_cons {c : Counter} {v : Variable} {vs : List Variable} {s : Visit α}
    (h : c.visit v = .ok s) :
    (run c (v :: vs) : Scan α).next = (run s.counter vs : Scan α).next := by
  rw [run, h]

/-- **The ids drawn by a scan are those that follow the counter**, each of them once. -/
theorem Scan.perm_drawnIds {c : Counter} {vs : List Variable} (hc : c.Valid)
    (h : (run c vs : Scan α).fault = none) :
    c.next ≤ (run c vs : Scan α).next ∧
    (c.drawnIds (run c vs : Scan α).rows (run c vs : Scan α).added).Perm
      (List.range' c.next ((run c vs : Scan α).next - c.next)) := by
  induction vs generalizing c with
  | nil =>
    refine ⟨Nat.le_refl _, ?_⟩
    show [].Perm (List.range' c.next (c.next - c.next))
    rw [Nat.sub_self]
    exact .nil
  | cons v vs ih =>
    obtain ⟨s, hs, hrest, hrows, hadded⟩ := run_cons_of_fault_none h
    have hd : c.Draws s := Counter.visit_draws hc hs
    obtain ⟨hle, hperm⟩ := ih hd.valid hrest
    rw [hrows, hadded, next_run_cons hs]
    refine ⟨Nat.le_trans hd.le hle, (Counter.perm_drawnIds_cons hd.fillIds).trans ?_⟩
    rw [hd.drawn, ← range'_append_of_le hd.le hle]
    exact hperm.append_left _

/-- **An elimination draws an interval of ids**, each of which belongs to one new stand-in, one fill
matrix or one added constraint. -/
theorem Problem.perm_drawnIds {p : Problem α} {next next' : Ident} {e : Elimination α}
    (he : p.eliminate next = (.ok e, next')) :
    (e.drawnIds p).Perm (List.range' next (next' - next)) := by
  obtain ⟨hf, rfl, rfl⟩ := eliminate_eq_ok he
  have hempty : Counter.Valid ⟨next, []⟩ := fun id h => absurd h List.not_mem_nil
  rw [drawnIds_afterScan p _ next]
  exact (Scan.perm_drawnIds hempty hf).2

end ConvexProgram
