import ConvexProgram.Elimination.Recovery
import ConvexProgram.Proofs.DistinctVariables
import ConvexProgram.Proofs.Substitution

/-!
# What a scan leaves behind

A successful elimination is described once, and its properties are read off this description.

* `Counter.visit_cases`            everything that looking at one variable can do;
* `Row.Made`, `Row.condition?`     the three forms of a row, and the constraint that goes with it;
* `Elimination.Reduces`            the rows and the reduced problem, in terms of the given problem;
* `Elimination.Reduces.exists_row`, `Row.recover_of_recoverAll`   the row of a leaf, and the value
  that a solution is given for it.
-/

namespace ConvexProgram

/-! ## The attribute that counts -/

theorem Attributes.relation?_eq_some_iff {s : Attributes} {r : Relation} :
    s.relation? = some r ↔
      s.nonneg = true ∧ r = .nonneg ∨
      s.nonneg = false ∧ s.nonpos = true ∧ r = .nonpos ∨
      s.nonneg = false ∧ s.nonpos = false ∧ s.psd = true ∧ r = .psd ∨
      s.nonneg = false ∧ s.nonpos = false ∧ s.psd = false ∧ s.nsd = true ∧ r = .nsd := by
  unfold relation?
  cases s.nonneg <;> cases s.nonpos <;> cases s.psd <;> cases s.nsd <;> simp [eq_comm]

variable {α : Type} [Scalar α]

/-! ## One variable -/

/-- Looking at a variable packs, relaxes or keeps it. -/
theorem Counter.visit_cases {c : Counter} {v : Variable} {s : Visit α} (h : c.visit v = .ok s) :
    (v.isSymmetric = true ∧ v.shape.isSquare = true ∧ s = c.pack v) ∨
    (v.isSymmetric = false ∧ ∃ r, v.attributes.relation? = some r ∧ s = c.relax v r) ∨
    (v.isSymmetric = false ∧ v.attributes.relation? = none ∧ s = c.keep v) := by
  unfold visit at h
  split at h
  · next hsym =>
    split at h
    · next hsq => exact Or.inl ⟨hsym, hsq, (Except.ok.inj h).symm⟩
    · cases h
  · next hsym =>
    have hsym : v.isSymmetric = false := eq_false_of_ne_true hsym
    cases hr : v.attributes.relation? with
    | some r =>
      rw [hr] at h
      exact Or.inr (Or.inl ⟨hsym, r, rfl, (Except.ok.inj h).symm⟩)
    | none =>
      rw [hr] at h
      exact Or.inr (Or.inr ⟨hsym, rfl, (Except.ok.inj h).symm⟩)

namespace Row

/-- the expression of a packed variable -/
def unpacked (v : Variable) (id fillId : Ident) : Expr α :=
  ((Expr.const fillId (.sparse (UpperTriangle.fill v.shape.rows))).matmul
    (.var (v.packed id))).reshape v.shape

/-- The three forms of a row. -/
inductive Made : Row α → Prop
  | packed (v : Variable) (id fillId : Ident) (hsym : v.isSymmetric = true)
      (hsq : v.shape.isSquare = true) : Made ⟨v, v.packed id, unpacked v id fillId⟩
  | relaxed (v : Variable) (id : Ident) (r : Relation) (hsym : v.isSymmetric = false)
      (hr : v.attributes.relation? = some r) : Made ⟨v, v.relaxed id, .var (v.relaxed id)⟩
  | kept (v : Variable) (hsym : v.isSymmetric = false) (hr : v.attributes.relation? = none) :
      Made ⟨v, v, .var v⟩

theorem Made.isSquare {r : Row α} (hr : r.Made) (hs : r.declared.isSymmetric = true) :
    r.declared.shape.isSquare = true := by
  cases hr with
  | packed v id fillId hsym hsq => exact hsq
  | relaxed v id rel hsym hrel => exact Bool.noConfusion (hs.symm.trans hsym)
  | kept v hsym hrel => exact Bool.noConfusion (hs.symm.trans hsym)

/-- The constraint that goes with a row, if there is one. -/
def condition? (r : Row α) : Option (Body α) :=
  if r.declared.isSymmetric then none
  else r.declared.attributes.relation?.map fun rel => .compare rel r.replacement

end Row

theorem Counter.visit_spec {c : Counter} {v : Variable} {s : Visit α} (h : c.visit v = .ok s) :
    s.row.declared = v ∧ s.row.Made ∧ s.added.map Constraint.body = s.row.condition?.toList := by
  unfold Row.condition?
  obtain ⟨hsym, hsq, rfl⟩ | ⟨hsym, r, hr, rfl⟩ | ⟨hsym, hr, rfl⟩ := visit_cases h
  · refine ⟨rfl, .packed v _ _ hsym hsq, ?_⟩
    show [] = (if v.isSymmetric then none else _ : Option (Body α)).toList
    rw [if_pos hsym]
    rfl
  · refine ⟨rfl, .relaxed v _ r hsym hr, ?_⟩
    show [_] = (if v.isSymmetric then none else v.attributes.relation?.map _ : Option (Body α)).toList
    rw [hsym, hr]
    rfl
  · refine ⟨rfl, .kept v hsym hr, ?_⟩
    show [] = (if v.isSymmetric then none else v.attributes.relation?.map _ : Option (Body α)).toList
    rw [hsym, hr]
    rfl

/-! ## A whole scan -/

namespace Scan

theorem run_cons_of_fault_none {c : Counter} {v : Variable} {vs : List Variable}
    (h : (run c (v :: vs) : Scan α).fault = none) :
    ∃ s : Visit α, c.visit v = .ok s ∧ (run s.counter vs : Scan α).fault = none ∧
      (run c (v :: vs)).rows = s.row :: (run s.counter vs).rows ∧
      (run c (v :: vs)).added = s.added ++ (run s.counter vs).added := by
  rw [run] at h ⊢
  cases hv : (c.visit v : Except Fault (Visit α)) with
  | error f =>
    rw [hv] at h
    cases h
  | ok s =>
    rw [hv] at h
    exact ⟨s, rfl, h, rfl, rfl⟩

theorem run_spec {c : Counter} {vs : List Variable} (h : (run c vs : Scan α).fault = none) :
    (run c vs : Scan α).rows.map Row.declared = vs ∧
    (∀ r ∈ (run c vs : Scan α).rows, r.Made) ∧
    (run c vs : Scan α).added.map Constraint.body
      = (run c vs : Scan α).rows.filterMap Row.condition? := by
  -- for every counter, because each visit hands its own counter on
  induction vs generalizing c with
  | nil => exact ⟨rfl, fun r hr => absurd hr List.not_mem_nil, rfl⟩
  | cons v vs ih =>
    obtain ⟨s, hs, hrest, hrows, hadded⟩ := run_cons_of_fault_none h
    obtain ⟨hd, hm, ha⟩ := Counter.visit_spec hs
    obtain ⟨ihd, ihm, iha⟩ := ih hrest
    rw [hrows, hadded]
    refine ⟨?_, List.forall_mem_cons.mpr ⟨hm, ihm⟩, ?_⟩
    · rw [List.map_cons, hd, ihd]
    · rw [List.map_append, ha, iha, List.filterMap_cons]
      cases s.row.condition? <;> rfl

end Scan

omit [Scalar α] in
/-- A row is found by the id that it declares. -/
theorem Row.find?_declared {rows : List (Row α)}
    (hp : rows.Pairwise fun r s => r.declared.id ≠ s.declared.id) {r : Row α} (hr : r ∈ rows) :
    rows.find? (fun s => s.declared.id == r.declared.id) = some r := by
  induction rows with
  | nil => exact absurd hr List.not_mem_nil
  | cons s rows ih =>
    rw [List.pairwise_cons] at hp
    rcases List.mem_cons.mp hr with rfl | hr
    · rw [List.find?_cons, beq_self_eq_true]
    · rw [List.find?_cons, beq_eq_false_iff_ne.mpr (hp.1 r hr)]
      exact ih hp.2 hr

/-! ## The reduced problem -/

/-- The rows are those of the unknowns, the variables are replaced by them, and their constraints
come after the given ones. -/
structure Elimination.Reduces (e : Elimination α) (p : Problem α) : Prop where
  declared : e.inverse.rows.map Row.declared = p.unknowns
  made : ∀ r ∈ e.inverse.rows, r.Made
  sense : e.problem.sense = p.sense
  objective : e.problem.objective = p.objective.subst e.inverse.replacement?
  constraints : ∃ added, added.map Constraint.body = e.inverse.rows.filterMap Row.condition? ∧
    e.problem.constraints = p.constraints.map (Constraint.subst e.inverse.replacement?) ++ added

theorem Problem.eliminate_eq_ok {p : Problem α} {next next' : Ident} {e : Elimination α}
    (h : p.eliminate next = (.ok e, next')) :
    (Scan.run ⟨next, []⟩ p.unknowns : Scan α).fault = none ∧
      e = p.afterScan (Scan.run ⟨next, []⟩ p.unknowns) ∧
      next' = (Scan.run ⟨next, []⟩ p.unknowns : Scan α).next := by
  unfold eliminate at h
  cases hf : (Scan.run ⟨next, []⟩ p.unknowns : Scan α).fault with
  | some f =>
    simp only [hf] at h
    cases h
  | none =>
    simp only [hf] at h
    cases h
    exact ⟨rfl, rfl, rfl⟩

theorem Problem.eliminate_reduces {p : Problem α} {next next' : Ident} {e : Elimination α}
    (h : p.eliminate next = (.ok e, next')) : e.Reduces p := by
  obtain ⟨hf, rfl, _⟩ := eliminate_eq_ok h
  obtain ⟨hd, hm, ha⟩ := Scan.run_spec hf
  exact ⟨hd, hm, rfl, rfl, _, ha, rfl⟩

namespace Elimination.Reduces

variable {e : Elimination α} {p : Problem α}

theorem pairwise_rows (h : e.Reduces p) :
    e.inverse.rows.Pairwise fun r s => r.declared.id ≠ s.declared.id := by
  have hp := Variable.pairwise_firstOfEach p.leaves
  rw [← Problem.unknowns, ← h.declared, List.pairwise_map] at hp
  exact hp

theorem declared_mem_leaves (h : e.Reduces p) {r : Row α} (hr : r ∈ e.inverse.rows) :
    r.declared ∈ p.leaves := by
  have hu : r.declared ∈ p.unknowns := h.declared ▸ List.mem_map_of_mem hr
  exact Variable.mem_of_mem_firstOfEach hu

theorem row?_declared (h : e.Reduces p) {r : Row α} (hr : r ∈ e.inverse.rows) :
    e.inverse.row? r.declared.id = some r :=
  Row.find?_declared h.pairwise_rows hr

/-- Every leaf has a row, and the row is found by the id of the leaf. -/
theorem exists_row (h : e.Reduces p) {v : Variable} (hv : v ∈ p.leaves) :
    ∃ r ∈ e.inverse.rows, r.declared.id = v.id ∧ e.inverse.row? v.id = some r := by
  obtain ⟨w, hw, hid⟩ := Variable.exists_mem_firstOfEach hv
  rw [← Problem.unknowns, ← h.declared] at hw
  obtain ⟨r, hr, rfl⟩ := List.mem_map.mp hw
  refine ⟨r, hr, hid, ?_⟩
  rw [← hid]
  exact h.row?_declared hr

/-- Where leaves of one id are equal, the rows declare the leaves. -/
theorem forall_leaves_iff (h : e.Reduces p)
    (hleaves : ∀ v ∈ p.leaves, ∀ w ∈ p.leaves, v.id = w.id → v = w) {P : Variable → Prop} :
    (∀ v ∈ p.leaves, P v) ↔ ∀ r ∈ e.inverse.rows, P r.declared := by
  constructor
  · intro hp r hr
    exact hp _ (h.declared_mem_leaves hr)
  · intro hp v hv
    obtain ⟨r, hr, hid, _⟩ := h.exists_row hv
    rw [← hleaves _ (h.declared_mem_leaves hr) v hv hid]
    exact hp r hr

end Elimination.Reduces

/-! ## Recovered values -/

namespace Row

theorem recoverAll_cons {σ : Assignment α} {r : Row α} {rs : List (Row α)} {t : Table α}
    (h : recoverAll σ (r :: rs) = .ok t) :
    ∃ c t', r.recover σ = .ok c ∧ recoverAll σ rs = .ok t' ∧
      t = match c with
        | some c => t'.insert r.declared.id c
        | none => t' := by
  obtain ⟨c, hc, h⟩ := Fault.bind_eq_ok_iff.mp h
  obtain ⟨t', ht, h⟩ := Fault.bind_eq_ok_iff.mp h
  exact ⟨c, t', hc, ht, (Except.ok.inj h).symm⟩

theorem exists_recoverAll {σ : Assignment α} {rs : List (Row α)}
    (h : ∀ r ∈ rs, ∃ c, r.recover σ = .ok c) : ∃ t, recoverAll σ rs = .ok t := by
  induction rs with
  | nil => exact ⟨∅, rfl⟩
  | cons r rs ih =>
    obtain ⟨⟨c, hc⟩, hrs⟩ := List.forall_mem_cons.mp h
    obtain ⟨t, ht⟩ := ih hrs
    unfold recoverAll
    rw [hc, ht]
    exact ⟨_, rfl⟩

/-- An id that no row declares has no recovered value. -/
theorem getElem?_recoverAll_of_forall_ne {σ : Assignment α} {rs : List (Row α)} {t : Table α}
    {id : Ident} (h : recoverAll σ rs = .ok t) (hid : ∀ r ∈ rs, r.declared.id ≠ id) :
    t[id]? = none := by
  induction rs generalizing t with
  | nil =>
    cases h
    exact Std.ExtTreeMap.getElem?_empty
  | cons r rs ih =>
    rw [List.forall_mem_cons] at hid
    obtain ⟨c, t', _, ht', rfl⟩ := recoverAll_cons h
    cases c with
    | none => exact ih ht' hid.2
    | some c =>
      show (t'.insert r.declared.id c)[id]? = none
      rw [Std.ExtTreeMap.getElem?_insert, if_neg (by simpa using hid.1)]
      exact ih ht' hid.2

/-- Each row gives the recovered value of its variable. -/
theorem recover_of_recoverAll {σ : Assignment α} {rs : List (Row α)} {t : Table α}
    (h : recoverAll σ rs = .ok t) (hrs : rs.Pairwise fun r s => r.declared.id ≠ s.declared.id) :
    ∀ r ∈ rs, r.recover σ = .ok t[r.declared.id]? := by
  induction rs generalizing t with
  | nil => exact fun r hr => absurd hr List.not_mem_nil
  | cons r rs ih =>
    rw [List.pairwise_cons] at hrs
    obtain ⟨c, t', hc, ht', rfl⟩ := recoverAll_cons h
    -- the later rows declare other ids, so nothing is there that the first row could overwrite
    have hr : t'[r.declared.id]? = none :=
      getElem?_recoverAll_of_forall_ne ht' fun s hs => Ne.symm (hrs.1 s hs)
    refine List.forall_mem_cons.mpr ⟨?_, fun s hs => ?_⟩
    · cases c with
      | none => rw [hc, hr]
      | some c =>
        show r.recover σ = .ok (t'.insert r.declared.id c)[r.declared.id]?
        rw [hc, Std.ExtTreeMap.getElem?_insert_self]
    · cases c with
      | none => exact ih ht' hrs.2 s hs
      | some c =>
        show s.recover σ = .ok (t'.insert r.declared.id c)[s.declared.id]?
        rw [Std.ExtTreeMap.getElem?_insert, if_neg (by simpa using hrs.1 s hs)]
        exact ih ht' hrs.2 s hs

end Row

theorem Inverse.recover_eq_ok {inv : Inverse α} {s r : Solution α} (h : inv.recover s = .ok r) :
    Row.recoverAll s.primal.assignment inv.rows = .ok r.primal ∧
      r.status = s.status ∧ r.value = s.value ∧ r.dual = s.dual := by
  obtain ⟨t, ht, h⟩ := Fault.bind_eq_ok_iff.mp h
  obtain rfl := Except.ok.inj h
  exact ⟨ht, rfl, rfl, rfl⟩

theorem Inverse.recover_of_recoverAll {inv : Inverse α} {s : Solution α} {t : Table α}
    (h : Row.recoverAll s.primal.assignment inv.rows = .ok t) :
    inv.recover s = .ok { s with primal := t } := by
  unfold recover
  rw [h]
  rfl

end ConvexProgram
