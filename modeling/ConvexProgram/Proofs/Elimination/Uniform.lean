import ConvexProgram.Proofs.Elimination.Account
import ConvexProgram.Proofs.Elimination.CarriedBack
import ConvexProgram.Proofs.Renaming

/-!
# Eliminations that start from different ids

What looking at a variable does depends on the counter only through the ids it draws, so a renaming
that goes on counting from the next id renames the visit (`Counter.visit_rename`), and by induction
the whole scan (`Scan.run_rename`).  The rows are looked up by the ids of the given problem, which
stay.  So an elimination from another id is the same elimination with the drawn ids moved
(`Problem.eliminate_rename`, `Problem.eliminate_shift`), and two eliminations one after the other
have no id in common but those of the given problem (`eliminate_uniform`).
-/

namespace ConvexProgram

variable {α : Type}

/-! ## Renamed results -/

def Row.rename (f : Ident → Ident) (r : Row α) : Row α :=
  ⟨r.declared.rename f, r.standIn.rename f, r.replacement.rename f⟩

/-- The counter with the next id renamed, and the ids of the fill matrices. -/
def Counter.rename (f : Ident → Ident) (c : Counter) : Counter :=
  ⟨f c.next, c.fills.map fun p => (p.1, f p.2)⟩

def Visit.rename (f : Ident → Ident) (s : Visit α) : Visit α :=
  ⟨s.row.rename f, s.added.map (Constraint.rename f), s.counter.rename f⟩

def Scan.rename (f : Ident → Ident) (s : Scan α) : Scan α where
  rows := s.rows.map (Row.rename f)
  added := s.added.map (Constraint.rename f)
  next := f s.next
  fault := s.fault

def Inverse.rename (f : Ident → Ident) (inv : Inverse α) : Inverse α :=
  ⟨inv.rows.map (Row.rename f)⟩

/-- The reduced problem and the rows with all ids renamed. -/
def Elimination.rename (f : Ident → Ident) (e : Elimination α) : Elimination α :=
  ⟨e.problem.rename f, e.inverse.rename f⟩

variable {f : Ident → Ident}

/-! ## One variable -/

namespace Counter

theorem lookup_map_snd (fills : List (Nat × Ident)) (n : Nat) :
    (fills.map fun p => (p.1, f p.2)).lookup n = (fills.lookup n).map f := by
  induction fills with
  | nil => rfl
  | cons p fills ih =>
    rw [List.map_cons, List.lookup_cons, List.lookup_cons, ih]
    split
    · rfl
    · rfl

theorem lookup_rename (c : Counter) (n : Nat) :
    (c.rename f).fills.lookup n = (c.fills.lookup n).map f := lookup_map_snd c.fills n

variable [Scalar α] {c : Counter} {v : Variable}

theorem pack_rename (hf : ∀ id, c.next ≤ id → f (id + 1) = f id + 1) (hv : f v.id = v.id) :
    ((c.rename f).pack v : Visit α) = (c.pack v).rename f := by
  have hnext : f (c.next + 1) = f c.next + 1 := hf _ (Nat.le_refl _)
  have hnext' : f (c.next + 2) = f c.next + 2 := by
    rw [hf _ (Nat.le_succ _), hnext]
  have hself : v.rename f = v := Variable.rename_eq_self hv
  have hlookup := c.lookup_rename (f := f) v.shape.rows
  cases hl : c.fills.lookup v.shape.rows with
  | some id =>
    rw [hl] at hlookup
    rw [pack_of_lookup hl, pack_of_lookup hlookup]
    show _ = Visit.mk ⟨v.rename f, _, _⟩ [] ⟨f (c.next + 1), _⟩
    rw [hself, hnext]
    rfl
  | none =>
    rw [hl] at hlookup
    rw [pack_of_lookup_none hl, pack_of_lookup_none hlookup]
    show _ = Visit.mk ⟨v.rename f, _, Row.unpacked v (f c.next) (f (c.next + 1))⟩ []
      ⟨f (c.next + 2), (v.shape.rows, f (c.next + 1)) :: _⟩
    rw [hself, hnext, hnext']
    rfl

omit [Scalar α] in
theorem relax_rename (hf : ∀ id, c.next ≤ id → f (id + 1) = f id + 1) (hv : f v.id = v.id)
    (r : Relation) : ((c.rename f).relax v r : Visit α) = (c.relax v r).rename f := by
  have hnext : f (c.next + 1) = f c.next + 1 := hf _ (Nat.le_refl _)
  have hnext' : f (c.next + 2) = f c.next + 2 := by
    rw [hf _ (Nat.le_succ _), hnext]
  show _ = Visit.mk ⟨v.rename f, _, _⟩ [⟨f (c.next + 1), _⟩] ⟨f (c.next + 2), _⟩
  rw [Variable.rename_eq_self hv, hnext, hnext']
  rfl

omit [Scalar α] in
theorem keep_rename (hv : f v.id = v.id) :
    ((c.rename f).keep v : Visit α) = (c.keep v).rename f := by
  show _ = Visit.mk ⟨v.rename f, v.rename f, .var (v.rename f)⟩ [] _
  rw [Variable.rename_eq_self hv]
  rfl

/-- A renaming that counts on from the next id renames the visit, and leaves a fault as it is. -/
theorem visit_rename (hf : ∀ id, c.next ≤ id → f (id + 1) = f id + 1) (hv : f v.id = v.id) :
    ((c.rename f).visit v : Except Fault (Visit α)) = (c.visit v).map (Visit.rename f) := by
  unfold visit
  split
  · split
    · exact congrArg Except.ok (pack_rename hf hv)
    · rfl
  · cases v.attributes.relation? with
    | some r => exact congrArg Except.ok (relax_rename hf hv r)
    | none => exact congrArg Except.ok (keep_rename hv)

end Counter

/-! ## A whole scan -/

/-- The scan that a visit and the rest of the scan make up. -/
def Visit.before (s : Visit α) (rest : Scan α) : Scan α :=
  { rest with rows := s.row :: rest.rows, added := s.added ++ rest.added }

theorem Visit.rename_before (s : Visit α) (rest : Scan α) :
    (s.before rest).rename f = (s.rename f).before (rest.rename f) := by
  show (⟨_, (s.added ++ rest.added).map (Constraint.rename f), _, _⟩ : Scan α) = _
  rw [List.map_append]
  rfl

theorem Scan.run_cons_of_visit [Scalar α] {c : Counter} {v : Variable} {vs : List Variable}
    {s : Visit α} (hs : c.visit v = .ok s) : run c (v :: vs) = s.before (run s.counter vs) := by
  rw [run, hs]
  rfl

/-- The same of all variables, because every visit counts upwards. -/
theorem Scan.run_rename [Scalar α] {c : Counter} {vs : List Variable}
    (hf : ∀ id, c.next ≤ id → f (id + 1) = f id + 1) (hv : ∀ v ∈ vs, f v.id = v.id) :
    (run (c.rename f) vs : Scan α) = (run c vs).rename f := by
  induction vs generalizing c with
  | nil => rfl
  | cons v vs ih =>
    obtain ⟨hv, hvs⟩ := List.forall_mem_cons.mp hv
    have hvisit : ((c.rename f).visit v : Except Fault (Visit α)) = _ := Counter.visit_rename hf hv
    cases hs : (c.visit v : Except Fault (Visit α)) with
    | error fault =>
      rw [hs] at hvisit
      rw [run, run, hvisit, hs]
      rfl
    | ok s =>
      rw [hs] at hvisit
      have hle : c.next ≤ s.counter.next := (Counter.visit_standIn hs).1
      have hrest : (run (s.counter.rename f) vs : Scan α) = (run s.counter vs).rename f :=
        ih (fun id hid => hf id (Nat.le_trans hle hid)) hvs
      calc (run (c.rename f) (v :: vs) : Scan α)
          = (s.rename f).before (run (s.counter.rename f) vs) := run_cons_of_visit hvisit
        _ = (s.rename f).before ((run s.counter vs).rename f) := by rw [hrest]
        _ = (s.before (run s.counter vs)).rename f := (s.rename_before _).symm
        _ = (run c (v :: vs)).rename f := by rw [run_cons_of_visit hs]

/-! ## The tables and the reduced problem -/

/-- Rows are found by the ids that they declare, and these stay. -/
theorem Inverse.row?_rename {inv : Inverse α} (h : ∀ r ∈ inv.rows, f r.declared.id = r.declared.id)
    (id : Ident) : (inv.rename f).row? id = (inv.row? id).map (Row.rename f) := by
  obtain ⟨rows⟩ := inv
  show (rows.map (Row.rename f)).find? _ = (rows.find? _).map _
  induction rows with
  | nil => rfl
  | cons r rows ih =>
    obtain ⟨hr, hrows⟩ := List.forall_mem_cons.mp h
    have hkey : (r.rename f).declared.id = r.declared.id := hr
    rw [List.map_cons, List.find?_cons, List.find?_cons, hkey, ih hrows]
    split
    · rfl
    · rfl

theorem Inverse.declared?_rename {inv : Inverse α}
    (h : ∀ r ∈ inv.rows, f r.declared.id = r.declared.id) (id : Ident) :
    (inv.rename f).declared? id = inv.declared? id := by
  unfold declared?
  rw [row?_rename h, Option.map_map]
  exact Option.map_congr fun r hr => Variable.rename_eq_self (h r (row?_eq_some hr).1)

theorem Inverse.standIn?_rename {inv : Inverse α}
    (h : ∀ r ∈ inv.rows, f r.declared.id = r.declared.id) (id : Ident) :
    (inv.rename f).standIn? id = (inv.standIn? id).map (Variable.rename f) := by
  unfold standIn?
  rw [row?_rename h, Option.map_map, Option.map_map]
  rfl

theorem Inverse.replacement?_rename {inv : Inverse α}
    (h : ∀ r ∈ inv.rows, f r.declared.id = r.declared.id) :
    (inv.rename f).replacement? = inv.replacement?.rename f := by
  funext id
  unfold replacement? Substitution.rename
  rw [row?_rename h, Option.map_map, Option.map_map]
  rfl

theorem Problem.afterScan_rename {p : Problem α} {scan : Scan α} (hp : ∀ id ∈ p.ids, f id = id)
    (hrows : ∀ r ∈ scan.rows, f r.declared.id = r.declared.id) :
    p.afterScan (scan.rename f) = (p.afterScan scan).rename f := by
  have hθ : (Inverse.rename f ⟨scan.rows⟩).replacement? =
      (Inverse.replacement? ⟨scan.rows⟩).rename f := Inverse.replacement?_rename hrows
  show Elimination.mk { p.subst (Inverse.rename f ⟨scan.rows⟩).replacement? with
    constraints := (p.subst (Inverse.rename f ⟨scan.rows⟩).replacement?).constraints ++
      scan.added.map (Constraint.rename f) } _ = ⟨⟨_, _, List.map (Constraint.rename f) (_ ++ _)⟩, _⟩
  rw [hθ, ← rename_subst hp, List.map_append]
  rfl

section
variable [Scalar α]

/-- A scan does not count backwards, whether it stops early or not. -/
theorem Scan.next_le_run (c : Counter) (vs : List Variable) :
    c.next ≤ (run c vs : Scan α).next := by
  induction vs generalizing c with
  | nil => exact Nat.le_refl _
  | cons v vs ih =>
    rw [run]
    cases hs : (c.visit v : Except Fault (Visit α)) with
    | error fault => exact Nat.le_refl _
    | ok s => exact Nat.le_trans (Counter.visit_standIn hs).1 (ih s.counter)

/-- **Elimination commutes with renaming** the ids that it may draw, if the ids of the problem stay:
a fault is the same, and otherwise the results are renamed. -/
theorem Problem.eliminate_rename {p : Problem α} {next : Ident}
    (hf : ∀ id, next ≤ id → f (id + 1) = f id + 1) (hp : ∀ id ∈ p.ids, f id = id) :
    p.eliminate (f next) =
      ((p.eliminate next).1.map (Elimination.rename f), f (p.eliminate next).2) := by
  have hv : ∀ v ∈ p.unknowns, f v.id = v.id := fun v hv =>
    hp _ (id_mem_ids (Variable.mem_of_mem_firstOfEach hv))
  have hscan : (Scan.run ⟨f next, []⟩ p.unknowns : Scan α)
      = (Scan.run ⟨next, []⟩ p.unknowns).rename f :=
    Scan.run_rename (c := ⟨next, []⟩) hf hv
  rw [eliminate_eq, eliminate_eq, hscan]
  cases hfault : (Scan.run ⟨next, []⟩ p.unknowns : Scan α).fault with
  | some fault =>
    have hfault' : ((Scan.run ⟨next, []⟩ p.unknowns : Scan α).rename f).fault = some fault := hfault
    rw [hfault']
    rfl
  | none =>
    have hfault' : ((Scan.run ⟨next, []⟩ p.unknowns : Scan α).rename f).fault = none := hfault
    have hrows : ∀ r ∈ (Scan.run ⟨next, []⟩ p.unknowns : Scan α).rows,
        f r.declared.id = r.declared.id := by
      intro r hr
      refine hv r.declared ?_
      rw [← (Scan.run_spec hfault).1]
      exact List.mem_map_of_mem hr
    rw [hfault', afterScan_rename hp hrows]
    rfl

theorem Problem.next_le_eliminate (p : Problem α) (next : Ident) : next ≤ (p.eliminate next).2 := by
  have hle := Scan.next_le_run (α := α) ⟨next, []⟩ p.unknowns
  rw [eliminate_eq]
  cases (Scan.run ⟨next, []⟩ p.unknowns : Scan α).fault with
  | some fault => exact hle
  | none => exact hle

/-- The elimination from another id: what it draws is moved. -/
theorem Problem.eliminate_shift {p : Problem α} {c₁ : Ident} (hold : ∀ id ∈ p.ids, id < c₁)
    (c₂ : Ident) :
    p.eliminate c₂ = ((p.eliminate c₁).1.map (Elimination.rename (.shift c₁ c₂)),
      Ident.shift c₁ c₂ (p.eliminate c₁).2) := by
  have hstart : Ident.shift c₁ c₂ c₁ = c₂ := Ident.shift_add c₁ c₂ 0
  have hrename := eliminate_rename (p := p) (fun _ => Ident.shift_succ (c := c₁) c₂)
    fun id hid => Ident.shift_of_lt c₂ (hold id hid)
  rw [hstart] at hrename
  exact hrename

end

/-! ## Two eliminations, one after the other -/

section
variable [Scalar α] {p : Problem α} {c₁ c₂ n₁ n₂ : Ident} {e₁ e₂ : Elimination α}

theorem Problem.mem_drawnIds_iff (he : p.eliminate c₁ = (.ok e₁, n₁)) {id : Ident} :
    id ∈ e₁.drawnIds p ↔ c₁ ≤ id ∧ id < n₁ := by
  have hle := p.next_le_eliminate c₁
  rw [he] at hle
  rw [(perm_drawnIds he).mem_iff, List.mem_range'_1, Nat.add_sub_cancel' hle]

/-- A stand-in has an id that was there or one that the elimination draws. -/
theorem Problem.standIn_id_lt (hold : ∀ id ∈ p.ids, id < c₁) (he : p.eliminate c₁ = (.ok e₁, n₁))
    {r : Row α} (hr : r ∈ e₁.inverse.rows) : r.standIn.id < n₁ := by
  have hred := eliminate_reduces he
  cases hforce : r.declared.attributes.hasForcing with
  | true => exact ((mem_drawnIds_iff he).mp (Elimination.mem_drawnIds p hr hforce)).2
  | false =>
    have hle := p.next_le_eliminate c₁
    rw [he] at hle
    rw [(hred.made r hr).standIn_eq hforce]
    exact Nat.lt_of_lt_of_le (hold _ (id_mem_ids (hred.declared_mem_leaves hr))) hle

theorem Problem.disjoint_drawnIds (he₁ : p.eliminate c₁ = (.ok e₁, n₁))
    (he₂ : p.eliminate c₂ = (.ok e₂, n₂)) (hlater : n₁ ≤ c₂) :
    (e₁.drawnIds p).Disjoint (e₂.drawnIds p) := by
  intro id h₁ h₂
  have hfirst : id < n₁ := ((mem_drawnIds_iff he₁).mp h₁).2
  have hsecond : c₂ ≤ id := ((mem_drawnIds_iff he₂).mp h₂).1
  exact Nat.not_lt.mpr (Nat.le_trans hlater hsecond) hfirst

/-- The two eliminations have just those stand-ins in common that are kept variables. -/
theorem Problem.exists_standIn_iff (hold : ∀ id ∈ p.ids, id < c₁)
    (he₁ : p.eliminate c₁ = (.ok e₁, n₁)) (he₂ : p.eliminate c₂ = (.ok e₂, n₂)) (hlater : n₁ ≤ c₂)
    {r : Row α} (hr : r ∈ e₂.inverse.rows) :
    (∃ q ∈ e₁.inverse.rows, q.standIn.id = r.standIn.id) ↔
      r.declared.attributes.hasForcing = false := by
  have hred₁ := eliminate_reduces he₁
  have hred₂ := eliminate_reduces he₂
  constructor
  · rintro ⟨q, hq, hid⟩
    by_contra hforce
    have hdrawn := Elimination.mem_drawnIds p hr (eq_true_of_ne_false hforce)
    have hnew : c₂ ≤ r.standIn.id := ((mem_drawnIds_iff he₂).mp hdrawn).1
    have hearlier : q.standIn.id < n₁ := standIn_id_lt hold he₁ hq
    rw [hid] at hearlier
    exact Nat.not_lt.mpr (Nat.le_trans hlater hnew) hearlier
  · intro hforce
    have hunknown : r.declared ∈ e₁.inverse.rows.map Row.declared := by
      rw [hred₁.declared, ← hred₂.declared]
      exact List.mem_map_of_mem hr
    obtain ⟨q, hq, hqr⟩ := List.mem_map.mp hunknown
    refine ⟨q, hq, ?_⟩
    rw [(hred₁.made q hq).standIn_eq (hqr ▸ hforce), (hred₂.made r hr).standIn_eq hforce, hqr]

/-- A later elimination carries a solution back that has values for the stand-ins of an earlier one:
it finds the values of the kept variables and no others. -/
theorem Problem.recover_later (hold : ∀ id ∈ p.ids, id < c₁)
    (he₁ : p.eliminate c₁ = (.ok e₁, n₁)) (he₂ : p.eliminate c₂ = (.ok e₂, n₂)) (hlater : n₁ ≤ c₂)
    {s : Solution α} (hs : ∀ id, id ∈ s.primal ↔ ∃ q ∈ e₁.inverse.rows, q.standIn.id = id) :
    ∃ t, e₂.inverse.recover s = .ok { s with primal := t } ∧
      (∀ id, id ∈ t ↔ ∃ v ∈ p.unknowns, v.id = id ∧ v.attributes.hasForcing = false) ∧
      ∀ id ∈ t, t[id]? = s.primal[id]? := by
  have hred := eliminate_reduces he₂
  have hkept : ∀ r ∈ e₂.inverse.rows,
      (r.standIn.id ∈ s.primal ↔ r.declared.attributes.hasForcing = false) := fun r hr =>
    (hs r.standIn.id).trans (exists_standIn_iff hold he₁ he₂ hlater hr)
  obtain ⟨⟨r, hr, hsym, c, hc, _⟩, _⟩ | ⟨_, t, ht, hrecover⟩ := e₂.inverse.recover_cases s
  · -- a symmetric variable is not kept, so its stand-in has no value at all
    have hmem : r.standIn.id ∈ s.primal :=
      Std.ExtTreeMap.mem_iff_isSome_getElem?.mpr (Option.isSome_of_eq_some hc)
    have hplain := (Attributes.hasForcing_eq_false_iff.mp ((hkept r hr).mp hmem)).1
    cases hplain.symm.trans hsym
  · refine ⟨t, hrecover, fun id => ⟨fun hid => ?_, ?_⟩, fun id hid => ?_⟩
    · obtain ⟨r, hr, rfl⟩ := Elimination.Reduces.exists_row_of_mem ht hid
      have hmem := (hred.mem_iff ht hr).mp hid
      exact ⟨r.declared, hred.declared ▸ List.mem_map_of_mem hr, rfl, (hkept r hr).mp hmem⟩
    · rintro ⟨v, hv, rfl, hforce⟩
      rw [← hred.declared] at hv
      obtain ⟨r, hr, rfl⟩ := List.mem_map.mp hv
      exact (hred.mem_iff ht hr).mpr ((hkept r hr).mpr hforce)
    · obtain ⟨r, hr, rfl⟩ := Elimination.Reduces.exists_row_of_mem ht hid
      have hforce := (hkept r hr).mp ((hred.mem_iff ht hr).mp hid)
      have hvalue := Row.recover_of_recoverAll ht hred.pairwise_rows r hr
      rw [Row.recover_of_not_symmetric _ (Attributes.hasForcing_eq_false_iff.mp hforce).1,
        (hred.made r hr).standIn_eq hforce] at hvalue
      exact (Except.ok.inj hvalue).symm

end

/-- **An elimination depends on the counter only by the names it gives.**  From any two ids above
those of the problem it fails alike, and draws equally many ids.  If it does not fail, then the
reduced problem and the tables of the second elimination are those of the first with the drawn ids
moved and all others as they were; the second id need not even be above those of the problem.  If
the second starts where the first ended, or later, then the two draw no id in common; and a solution
with values for just the stand-ins of the first is carried back by the second to the values of the
variables that nothing restricts, and no others. -/
theorem eliminate_uniform [Scalar α] {p : Problem α} {c₁ : Ident} (hold : ∀ id ∈ p.ids, id < c₁)
    (c₂ : Ident) :
    (∀ fault, (p.eliminate c₁).1 = .error fault ↔ (p.eliminate c₂).1 = .error fault) ∧
    (∃ k, (p.eliminate c₁).2 = c₁ + k ∧ (p.eliminate c₂).2 = c₂ + k) ∧
    ∀ e₁ n₁, p.eliminate c₁ = (.ok e₁, n₁) → ∃ e₂ n₂, p.eliminate c₂ = (.ok e₂, n₂) ∧
      e₂.problem = e₁.problem.rename (.shift c₁ c₂) ∧
      (∀ id, e₂.inverse.declared? id = e₁.inverse.declared? id ∧
        e₂.inverse.standIn? id = (e₁.inverse.standIn? id).map (Variable.rename (.shift c₁ c₂)) ∧
        e₂.inverse.replacement? id =
          (e₁.inverse.replacement? id).map (Expr.rename (.shift c₁ c₂))) ∧
      (n₁ ≤ c₂ → (e₁.drawnIds p).Disjoint (e₂.drawnIds p) ∧
        ∀ s : Solution α, (∀ id, id ∈ s.primal ↔ ∃ r ∈ e₁.inverse.rows, r.standIn.id = id) →
          ∃ t, e₂.inverse.recover s = .ok { s with primal := t } ∧
            (∀ id, id ∈ t ↔ ∃ v ∈ p.unknowns, v.id = id ∧ v.attributes.hasForcing = false) ∧
            ∀ id ∈ t, t[id]? = s.primal[id]?) := by
  have hshift := Problem.eliminate_shift hold c₂
  refine ⟨fun fault => ?_, ?_, fun e₁ n₁ he₁ => ?_⟩
  · rw [hshift]
    cases (p.eliminate c₁).1 with
    | error fault' => exact Iff.rfl
    | ok e₁ => exact iff_of_false (fun h => by cases h) (fun h => by cases h)
  · obtain ⟨k, hk⟩ := Nat.exists_eq_add_of_le (p.next_le_eliminate c₁)
    refine ⟨k, hk, ?_⟩
    rw [hshift, hk, Ident.shift_add]
  · rw [he₁] at hshift
    have hred := Problem.eliminate_reduces he₁
    have hstay : ∀ r ∈ e₁.inverse.rows, Ident.shift c₁ c₂ r.declared.id = r.declared.id :=
      fun r hr => Ident.shift_of_lt c₂ (hold _ (Problem.id_mem_ids (hred.declared_mem_leaves hr)))
    refine ⟨_, _, hshift, rfl, fun id => ⟨?_, ?_, ?_⟩, fun hlater => ⟨?_, fun s hs => ?_⟩⟩
    · exact Inverse.declared?_rename hstay id
    · exact Inverse.standIn?_rename hstay id
    · exact congrFun (Inverse.replacement?_rename hstay) id
    · exact Problem.disjoint_drawnIds he₁ hshift hlater
    · exact Problem.recover_later hold he₁ hshift hlater hs

/-- Values for all stand-ins of the elimination from 7: of `X`, `Y`, `t` and `s`. -/
def Solution.traceGapFound : Solution ℚ where
  status := .optimal
  value := none
  primal := Table.ofPairs
    [(7, .ofColumn #[1, 2, 3]), (9, .ofColumn #[4, 5, 6]), (10, .scalar 1), (3, .scalar 4)]
  dual := ∅

theorem eliminate_uniform_traceGap : ∃ e₁ e₂ t, (∀ id ∈ Problem.traceGap.ids, id < 7) ∧
    Problem.traceGap.eliminate 7 = (.ok e₁, 12) ∧ Problem.traceGap.eliminate 12 = (.ok e₂, 17) ∧
    e₂.problem = e₁.problem.rename (.shift 7 12) ∧
    (e₁.drawnIds Problem.traceGap).Disjoint (e₂.drawnIds Problem.traceGap) ∧
    (∀ id, id ∈ Solution.traceGapFound.primal ↔ ∃ r ∈ e₁.inverse.rows, r.standIn.id = id) ∧
    e₂.inverse.recover .traceGapFound = .ok { Solution.traceGapFound with primal := t } ∧
    t.keys = [3] := by
  have hold : ∀ id ∈ Problem.traceGap.ids, id < 7 := by decide
  have he₁ : Problem.traceGap.eliminate 7 = (.ok _, 12) := rfl
  have he₂ : Problem.traceGap.eliminate 12 = (.ok _, 17) := rfl
  obtain ⟨_, _, htwo⟩ := eliminate_uniform hold 12
  obtain ⟨e₂, n₂, he, hproblem, _, hlater⟩ := htwo _ _ he₁
  cases he.symm.trans he₂
  obtain ⟨hdisjoint, hback⟩ := hlater (Nat.le_refl 12)
  have hs : ∀ id, id ∈ Solution.traceGapFound.primal ↔
      id ∈ (Scan.run ⟨7, []⟩ Problem.traceGap.unknowns : Scan ℚ).rows.map fun r => r.standIn.id := by
    intro id
    have hperm : [3, 7, 9, 10].Perm [7, 9, 3, 10] := by decide
    rw [← Std.ExtTreeMap.mem_keys]
    exact hperm.mem_iff
  simp only [List.mem_map] at hs
  obtain ⟨t, ht, _, _⟩ := hback _ hs
  cases ht
  exact ⟨_, _, _, hold, he₁, he₂, hproblem, hdisjoint, hs, rfl, rfl⟩

end ConvexProgram
