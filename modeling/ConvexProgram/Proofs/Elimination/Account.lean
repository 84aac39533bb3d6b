import ConvexProgram.Proofs.Elimination.Drawn
import ConvexProgram.Proofs.Elimination.Meaning

/-!
# The account of an elimination

What an elimination draws ids for can be told from the variables alone: `Variable.account` lists it
in order, without any counter or table.

* `Variable.Packable`           what is asked of a variable; the first that is not is the fault;
* `Scan.exists_run_append`      a scan draws what the account lists, up to the fault;
* `Scan.serves_account`         each id is found where the account says it belongs;
* `eliminate_account`           the same for an elimination.
-/

namespace ConvexProgram

/-- What an id is drawn for. -/
inductive Draw where
  /-- the stand-in of the variable with this id -/
  | standIn (id : Ident)
  /-- the fill matrix of this size -/
  | fill (size : Nat)
  /-- the constraint on the stand-in of the variable with this id -/
  | constraint (id : Ident)
deriving DecidableEq

namespace Variable

/-- A symmetric variable has to be a scalar or square. -/
def Packable (v : Variable) : Prop :=
  v.isSymmetric = true → v.shape = .scalar ∨ ∃ n, v.shape = .matrix n n

theorem packable_iff {v : Variable} :
    v.Packable ↔ (v.isSymmetric = true → v.shape.isSquare = true) := by
  refine forall_congr' fun _ => ⟨?_, Shape.isSquare_cases⟩
  rintro (h | ⟨n, h⟩)
  · rw [h]
    rfl
  · rw [h]
    exact beq_self_eq_true n

instance (v : Variable) : Decidable v.Packable := decidable_of_iff _ packable_iff.symm

theorem packable_or_first (vs : List Variable) :
    (∀ v ∈ vs, v.Packable) ∨ ∃ before v after, vs = before ++ v :: after ∧
      (∀ w ∈ before, w.Packable) ∧ ¬v.Packable := by
  induction vs with
  | nil => exact Or.inl fun v hv => absurd hv List.not_mem_nil
  | cons v vs ih =>
    by_cases hv : v.Packable
    · rcases ih with hall | ⟨before, w, after, rfl, hbefore, hw⟩
      · exact Or.inl (List.forall_mem_cons.mpr ⟨hv, hall⟩)
      · exact Or.inr ⟨v :: before, w, after, rfl, List.forall_mem_cons.mpr ⟨hv, hbefore⟩, hw⟩
    · exact Or.inr ⟨[], v, vs, rfl, fun w hw => absurd hw List.not_mem_nil, hv⟩

theorem sublist_firstOfEach (vs : List Variable) : (firstOfEach vs).Sublist vs := by
  induction vs with
  | nil => exact .slnil
  | cons v vs ih => exact (List.filter_sublist.trans ih).cons_cons v

/-- The numbers of rows of the symmetric variables. -/
def symmetricSizes (vs : List Variable) : List Nat :=
  (vs.filter isSymmetric).map fun v => v.shape.rows

theorem mem_symmetricSizes {vs : List Variable} {n : Nat} :
    n ∈ symmetricSizes vs ↔ ∃ v ∈ vs, v.isSymmetric = true ∧ v.shape.rows = n := by
  simp only [symmetricSizes, List.mem_map, List.mem_filter, and_assoc]

theorem mem_symmetricSizes_cons {v : Variable} {vs : List Variable} {n : Nat} :
    n ∈ symmetricSizes (v :: vs) ↔
      v.isSymmetric = true ∧ v.shape.rows = n ∨ n ∈ symmetricSizes vs := by
  simp only [mem_symmetricSizes, List.exists_mem_cons_iff]

/-- What is drawn for a variable that comes after others. -/
def draws (before : List Variable) (v : Variable) : List Draw :=
  (if v.attributes.hasForcing then [.standIn v.id] else []) ++
  (if v.isSymmetric ∧ v.shape.rows ∉ symmetricSizes before then [.fill v.shape.rows] else []) ++
  if ¬v.isSymmetric ∧ (v.attributes.nonneg ∨ v.attributes.nonpos ∨ v.attributes.psd ∨
    v.attributes.nsd) then [.constraint v.id] else []

/-- What is drawn for variables in order, after the ones before. -/
def account (before : List Variable) : List Variable → List Draw
  | [] => []
  | v :: vs => v.draws before ++ account (v :: before) vs

/-! ## What is drawn for one variable -/

section
variable {before : List Variable} {v : Variable}

theorem draws_of_symmetric (hsym : v.isSymmetric = true) :
    v.draws before = .standIn v.id ::
      if v.shape.rows ∉ symmetricSizes before then [.fill v.shape.rows] else [] := by
  have hforce : v.attributes.hasForcing = true := by
    rw [Attributes.hasForcing_eq, show v.attributes.symmetric = true from hsym, Bool.true_or]
  simp [draws, hforce, hsym]

theorem draws_of_relation {r : Relation} (hsym : v.isSymmetric = false)
    (hr : v.attributes.relation? = some r) :
    v.draws before = [.standIn v.id, .constraint v.id] := by
  have hforce : v.attributes.hasForcing = true := by
    rw [Attributes.hasForcing_eq, hr, Option.isSome_some, Bool.or_true]
  have hone : v.attributes.nonneg ∨ v.attributes.nonpos ∨ v.attributes.psd ∨ v.attributes.nsd := by
    rcases Attributes.relation?_eq_some_iff.mp hr with ⟨h, _⟩ | ⟨_, h, _⟩ | ⟨_, _, h, _⟩ |
      ⟨_, _, _, h, _⟩
    · exact Or.inl h
    · exact Or.inr (Or.inl h)
    · exact Or.inr (Or.inr (Or.inl h))
    · exact Or.inr (Or.inr (Or.inr h))
  simp [draws, hforce, hsym, hone]

theorem draws_of_plain (hsym : v.isSymmetric = false) (hr : v.attributes.relation? = none) :
    v.draws before = [] := by
  have hforce : v.attributes.hasForcing = false :=
    Attributes.hasForcing_eq_false_iff.mpr ⟨hsym, hr⟩
  have hnone : ¬(v.attributes.nonneg ∨ v.attributes.nonpos ∨ v.attributes.psd ∨
      v.attributes.nsd) := by
    unfold Attributes.relation? at hr
    split_ifs at hr with h1 h2 h3 h4
    rintro (h | h | h | h) <;> contradiction
  simp [draws, hforce, hsym, hnone]

/-- Beside fill matrices, only the variable itself is drawn for. -/
theorem mem_draws_cases {d : Draw} (h : d ∈ v.draws before) :
    d = .standIn v.id ∨ d = .constraint v.id ∨
      v.isSymmetric = true ∧ v.shape.rows ∉ symmetricSizes before ∧ d = .fill v.shape.rows := by
  unfold draws at h
  rcases List.mem_append.mp h with h | h
  · rcases List.mem_append.mp h with h | h
    · exact Or.inl (List.mem_singleton.mp (List.mem_ite_nil_right.mp h).2)
    · obtain ⟨⟨hsym, hnew⟩, h⟩ := List.mem_ite_nil_right.mp h
      exact Or.inr (Or.inr ⟨hsym, hnew, List.mem_singleton.mp h⟩)
  · exact Or.inr (Or.inl (List.mem_singleton.mp (List.mem_ite_nil_right.mp h).2))

theorem fill_mem_draws {n : Nat} :
    .fill n ∈ v.draws before ↔
      v.isSymmetric = true ∧ v.shape.rows = n ∧ n ∉ symmetricSizes before := by
  constructor
  · intro h
    rcases mem_draws_cases h with h | h | ⟨hsym, hnew, h⟩
    · cases h
    · cases h
    · cases h
      exact ⟨hsym, rfl, hnew⟩
  · rintro ⟨hsym, rfl, hnew⟩
    rw [draws_of_symmetric hsym, if_pos hnew]
    exact List.mem_cons_of_mem _ (List.mem_singleton_self _)

end

/-! ## What is drawn for several variables -/

section
variable {before vs : List Variable}

theorem mem_account_cases {d : Draw} (h : d ∈ account before vs) :
    (∃ v ∈ vs, d = .standIn v.id ∨ d = .constraint v.id) ∨ ∃ n, d = .fill n := by
  induction vs generalizing before with
  | nil => exact absurd h List.not_mem_nil
  | cons v vs ih =>
    rcases List.mem_append.mp h with h | h
    · rcases mem_draws_cases h with h | h | ⟨_, _, h⟩
      · exact Or.inl ⟨v, List.mem_cons_self, Or.inl h⟩
      · exact Or.inl ⟨v, List.mem_cons_self, Or.inr h⟩
      · exact Or.inr ⟨_, h⟩
    · rcases ih h with ⟨w, hw, h⟩ | h
      · exact Or.inl ⟨w, List.mem_cons_of_mem _ hw, h⟩
      · exact Or.inr h

/-- A fill matrix is drawn for each size that a symmetric variable has and none before had. -/
theorem fill_mem_account {n : Nat} :
    .fill n ∈ account before vs ↔ n ∈ symmetricSizes vs ∧ n ∉ symmetricSizes before := by
  induction vs generalizing before with
  | nil => simp [account, symmetricSizes]
  | cons v vs ih =>
    rw [account, List.mem_append, fill_mem_draws, ih, mem_symmetricSizes_cons,
      mem_symmetricSizes_cons]
    tauto

theorem nodup_draws {v : Variable} : (v.draws before).Nodup := by
  unfold draws
  split_ifs <;> simp

/-- Nothing is drawn twice for distinct variables. -/
theorem nodup_account (h : vs.Pairwise fun v w => v.id ≠ w.id) : (account before vs).Nodup := by
  induction vs generalizing before with
  | nil => exact .nil
  | cons v vs ih =>
    rw [List.pairwise_cons] at h
    refine List.nodup_append.mpr ⟨nodup_draws, ih h.2, ?_⟩
    rintro d hd _ hlater rfl
    rcases mem_draws_cases hd with rfl | rfl | ⟨hsym, _, rfl⟩
    · obtain ⟨w, hw, heq | heq⟩ | ⟨n, heq⟩ := mem_account_cases hlater
      · exact h.1 w hw (Draw.standIn.inj heq)
      · cases heq
      · cases heq
    · obtain ⟨w, hw, heq | heq⟩ | ⟨n, heq⟩ := mem_account_cases hlater
      · cases heq
      · exact h.1 w hw (Draw.constraint.inj heq)
      · cases heq
    · -- the size of this variable is an old one for the later variables
      exact (fill_mem_account.mp hlater).2 (mem_symmetricSizes_cons.mpr (Or.inl ⟨hsym, rfl⟩))

end

end Variable

open Variable

variable {α : Type} [Scalar α]

/-! ## One visit -/

namespace Counter

/-- The fill matrices so far are those of the symmetric variables before. -/
def Follows (c : Counter) (before : List Variable) : Prop :=
  ∀ n, (c.fills.lookup n).isSome ↔ n ∈ symmetricSizes before

variable {c : Counter} {before : List Variable} {v : Variable} {s : Visit α}

theorem exists_visit (h : v.Packable) : ∃ s : Visit α, c.visit v = .ok s := by
  unfold visit
  by_cases hsym : v.isSymmetric = true
  · rw [if_pos hsym, if_pos (packable_iff.mp h hsym)]
    exact ⟨_, rfl⟩
  · rw [if_neg hsym]
    cases v.attributes.relation? with
    | some r => exact ⟨_, rfl⟩
    | none => exact ⟨_, rfl⟩

theorem visit_of_not_packable (h : ¬v.Packable) :
    (c.visit v : Except Fault (Visit α)) = .error (.symmetricShape v.shape) := by
  rw [packable_iff, Classical.not_imp] at h
  unfold visit
  rw [if_pos h.1, if_neg h.2]

theorem Follows.lookup_eq_none_iff (hc : c.Follows before) {n : Nat} :
    c.fills.lookup n = none ↔ n ∉ symmetricSizes before := by
  rw [← hc, Bool.not_eq_true, Option.isSome_eq_false_iff, Option.isNone_iff_eq_none]

theorem Follows.mem_of_lookup (hc : c.Follows before) {n : Nat} {id : Ident}
    (h : c.fills.lookup n = some id) : n ∈ symmetricSizes before :=
  (hc n).mp (Option.isSome_of_eq_some h)

/-- A visit draws as many ids as the account says. -/
theorem Follows.next_visit (hc : c.Follows before) (h : c.visit v = .ok s) :
    s.counter.next = c.next + (v.draws before).length := by
  obtain ⟨hsym, _, rfl⟩ | ⟨hsym, r, hr, rfl⟩ | ⟨hsym, hr, rfl⟩ := visit_cases h
  · rw [draws_of_symmetric hsym]
    cases hl : c.fills.lookup v.shape.rows with
    | some id =>
      rw [pack_of_lookup hl, if_neg (not_not_intro (hc.mem_of_lookup hl))]
      rfl
    | none =>
      rw [pack_of_lookup_none hl, if_pos (hc.lookup_eq_none_iff.mp hl)]
      rfl
  · rw [draws_of_relation hsym hr]
    rfl
  · rw [draws_of_plain hsym hr]
    rfl

/-- A fill matrix is the second thing drawn, if it is drawn, and the others stay. -/
theorem Follows.lookup_visit (hc : c.Follows before) (h : c.visit v = .ok s) (n : Nat) :
    s.counter.fills.lookup n =
      if .fill n ∈ v.draws before then some (c.next + 1) else c.fills.lookup n := by
  have hother : v.isSymmetric = false → .fill n ∉ v.draws before := fun hsym hfill =>
    Bool.noConfusion (hsym.symm.trans (fill_mem_draws.mp hfill).1)
  obtain ⟨hsym, _, rfl⟩ | ⟨hsym, r, _, rfl⟩ | ⟨hsym, _, rfl⟩ := visit_cases h
  · cases hl : c.fills.lookup v.shape.rows with
    | some id =>
      have hold : .fill n ∉ v.draws before := by
        intro hfill
        obtain ⟨_, rfl, hnew⟩ := fill_mem_draws.mp hfill
        exact hnew (hc.mem_of_lookup hl)
      rw [pack_of_lookup hl, if_neg hold]
    | none =>
      have hnew := hc.lookup_eq_none_iff.mp hl
      rw [pack_of_lookup_none hl]
      by_cases hn : n = v.shape.rows
      · subst hn
        rw [if_pos (fill_mem_draws.mpr ⟨hsym, rfl, hnew⟩)]
        exact List.lookup_cons_self
      · rw [if_neg fun hfill => hn (fill_mem_draws.mp hfill).2.1.symm]
        show List.lookup n ((v.shape.rows, c.next + 1) :: c.fills) = _
        rw [List.lookup_cons, beq_eq_false_iff_ne.mpr hn]
  · rw [if_neg (hother hsym)]
    rfl
  · rw [if_neg (hother hsym)]
    rfl

theorem Follows.lookup_visit_of_some (hc : c.Follows before) (h : c.visit v = .ok s) {n : Nat}
    {id : Ident} (hl : c.fills.lookup n = some id) : s.counter.fills.lookup n = some id := by
  have hold : .fill n ∉ v.draws before := fun hfill =>
    (fill_mem_draws.mp hfill).2.2 (hc.mem_of_lookup hl)
  rw [hc.lookup_visit h, if_neg hold, hl]

theorem Follows.visit (hc : c.Follows before) (h : c.visit v = .ok s) :
    s.counter.Follows (v :: before) := by
  intro n
  rw [hc.lookup_visit h, mem_symmetricSizes_cons]
  by_cases hfill : .fill n ∈ v.draws before
  · obtain ⟨hsym, hn, _⟩ := fill_mem_draws.mp hfill
    rw [if_pos hfill]
    exact iff_of_true rfl (Or.inl ⟨hsym, hn⟩)
  · rw [if_neg hfill, hc n]
    rw [fill_mem_draws] at hfill
    tauto

/-- A symmetric variable is rebuilt with the fill matrix of its size. -/
theorem replacement_of_visit (h : c.visit v = .ok s) (hsym : v.isSymmetric = true) :
    ∃ id, s.counter.fills.lookup v.shape.rows = some id ∧
      s.row.replacement = Row.unpacked v s.row.standIn.id id := by
  obtain ⟨_, _, rfl⟩ | ⟨hnot, _⟩ | ⟨hnot, _⟩ := visit_cases h
  · cases hl : c.fills.lookup v.shape.rows with
    | some id =>
      rw [pack_of_lookup hl]
      exact ⟨id, hl, rfl⟩
    | none =>
      rw [pack_of_lookup_none hl]
      exact ⟨c.next + 1, List.lookup_cons_self, rfl⟩
  · cases hnot.symm.trans hsym
  · cases hnot.symm.trans hsym

end Counter

/-! ## Where the ids are found -/

/-- The id is found, in the rows and constraints of an elimination, where it was drawn for. -/
def Draw.Serves (rows : List (Row α)) (added : List (Constraint α)) (id : Ident) : Draw → Prop
  | standIn i => ∃ r ∈ rows, r.declared.id = i ∧ r.standIn.id = id
  | fill n => ∀ r ∈ rows, r.declared.isSymmetric = true → r.declared.shape.rows = n →
      r.replacement = Row.unpacked r.declared r.standIn.id id
  | constraint i => ∃ r ∈ rows, r.declared.id = i ∧ ∃ rel,
      r.declared.attributes.relation? = some rel ∧ ⟨id, .compare rel r.replacement⟩ ∈ added

namespace Scan

variable {c : Counter} {before vs : List Variable}

/-- Symmetric variables of a size that is there are rebuilt with the fill matrix that is there. -/
theorem replacement_of_lookup (hc : c.Follows before) (h : (run c vs : Scan α).fault = none)
    {n : Nat} {id : Ident} (hl : c.fills.lookup n = some id) :
    ∀ r ∈ (run c vs : Scan α).rows, r.declared.isSymmetric = true → r.declared.shape.rows = n →
      r.replacement = Row.unpacked r.declared r.standIn.id id := by
  induction vs generalizing c before with
  | nil => exact fun r hr => absurd hr List.not_mem_nil
  | cons v vs ih =>
    obtain ⟨s, hs, hrest, hrows, _⟩ := run_cons_of_fault_none h
    have hl' := hc.lookup_visit_of_some hs hl
    rw [hrows]
    refine List.forall_mem_cons.mpr ⟨?_, ih (hc.visit hs) hrest hl'⟩
    rw [(Counter.visit_spec hs).1]
    rintro hsym rfl
    obtain ⟨id', hid', hrep⟩ := Counter.replacement_of_visit hs hsym
    obtain rfl : id' = id := Option.some.inj (hid'.symm.trans hl')
    exact hrep

/-- A fill matrix that a visit draws is the one in its row and in all later rows of the size. -/
theorem serves_fill (hc : c.Follows before) {v : Variable} {s : Visit α} (hs : c.visit v = .ok s)
    (hrest : (run s.counter vs : Scan α).fault = none) {n : Nat} (hn : .fill n ∈ v.draws before)
    (added : List (Constraint α)) :
    (Draw.fill n).Serves (s.row :: (run s.counter vs).rows) added (c.next + 1) := by
  have hl : s.counter.fills.lookup n = some (c.next + 1) := by
    rw [hc.lookup_visit hs, if_pos hn]
  obtain ⟨hsym, hsize, _⟩ := fill_mem_draws.mp hn
  refine List.forall_mem_cons.mpr ⟨fun _ _ => ?_, replacement_of_lookup (hc.visit hs) hrest hl⟩
  rw [(Counter.visit_spec hs).1]
  obtain ⟨id, hid, hrep⟩ := Counter.replacement_of_visit hs hsym
  obtain rfl : id = c.next + 1 := by
    rw [hsize, hl] at hid
    exact (Option.some.inj hid).symm
  exact hrep

/-- What a visit draws is found in its row, its constraints and the later rows. -/
theorem serves_draws (hc : c.Follows before) {v : Variable} {s : Visit α} (hs : c.visit v = .ok s)
    (hrest : (run s.counter vs : Scan α).fault = none) {k : Nat} {d : Draw}
    (hd : (v.draws before)[k]? = some d) :
    d.Serves (s.row :: (run s.counter vs).rows) (s.added ++ (run s.counter vs).added)
      (c.next + k) := by
  have hmem : d ∈ v.draws before := List.mem_of_getElem? hd
  obtain ⟨hsym, _, rfl⟩ | ⟨hsym, r, hr, rfl⟩ | ⟨hsym, hr, rfl⟩ := Counter.visit_cases hs
  · rw [draws_of_symmetric hsym] at hd
    cases k with
    | zero =>
      obtain rfl : .standIn v.id = d := Option.some.inj hd
      exact ⟨_, List.mem_cons_self, rfl, rfl⟩
    | succ k =>
      rw [List.getElem?_cons_succ] at hd
      by_cases hnew : v.shape.rows ∉ symmetricSizes before
      · rw [if_pos hnew] at hd
        cases k with
        | zero =>
          obtain rfl : .fill v.shape.rows = d := Option.some.inj hd
          exact serves_fill hc hs hrest hmem _
        | succ k => cases hd
      · rw [if_neg hnew] at hd
        cases hd
  · rw [draws_of_relation hsym hr] at hd
    match k, hd with
    | 0, hd =>
      obtain rfl : .standIn v.id = d := Option.some.inj hd
      exact ⟨_, List.mem_cons_self, rfl, rfl⟩
    | 1, hd =>
      obtain rfl : .constraint v.id = d := Option.some.inj hd
      exact ⟨_, List.mem_cons_self, rfl, r, hr, List.mem_append_left _ (List.mem_singleton_self _)⟩
  · rw [draws_of_plain hsym hr] at hd
    cases hd

/-- **Each id of a scan is found where the account says.** -/
theorem serves_account (hc : c.Follows before) (h : (run c vs : Scan α).fault = none) {k : Nat}
    {d : Draw} (hd : (account before vs)[k]? = some d) :
    d.Serves (run c vs : Scan α).rows (run c vs : Scan α).added (c.next + k) := by
  induction vs generalizing c before k with
  | nil => cases hd
  | cons v vs ih =>
    obtain ⟨s, hs, hrest, hrows, hadded⟩ := run_cons_of_fault_none h
    rw [hrows, hadded]
    rw [account] at hd
    rcases Nat.lt_or_ge k (v.draws before).length with hk | hk
    · rw [List.getElem?_append_left hk] at hd
      exact serves_draws hc hs hrest hd
    · rw [List.getElem?_append_right hk] at hd
      have hid : s.counter.next + (k - (v.draws before).length) = c.next + k := by
        rw [hc.next_visit hs, Nat.add_assoc, Nat.add_sub_cancel' hk]
      have hlater := ih (hc.visit hs) hrest hd
      rw [hid] at hlater
      cases d with
      | standIn i =>
        obtain ⟨r, hr, h⟩ := hlater
        exact ⟨r, List.mem_cons_of_mem _ hr, h⟩
      | fill n =>
        -- a size that is drawn for later is not that of this row
        have hnew := (fill_mem_account.mp (List.mem_of_getElem? hd)).2
        refine List.forall_mem_cons.mpr ⟨fun hsym hn => ?_, hlater⟩
        rw [(Counter.visit_spec hs).1] at hsym hn
        exact absurd (mem_symmetricSizes_cons.mpr (Or.inl ⟨hsym, hn⟩)) hnew
      | constraint i =>
        obtain ⟨r, hr, hi, rel, hrel, hadd⟩ := hlater
        exact ⟨r, List.mem_cons_of_mem _ hr, hi, rel, hrel, List.mem_append_right _ hadd⟩

/-- Before variables that fit, a scan goes on, and it has drawn what the account lists. -/
theorem exists_run_append (hc : c.Follows before) (h : ∀ v ∈ vs, v.Packable)
    (later : List Variable) :
    ∃ c' : Counter, c'.next = c.next + (account before vs).length ∧
      (run c (vs ++ later) : Scan α).fault = (run c' later : Scan α).fault ∧
      (run c (vs ++ later) : Scan α).next = (run c' later : Scan α).next := by
  induction vs generalizing c before with
  | nil => exact ⟨c, rfl, rfl, rfl⟩
  | cons v vs ih =>
    obtain ⟨hv, hvs⟩ := List.forall_mem_cons.mp h
    obtain ⟨s, hs⟩ : ∃ s : Visit α, c.visit v = .ok s := Counter.exists_visit hv
    obtain ⟨c', hnext, hfault, hlast⟩ := ih (hc.visit hs) hvs
    refine ⟨c', ?_, ?_, ?_⟩
    · rw [hnext, hc.next_visit hs, account, List.length_append, Nat.add_assoc]
    · rw [List.cons_append, run, hs]
      exact hfault
    · rw [List.cons_append, next_run_cons hs]
      exact hlast

end Scan

/-! ## A whole elimination -/

theorem Problem.eliminate_eq (p : Problem α) (next : Ident) :
    p.eliminate next =
      match (Scan.run ⟨next, []⟩ p.unknowns : Scan α).fault with
      | some f => (.error f, (Scan.run ⟨next, []⟩ p.unknowns : Scan α).next)
      | none => (.ok (p.afterScan (Scan.run ⟨next, []⟩ p.unknowns)),
          (Scan.run ⟨next, []⟩ p.unknowns : Scan α).next) := rfl

theorem Counter.follows_nil (next : Ident) : Follows ⟨next, []⟩ [] :=
  fun _ => iff_of_false Bool.false_ne_true List.not_mem_nil

theorem Problem.exists_later_run {p : Problem α} {before later : List Variable}
    (hp : p.unknowns = before ++ later) (h : ∀ v ∈ before, v.Packable) (next : Ident) :
    ∃ c : Counter, c.next = next + (account [] before).length ∧
      (Scan.run ⟨next, []⟩ p.unknowns : Scan α).fault = (Scan.run c later : Scan α).fault ∧
      (Scan.run ⟨next, []⟩ p.unknowns : Scan α).next = (Scan.run c later : Scan α).next := by
  rw [hp]
  exact Scan.exists_run_append (Counter.follows_nil next) h later

/-- The elimination stops at the first variable that does not fit. -/
theorem Problem.eliminate_of_not_packable {p : Problem α} {before after : List Variable}
    {v : Variable} (hp : p.unknowns = before ++ v :: after) (hbefore : ∀ w ∈ before, w.Packable)
    (hv : ¬v.Packable) (next : Ident) :
    p.eliminate next =
      (.error (.symmetricShape v.shape), next + (account [] before).length) := by
  obtain ⟨c, hnext, hfault, hlast⟩ := exists_later_run hp hbefore next
  have hstop : (Scan.run c (v :: after) : Scan α) =
      ⟨[], [], c.next, some (.symmetricShape v.shape)⟩ := by
    rw [Scan.run, Counter.visit_of_not_packable hv]
  rw [hstop] at hfault hlast
  rw [eliminate_eq, hfault, hlast, hnext]

theorem Problem.eliminate_of_packable {p : Problem α} (h : ∀ v ∈ p.unknowns, v.Packable)
    (next : Ident) : ∃ e, p.eliminate next = (.ok e, next + (account [] p.unknowns).length) := by
  obtain ⟨c, hnext, hfault, hlast⟩ := exists_later_run (List.append_nil _).symm h next
  have hend : (Scan.run c [] : Scan α) = ⟨[], [], c.next, none⟩ := rfl
  rw [hend] at hfault hlast
  rw [eliminate_eq, hfault, hlast, hnext]
  exact ⟨_, rfl⟩

/-- Two symmetric matrices of one size, of which the first stands twice, a nonnegative number and a
symmetric variable of the given shape. -/
def Problem.sums (s : Shape) : Problem ℚ :=
  let x : Expr ℚ := .var ⟨0, .matrix 2 2, none, { symmetric := true }⟩
  let y : Expr ℚ := .var ⟨1, .matrix 2 2, none, { symmetric := true }⟩
  let t : Expr ℚ := .var ⟨2, .scalar, none, { nonneg := true }⟩
  let z : Expr ℚ := .var ⟨3, s, none, { symmetric := true }⟩
  ⟨.minimize, ((x.add y).add x).sum, [⟨4, .compare .zero (t.add z.sum)⟩]⟩

/-- **When an elimination fails, and which ids it draws.**  It looks at the variables as they stand
first, and fails if and only if one of them is symmetric and neither a scalar nor square; the fault
is the shape of the first such, and what was drawn is the account of the variables before it.  Otherwise the ids
that follow the counter are those of the account of all variables, in order: the `k`-th of them is
found where the `k`-th entry says.  Nothing is drawn twice, and each size of a symmetric variable
gets a fill matrix. -/
theorem eliminate_account {α : Type} [Scalar α] (p : Problem α) (next : Ident) :
    (p.unknowns.Sublist p.leaves ∧
      ∀ v, v ∈ p.unknowns ↔ p.leaves.find? (fun w => w.id == v.id) = some v) ∧
    (∀ f next', p.eliminate next = (.error f, next') ↔
      ∃ before v after, p.unknowns = before ++ v :: after ∧ (∀ w ∈ before, w.Packable) ∧
        ¬v.Packable ∧ f = .symmetricShape v.shape ∧
        next' = next + (account [] before).length) ∧
    (∀ e next', p.eliminate next = (.ok e, next') →
      next' = next + (account [] p.unknowns).length ∧
      ∀ (k : Nat) (d : Draw), (account [] p.unknowns)[k]? = some d →
        d.Serves e.inverse.rows (e.problem.constraints.drop p.constraints.length) (next + k)) ∧
    (account [] p.unknowns).Nodup ∧
    ∀ n, Draw.fill n ∈ account [] p.unknowns ↔
      ∃ v ∈ p.unknowns, v.isSymmetric = true ∧ v.shape.rows = n := by
  refine ⟨⟨sublist_firstOfEach _, fun v => mem_firstOfEach_iff⟩,
    fun f next' => ⟨fun h => ?_, ?_⟩, fun e next' h => ?_, ?_, fun n => ?_⟩
  · obtain hall | ⟨before, v, after, hp, hbefore, hv⟩ := packable_or_first p.unknowns
    · obtain ⟨e, he⟩ := Problem.eliminate_of_packable hall next
      cases h.symm.trans he
    · cases h.symm.trans (Problem.eliminate_of_not_packable hp hbefore hv next)
      exact ⟨before, v, after, hp, hbefore, hv, rfl, rfl⟩
  · rintro ⟨before, v, after, hp, hbefore, hv, rfl, rfl⟩
    exact Problem.eliminate_of_not_packable hp hbefore hv next
  · have hnext : next' = next + (account [] p.unknowns).length := by
      obtain hall | ⟨before, v, after, hp, hbefore, hv⟩ := packable_or_first p.unknowns
      · obtain ⟨e', he'⟩ := Problem.eliminate_of_packable hall next
        exact congrArg Prod.snd (h.symm.trans he')
      · cases h.symm.trans (Problem.eliminate_of_not_packable hp hbefore hv next)
    obtain ⟨hf, rfl, _⟩ := Problem.eliminate_eq_ok h
    have hadded : (p.afterScan (Scan.run ⟨next, []⟩ p.unknowns)).problem.constraints.drop
        p.constraints.length = (Scan.run ⟨next, []⟩ p.unknowns : Scan α).added :=
      List.drop_left' (List.length_map _)
    refine ⟨hnext, fun k d hd => ?_⟩
    rw [hadded]
    exact Scan.serves_account (Counter.follows_nil next) hf hd
  · exact nodup_account (pairwise_firstOfEach p.leaves)
  · rw [fill_mem_account, mem_symmetricSizes]
    exact and_iff_left List.not_mem_nil

theorem eliminate_account_sums :
    (Problem.sums (.matrix 2 3)).eliminate 5 = (.error (.symmetricShape (.matrix 2 3)), 10) ∧
    account [] (Problem.sums (.matrix 3 3)).unknowns =
      [.standIn 0, .fill 2, .standIn 1, .standIn 2, .constraint 2, .standIn 3, .fill 3] ∧
    ∃ e, (Problem.sums (.matrix 3 3)).eliminate 5 = (.ok e, 12) ∧
      (Draw.fill 2).Serves e.inverse.rows (e.problem.constraints.drop 1) 6 ∧
      (Draw.constraint 2).Serves e.inverse.rows (e.problem.constraints.drop 1) 9 := by
  obtain ⟨_, hids⟩ := (eliminate_account (Problem.sums (.matrix 3 3)) 5).2.2.1 _ 12 rfl
  refine ⟨?_, rfl, _, rfl, hids 1 (.fill 2) rfl, hids 4 (.constraint 2) rfl⟩
  have hp : (Problem.sums (.matrix 2 3)).unknowns = (Problem.sums (.matrix 2 3)).unknowns.take 3 ++
      [⟨3, .matrix 2 3, none, { symmetric := true }⟩] := rfl
  exact ((eliminate_account _ 5).2.1 _ _).mpr ⟨_, _, [], hp, by decide, by decide, rfl, rfl⟩

end ConvexProgram
