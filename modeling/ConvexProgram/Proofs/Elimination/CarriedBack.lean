import ConvexProgram.Proofs.Elimination.Form

/-!
# What is carried back

A solution of the reduced problem is carried back row by row.  A row fails only if its variable is
symmetric and its stand-in has a value of the wrong length (`Row.recover_cases`), and no row writes
what another one wrote.  So neither success nor the values depend on the order in which the rows are
visited (`Row.recoverAll_cases`, `Row.recoverAll_of_perm`), and what comes back can be said variable
by variable (`eliminate_recover`).
-/

namespace ConvexProgram

variable {α : Type}

/-! ## One row -/

/-- The value `d` of a variable is the value `c` of its stand-in, unpacked if the variable is
symmetric: to a number for a number, and to a full matrix otherwise. -/
structure Variable.ReadsOff [Scalar α] (v : Variable) (c d : Value α) : Prop where
  unpacked : v.isSymmetric = true →
    ∃ m, UpperTriangle.unpack v.shape.rows c = .ok m ∧ d = Row.fullValue v.shape m
  copied : v.isSymmetric = false → d = c

namespace Row

variable {σ : Assignment α} {r : Row α} {rs : List (Row α)} {t : Table α}

/-- The stand-in of a symmetric variable has a value of another length than a packed triangle. -/
def Mispacked (σ : Assignment α) (r : Row α) : Prop :=
  r.declared.isSymmetric = true ∧
    ∃ c, σ r.standIn.id = some c ∧ c.size ≠ UpperTriangle.length r.declared.shape.rows

theorem mispacked_iff_of_value {c : Value α} (hc : σ r.standIn.id = some c) :
    r.Mispacked σ ↔ r.declared.isSymmetric = true ∧
      c.size ≠ UpperTriangle.length r.declared.shape.rows := by
  unfold Mispacked
  rw [hc]
  constructor
  · rintro ⟨hsym, d, hd, hne⟩
    cases hd
    exact ⟨hsym, hne⟩
  · rintro ⟨hsym, hne⟩
    exact ⟨hsym, c, rfl, hne⟩

theorem not_mispacked_of_none (hn : σ r.standIn.id = none) : ¬ r.Mispacked σ := by
  rintro ⟨_, c, hc, _⟩
  cases hn.symm.trans hc

variable [Scalar α]

/-- Carrying one variable back fails, finds no value, or reads the value off. -/
theorem recover_cases (σ : Assignment α) (r : Row α) :
    (r.Mispacked σ ∧ ∃ f, r.recover σ = .error f ∧ f.kind = .shapeMismatch) ∨
    (¬ r.Mispacked σ ∧ σ r.standIn.id = none ∧ r.recover σ = .ok none) ∨
    (¬ r.Mispacked σ ∧ ∃ c d, σ r.standIn.id = some c ∧ r.recover σ = .ok (some d) ∧
      r.declared.ReadsOff c d) := by
  cases hc : σ r.standIn.id with
  | none => exact Or.inr (Or.inl ⟨not_mispacked_of_none hc, rfl, recover_of_none hc⟩)
  | some c =>
    rw [mispacked_iff_of_value hc]
    cases hsym : r.declared.isSymmetric with
    | false =>
      have hreads : r.declared.ReadsOff c c :=
        ⟨fun h => Bool.noConfusion (hsym.symm.trans h), fun _ => rfl⟩
      refine Or.inr (Or.inr ⟨fun h => Bool.noConfusion h.1, c, c, rfl, ?_, hreads⟩)
      rw [recover_of_not_symmetric σ hsym, hc]
    | true =>
      by_cases hsize : c.size = UpperTriangle.length r.declared.shape.rows
      · have hreads : r.declared.ReadsOff c _ :=
          ⟨fun _ => ⟨_, UpperTriangle.unpack_of_size hsize, rfl⟩,
            fun h => Bool.noConfusion (hsym.symm.trans h)⟩
        exact Or.inr (Or.inr ⟨fun h => h.2 hsize, c, _, rfl, recover_of_size hsym hc hsize, hreads⟩)
      · refine Or.inl ⟨⟨rfl, hsize⟩,
          .packedLength (UpperTriangle.length r.declared.shape.rows) c.shape, ?_, rfl⟩
        rw [recover_of_value hsym hc, UpperTriangle.unpack_of_size_ne hsize]
        rfl

theorem isSome_of_recover {o : Option (Value α)} (h : r.recover σ = .ok o) :
    o.isSome ↔ ∃ c, σ r.standIn.id = some c := by
  obtain ⟨_, f, hf, _⟩ | ⟨_, hn, ho⟩ | ⟨_, c, d, hc, hd, _⟩ := recover_cases σ r
  · rw [hf] at h
    cases h
  · cases ho.symm.trans h
    rw [hn]
    simp
  · cases hd.symm.trans h
    rw [hc]
    simp

theorem readsOff_of_recover {d : Value α} (h : r.recover σ = .ok (some d)) :
    ∃ c, σ r.standIn.id = some c ∧ r.declared.ReadsOff c d := by
  obtain ⟨_, f, hf, _⟩ | ⟨_, _, ho⟩ | ⟨_, c, d', hc, hd, hreads⟩ := recover_cases σ r
  · rw [hf] at h
    cases h
  · cases ho.symm.trans h
  · cases hd.symm.trans h
    exact ⟨c, hc, hreads⟩

/-! ## All rows -/

/-- The rows fail together if one of them does, whichever comes first. -/
theorem recoverAll_cases (σ : Assignment α) (rs : List (Row α)) :
    ((∃ r ∈ rs, r.Mispacked σ) ∧ ∃ f, recoverAll σ rs = .error f ∧ f.kind = .shapeMismatch) ∨
    ((∀ r ∈ rs, ¬ r.Mispacked σ) ∧ ∃ t, recoverAll σ rs = .ok t) := by
  induction rs with
  | nil => exact Or.inr ⟨fun r hr => absurd hr List.not_mem_nil, ∅, rfl⟩
  | cons r rs ih =>
    have hhead : (r.Mispacked σ ∧ ∃ f, r.recover σ = .error f ∧ f.kind = .shapeMismatch) ∨
        (¬ r.Mispacked σ ∧ ∃ o, r.recover σ = .ok o) := by
      obtain h | ⟨hr, _, ho⟩ | ⟨hr, _, d, _, hd, _⟩ := recover_cases σ r
      · exact Or.inl h
      · exact Or.inr ⟨hr, _, ho⟩
      · exact Or.inr ⟨hr, _, hd⟩
    rw [recoverAll]
    obtain ⟨hr, f, hf, hkind⟩ | ⟨hr, o, ho⟩ := hhead
    · rw [hf]
      exact Or.inl ⟨⟨r, List.mem_cons_self, hr⟩, f, rfl, hkind⟩
    rw [ho]
    obtain ⟨⟨s, hs, hmis⟩, f, hf, hkind⟩ | ⟨hrs, t, ht⟩ := ih
    · rw [hf]
      exact Or.inl ⟨⟨s, List.mem_cons_of_mem _ hs, hmis⟩, f, rfl, hkind⟩
    · rw [ht]
      exact Or.inr ⟨List.forall_mem_cons.mpr ⟨hr, hrs⟩, _, rfl⟩

/-- **The values do not depend on the order of the rows.** -/
theorem recoverAll_of_perm {rs' : List (Row α)} (hperm : rs'.Perm rs)
    (hp : rs.Pairwise fun r s => r.declared.id ≠ s.declared.id) (ht : recoverAll σ rs = .ok t) :
    recoverAll σ rs' = .ok t := by
  have hp' : rs'.Pairwise fun r s => r.declared.id ≠ s.declared.id :=
    hp.perm hperm.symm fun h => Ne.symm h
  obtain ⟨t', ht'⟩ : ∃ t', recoverAll σ rs' = .ok t' := exists_recoverAll fun r hr =>
    ⟨_, recover_of_recoverAll ht hp r (hperm.mem_iff.mp hr)⟩
  suffices t' = t by rw [ht', this]
  refine Std.ExtTreeMap.ext_getElem? fun id => ?_
  by_cases hid : ∃ r ∈ rs', r.declared.id = id
  · obtain ⟨r, hr, rfl⟩ := hid
    have hvalue := (recover_of_recoverAll ht' hp' r hr).symm.trans
      (recover_of_recoverAll ht hp r (hperm.mem_iff.mp hr))
    exact Except.ok.inj hvalue
  · have hne : ∀ r ∈ rs', r.declared.id ≠ id := fun r hr h => hid ⟨r, hr, h⟩
    rw [getElem?_recoverAll_of_forall_ne ht' hne,
      getElem?_recoverAll_of_forall_ne ht fun r hr => hne r (hperm.mem_iff.mpr hr)]

end Row

/-! ## Solutions -/

/-- Carrying a solution back fails, or changes nothing but its table of values. -/
theorem Inverse.recover_cases [Scalar α] (inv : Inverse α) (s : Solution α) :
    ((∃ r ∈ inv.rows, r.Mispacked s.primal.assignment) ∧
      ∃ f, inv.recover s = .error f ∧ f.kind = .shapeMismatch) ∨
    ((∀ r ∈ inv.rows, ¬ r.Mispacked s.primal.assignment) ∧
      ∃ t, Row.recoverAll s.primal.assignment inv.rows = .ok t ∧
        inv.recover s = .ok { s with primal := t }) := by
  obtain ⟨hbad, f, hf, hkind⟩ | ⟨hgood, t, ht⟩ := Row.recoverAll_cases s.primal.assignment inv.rows
  · refine Or.inl ⟨hbad, f, ?_, hkind⟩
    unfold recover
    rw [hf]
    rfl
  · exact Or.inr ⟨hgood, t, ht, recover_of_recoverAll ht⟩

namespace Elimination

variable [Scalar α] {e : Elimination α} {p : Problem α} {s : Solution α}

/-- The variable is symmetric and its stand-in has a value of another length than a packed triangle,
whatever its form. -/
def Mispacked (e : Elimination α) (s : Solution α) (v : Variable) : Prop :=
  v.isSymmetric = true ∧ ∃ w c, e.inverse.standIn? v.id = some w ∧ s.primal[w.id]? = some c ∧
    c.size ≠ v.shape.rows * (v.shape.rows + 1) / 2

/-- The solution `r` of `p` has what the solution `s` of the reduced problem says of the variables
of `p`. -/
structure CarriesBack (e : Elimination α) (p : Problem α) (s r : Solution α) : Prop where
  status : r.status = s.status
  value : r.value = s.value
  dual : r.dual = s.dual
  mem_iff : ∀ id, id ∈ r.primal ↔
    id ∈ p.variableIds ∧ ∃ w, e.inverse.standIn? id = some w ∧ w.id ∈ s.primal
  readsOff : ∀ v ∈ p.unknowns, ∀ d, r.primal[v.id]? = some d →
    ∃ w c, e.inverse.standIn? v.id = some w ∧ s.primal[w.id]? = some c ∧ v.ReadsOff c d

namespace Reduces

theorem forall_unknowns_iff (h : e.Reduces p) {P : Variable → Prop} :
    (∀ v ∈ p.unknowns, P v) ↔ ∀ r ∈ e.inverse.rows, P r.declared := by
  rw [← h.declared, List.forall_mem_map]

theorem standIn?_declared (h : e.Reduces p) {r : Row α} (hr : r ∈ e.inverse.rows) :
    e.inverse.standIn? r.declared.id = some r.standIn := by
  rw [Inverse.standIn?, h.row?_declared hr, Option.map_some]

theorem mispacked_iff (h : e.Reduces p) {r : Row α} (hr : r ∈ e.inverse.rows) :
    e.Mispacked s r.declared ↔ r.Mispacked s.primal.assignment := by
  unfold Mispacked
  rw [h.standIn?_declared hr]
  constructor
  · rintro ⟨hsym, w, c, hw, hc, hne⟩
    cases hw
    exact ⟨hsym, c, hc, hne⟩
  · rintro ⟨hsym, c, hc, hne⟩
    exact ⟨hsym, _, c, rfl, hc, hne⟩

theorem exists_mispacked_iff (h : e.Reduces p) :
    (∃ v ∈ p.unknowns, e.Mispacked s v) ↔
      ∃ r ∈ e.inverse.rows, r.Mispacked s.primal.assignment := by
  rw [← h.declared]
  simp only [List.mem_map, exists_exists_and_eq_and]
  exact exists_congr fun r => and_congr_right fun hr => h.mispacked_iff hr

/-- Only the variables of the problem have recovered values. -/
theorem exists_row_of_mem {σ : Assignment α} {t : Table α}
    (ht : Row.recoverAll σ e.inverse.rows = .ok t) {id : Ident} (hid : id ∈ t) :
    ∃ r ∈ e.inverse.rows, r.declared.id = id := by
  by_contra hne
  have hnone := Row.getElem?_recoverAll_of_forall_ne ht fun r hr hid => hne ⟨r, hr, hid⟩
  rw [Std.ExtTreeMap.mem_iff_isSome_getElem?, hnone] at hid
  cases hid

theorem mem_iff (h : e.Reduces p) {t : Table α}
    (ht : Row.recoverAll s.primal.assignment e.inverse.rows = .ok t) {r : Row α}
    (hr : r ∈ e.inverse.rows) : r.declared.id ∈ t ↔ r.standIn.id ∈ s.primal := by
  have hrec := Row.recover_of_recoverAll ht h.pairwise_rows r hr
  rw [Std.ExtTreeMap.mem_iff_isSome_getElem?, Std.ExtTreeMap.mem_iff_isSome_getElem?,
    Row.isSome_of_recover hrec, Option.isSome_iff_exists]
  rfl

/-- A solution that was carried back says of the problem what the values found say of it. -/
theorem carriesBack (h : e.Reduces p) {t : Table α}
    (ht : Row.recoverAll s.primal.assignment e.inverse.rows = .ok t) :
    e.CarriesBack p s { s with primal := t } := by
  refine ⟨rfl, rfl, rfl, fun id => ?_, h.forall_unknowns_iff.mpr fun r hr d hd => ?_⟩
  · constructor
    · intro hid
      obtain ⟨r, hr, rfl⟩ := exists_row_of_mem ht hid
      exact ⟨Variable.mem_sortedIds.mpr ⟨_, h.declared_mem_leaves hr, rfl⟩, r.standIn,
        h.standIn?_declared hr, (h.mem_iff ht hr).mp hid⟩
    · rintro ⟨hid, w, hw, hmem⟩
      obtain ⟨v, hv, rfl⟩ := Variable.mem_sortedIds.mp hid
      obtain ⟨r, hr, hrid, _⟩ := h.exists_row hv
      rw [← hrid, h.standIn?_declared hr] at hw
      cases hw
      rw [← hrid]
      exact (h.mem_iff ht hr).mpr hmem
  · have hrec := Row.recover_of_recoverAll ht h.pairwise_rows r hr
    rw [show t[r.declared.id]? = some d from hd] at hrec
    obtain ⟨c, hc, hreads⟩ := Row.readsOff_of_recover hrec
    exact ⟨r.standIn, c, h.standIn?_declared hr, hc, hreads⟩

/-- Where nothing restricts a variable, the values of the variables are copied. -/
theorem recoverAll_of_plain (h : e.Reduces p)
    (hplain : ∀ v ∈ p.unknowns, v.attributes.hasForcing = false) :
    Row.recoverAll s.primal.assignment e.inverse.rows
      = .ok (s.primal.filter fun id _ => decide (id ∈ p.variableIds)) := by
  rw [h.forall_unknowns_iff] at hplain
  have hrow : ∀ r ∈ e.inverse.rows,
      r.recover s.primal.assignment = .ok s.primal[r.declared.id]? := by
    intro r hr
    have hsym : r.declared.isSymmetric = false :=
      (Attributes.hasForcing_eq_false_iff.mp (hplain r hr)).1
    rw [Row.recover_of_not_symmetric _ hsym, (h.made r hr).standIn_eq (hplain r hr)]
    rfl
  obtain ⟨t, ht⟩ := Row.exists_recoverAll fun r hr => ⟨_, hrow r hr⟩
  suffices t = s.primal.filter fun id _ => decide (id ∈ p.variableIds) by rw [ht, this]
  refine Std.ExtTreeMap.ext_getElem? fun id => ?_
  rw [Std.ExtTreeMap.getElem?_filter']
  by_cases hid : id ∈ p.variableIds
  · obtain ⟨v, hv, rfl⟩ := Variable.mem_sortedIds.mp hid
    obtain ⟨r, hr, hrid, _⟩ := h.exists_row hv
    have hrec := Row.recover_of_recoverAll ht h.pairwise_rows r hr
    rw [hrow r hr, hrid] at hrec
    rw [← Except.ok.inj hrec]
    cases s.primal[v.id]? with
    | none => rfl
    | some c => exact (if_pos (decide_eq_true hid)).symm
  · rw [Row.getElem?_recoverAll_of_forall_ne ht fun r hr hrid =>
      hid (Variable.mem_sortedIds.mpr ⟨_, h.declared_mem_leaves hr, hrid⟩)]
    simp [hid]

end Reduces
end Elimination

/-- **What is carried back.**  In whatever order the rows are visited, carrying a solution back
fails, and then with shapes that do not fit, just if some symmetric variable has a stand-in with a
value of the wrong length.  Otherwise it gives the same solution in every order, which has the
status, the objective value and the duals of the one found, and values for just those variables
whose stand-ins have one, each read off this one.  Where nothing restricts a variable, the values of
the variables are kept and all others dropped. -/
theorem eliminate_recover [Scalar α] {p : Problem α} {next next' : Ident} {e : Elimination α}
    (he : p.eliminate next = (.ok e, next')) (s : Solution α) {rows : List (Row α)}
    (hrows : rows.Perm e.inverse.rows) :
    ((∃ f, Inverse.recover ⟨rows⟩ s = .error f) ↔ ∃ v ∈ p.unknowns, e.Mispacked s v) ∧
    (∀ f, Inverse.recover ⟨rows⟩ s = .error f → f.kind = .shapeMismatch) ∧
    ((∀ v ∈ p.unknowns, ¬ e.Mispacked s v) → ∃ r, Inverse.recover ⟨rows⟩ s = .ok r ∧
      e.inverse.recover s = .ok r ∧ e.CarriesBack p s r) ∧
    ((∀ v ∈ p.unknowns, v.attributes.hasForcing = false) → Inverse.recover ⟨rows⟩ s
      = .ok { s with primal := s.primal.filter fun id _ => decide (id ∈ p.variableIds) }) := by
  have hred := Problem.eliminate_reduces he
  have hmis : (∃ v ∈ p.unknowns, e.Mispacked s v) ↔ ∃ r ∈ rows, r.Mispacked s.primal.assignment :=
    hred.exists_mispacked_iff.trans
      (exists_congr fun r => and_congr_left fun _ => hrows.mem_iff.symm)
  have hplain : (∀ v ∈ p.unknowns, v.attributes.hasForcing = false) → Inverse.recover ⟨rows⟩ s
      = .ok { s with primal := s.primal.filter fun id _ => decide (id ∈ p.variableIds) } := fun h =>
    Inverse.recover_of_recoverAll
      (Row.recoverAll_of_perm hrows hred.pairwise_rows (hred.recoverAll_of_plain h))
  obtain ⟨hbad, f, hf, hkind⟩ | ⟨hgood, t, ht, hr⟩ := Inverse.recover_cases ⟨rows⟩ s
  · refine ⟨⟨fun _ => hmis.mpr hbad, fun _ => ⟨f, hf⟩⟩, fun f' hf' => ?_, fun hnone => ?_, hplain⟩
    · cases hf.symm.trans hf'
      exact hkind
    · obtain ⟨v, hv, hv'⟩ := hmis.mpr hbad
      exact absurd hv' (hnone v hv)
  · have hpairwise : rows.Pairwise fun r s => r.declared.id ≠ s.declared.id :=
      hred.pairwise_rows.perm hrows.symm fun h => Ne.symm h
    have ht' := Row.recoverAll_of_perm hrows.symm hpairwise ht
    refine ⟨⟨?_, fun hsome => ?_⟩, fun f hf => ?_, fun _ => ?_, hplain⟩
    · rintro ⟨f, hf⟩
      cases hr.symm.trans hf
    · obtain ⟨r, hr, hbad⟩ := hmis.mp hsome
      exact absurd hbad (hgood r hr)
    · cases hr.symm.trans hf
    · exact ⟨_, hr, Inverse.recover_of_recoverAll ht', hred.carriesBack ht'⟩

/-- Values for the stand-in of `X`, for `s`, and for an id that the reduced problem does not have;
the stand-ins of `Y` and `t` have none. -/
def Solution.traceGap (x : Value ℚ) : Solution ℚ where
  status := .optimal
  value := some 11
  primal := Table.ofPairs [(7, x), (3, .scalar 4), (20, .scalar 5)]
  dual := Table.ofPairs [(5, .scalar 6)]

theorem eliminate_recover_traceGap : ∃ e r, Problem.traceGap.eliminate 7 = (.ok e, 12) ∧
    e.inverse.rows.reverse.Perm e.inverse.rows ∧
    Inverse.recover ⟨e.inverse.rows.reverse⟩ (.traceGap (.ofColumn #[1, 2, 3])) = .ok r ∧
    e.CarriesBack Problem.traceGap (.traceGap (.ofColumn #[1, 2, 3])) r ∧ r.primal.keys = [0, 3] ∧
    ∃ v ∈ Problem.traceGap.unknowns, e.Mispacked (.traceGap (.ofColumn #[1, 2])) v := by
  have he : Problem.traceGap.eliminate 7 = (.ok _, 12) := rfl
  obtain ⟨hbad, _⟩ := eliminate_recover he (.traceGap (.ofColumn #[1, 2])) (List.reverse_perm _)
  obtain ⟨hfail, _, hback, _⟩ :=
    eliminate_recover he (.traceGap (.ofColumn #[1, 2, 3])) (List.reverse_perm _)
  obtain ⟨r, hr, _, hback⟩ := hback fun v hv hmis => by
    obtain ⟨f, hf⟩ := hfail.mpr ⟨v, hv, hmis⟩
    cases hf
  cases hr
  exact ⟨_, _, he, List.reverse_perm _, rfl, hback, rfl, hbad.mp ⟨_, rfl⟩⟩

end ConvexProgram
