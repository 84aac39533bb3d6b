import ConvexProgram.Proofs.Elimination.Rows

/-!
# The ids that a scan draws

A scan counts upwards, so a stand-in with a new id is told apart from the variables before the scan
and from every other stand-in (`Problem.pairwise_standIn`).
-/

namespace ConvexProgram

variable {α : Type} [Scalar α]

/-! ## One variable -/

theorem Counter.next_le_fillId (c : Counter) (n : Nat) : c.next ≤ (c.fillId n).2.next := by
  unfold fillId
  cases c.fills.lookup n with
  | some id => exact Nat.le_refl _
  | none => exact Nat.le_succ _

/-- The stand-in is the variable itself or has an id drawn at this visit. -/
theorem Counter.visit_standIn {c : Counter} {v : Variable} {s : Visit α} (h : c.visit v = .ok s) :
    c.next ≤ s.counter.next ∧ (s.row.standIn.id = v.id ∨
      c.next ≤ s.row.standIn.id ∧ s.row.standIn.id < s.counter.next) := by
  obtain ⟨_, _, rfl⟩ | ⟨_, r, _, rfl⟩ | ⟨_, _, rfl⟩ := visit_cases h
  · have hnext : c.next + 1 ≤ (Counter.fillId ⟨c.next + 1, c.fills⟩ v.shape.rows).2.next :=
      next_le_fillId ⟨c.next + 1, c.fills⟩ v.shape.rows
    exact ⟨Nat.le_of_succ_le hnext, Or.inr ⟨Nat.le_refl _, hnext⟩⟩
  · show c.next ≤ c.next + 2 ∧ (c.next = v.id ∨ c.next ≤ c.next ∧ c.next < c.next + 2)
    exact ⟨Nat.le_add_right _ _, Or.inr ⟨Nat.le_refl _, Nat.lt_add_of_pos_right Nat.two_pos⟩⟩
  · exact ⟨Nat.le_refl _, Or.inl rfl⟩

/-! ## A whole scan -/

namespace Scan

/-- A stand-in has the id of its variable, or one that the scan has drawn. -/
theorem standIn_of_mem {c : Counter} {vs : List Variable}
    (h : (run c vs : Scan α).fault = none) :
    ∀ r ∈ (run c vs : Scan α).rows, r.standIn.id = r.declared.id ∨ c.next ≤ r.standIn.id := by
  induction vs generalizing c with
  | nil => exact fun r hr => absurd hr List.not_mem_nil
  | cons v vs ih =>
    obtain ⟨s, hs, hrest, hrows, _⟩ := run_cons_of_fault_none h
    obtain ⟨hnext, hid⟩ := Counter.visit_standIn hs
    have hdecl : s.row.declared = v := (Counter.visit_spec hs).1
    rw [hrows]
    refine List.forall_mem_cons.mpr ⟨?_, fun r hr => ?_⟩
    · rw [hdecl]
      rcases hid with hid | hid
      · exact Or.inl hid
      · exact Or.inr hid.1
    · rcases ih hrest r hr with hr | hr
      · exact Or.inl hr
      · exact Or.inr (Nat.le_trans hnext hr)

/-- **No two stand-ins share an id**, if the variables are distinct and were drawn before. -/
theorem pairwise_standIn {c : Counter} {vs : List Variable} (h : (run c vs : Scan α).fault = none)
    (hold : ∀ v ∈ vs, v.id < c.next) (hne : vs.Pairwise fun v w => v.id ≠ w.id) :
    (run c vs : Scan α).rows.Pairwise fun r s => r.standIn.id ≠ s.standIn.id := by
  induction vs generalizing c with
  | nil => exact .nil
  | cons v vs ih =>
    obtain ⟨s, hs, hrest, hrows, _⟩ := run_cons_of_fault_none h
    obtain ⟨hnext, hid⟩ := Counter.visit_standIn hs
    rw [List.forall_mem_cons] at hold
    rw [List.pairwise_cons] at hne
    have hlater : ∀ w ∈ vs, w.id < s.counter.next := fun w hw =>
      Nat.lt_of_lt_of_le (hold.2 w hw) hnext
    rw [hrows, List.pairwise_cons]
    refine ⟨fun r hr => ?_, ih hrest hlater hne.2⟩
    -- the id of `r` is that of a later variable, or was drawn after this visit
    have hdecl : r.declared ∈ vs := by
      rw [← (run_spec hrest).1]
      exact List.mem_map_of_mem hr
    have hv : v.id ≠ r.declared.id := hne.1 _ hdecl
    have hr' : r.declared.id < c.next := hold.2 _ hdecl
    rcases hid with hid | ⟨hlow, hhigh⟩
    · rw [hid]
      rcases standIn_of_mem hrest r hr with hrid | hrid
      · rw [hrid]
        exact hv
      · exact Nat.ne_of_lt (Nat.lt_of_lt_of_le hold.1 (Nat.le_trans hnext hrid))
    · rcases standIn_of_mem hrest r hr with hrid | hrid
      · rw [hrid]
        exact Nat.ne_of_gt (Nat.lt_of_lt_of_le hr' hlow)
      · exact Nat.ne_of_lt (Nat.lt_of_lt_of_le hhigh hrid)

end Scan

theorem Problem.pairwise_standIn {p : Problem α} {next next' : Ident} {e : Elimination α}
    (he : p.eliminate next = (.ok e, next')) (hold : ∀ v ∈ p.leaves, v.id < next) :
    e.inverse.rows.Pairwise fun r s => r.standIn.id ≠ s.standIn.id := by
  obtain ⟨hf, rfl, _⟩ := eliminate_eq_ok he
  refine Scan.pairwise_standIn hf (fun v hv => ?_) (Variable.pairwise_firstOfEach p.leaves)
  exact hold v (Variable.mem_of_mem_firstOfEach hv)

end ConvexProgram
