import ConvexProgram.Proofs.Elimination.CarriedBack

/-!
# Storage does not matter

A value may be given as a number, as a dense matrix of any sizes, or as a sparse one.  Evaluation
reads its entries by columns and nothing else, and so does carrying a solution back.

* `Assignment.SameEntries`     the same ids have values, and these list the same entries;
* `Fault.Alike`                two computations fail alike, or have results that are related;
* `Variable.outcome_matrix_of_sameEntries`, `Row.alike_recover`   one leaf and one row;
* `storage_irrelevant`         expressions, constraints and problems, and solutions carried back.
-/

namespace ConvexProgram

open Fault

/-! ## Computations that are alike -/

namespace Fault

variable {β γ δ ε : Type} {R : β → γ → Prop} {S : δ → ε → Prop}

/-- Both fail with a fault of one kind, or both have results, which are related. -/
inductive Alike (R : β → γ → Prop) : Except Fault β → Except Fault γ → Prop where
  | ok {b : β} {c : γ} (h : R b c) : Alike R (.ok b) (.ok c)
  | error {f g : Fault} (h : f.kind = g.kind) : Alike R (.error f) (.error g)

namespace Alike

variable {x : Except Fault β} {y : Except Fault γ}

theorem bind {f : β → Except Fault δ} {g : γ → Except Fault ε} (h : Alike R x y)
    (hfg : ∀ b c, R b c → Alike S (f b) (g c)) : Alike S (x.bind f) (y.bind g) := by
  cases h with
  | ok h => exact hfg _ _ h
  | error h => exact .error h

theorem exists_ok_iff (h : Alike R x y) : (∃ b, x = .ok b) ↔ ∃ c, y = .ok c := by
  cases h with
  | ok _ => exact ⟨fun _ => ⟨_, rfl⟩, fun _ => ⟨_, rfl⟩⟩
  | error _ => exact ⟨fun ⟨_, hb⟩ => (nomatch hb), fun ⟨_, hc⟩ => (nomatch hc)⟩

theorem related {b : β} {c : γ} (h : Alike R x y) (hx : x = .ok b) (hy : y = .ok c) : R b c := by
  cases h with
  | ok h =>
    cases hx
    cases hy
    exact h
  | error _ => cases hx

end Alike
end Fault

variable {α : Type} [Scalar α]

/-! ## Values that list the same entries -/

/-- Both list the same entries by columns, whatever their form and their sizes. -/
def Value.SameEntries (c d : Value α) : Prop := c.toMatrix.entries = d.toMatrix.entries

theorem Value.SameEntries.size_eq {c d : Value α} (h : c.SameEntries d) : c.size = d.size := by
  rw [← c.size_toMatrix, ← d.size_toMatrix, ← Matrix.size_entries, ← Matrix.size_entries, h]

/-- The same ids have values, and these list the same entries. -/
def Assignment.SameEntries (σ τ : Assignment α) : Prop :=
  ∀ id, Option.Rel Value.SameEntries (σ id) (τ id)

/-! ## Evaluation -/

omit [Scalar α] in
theorem Matrix.withShape_congr {m n : Matrix α} (s : Shape) (h : m.entries = n.entries) :
    m.withShape s = n.withShape s := by
  unfold withShape reshape?
  rw [h]

theorem Variable.outcome_matrix_of_sameEntries {σ τ : Assignment α} (h : σ.SameEntries τ)
    (v : Variable) : outcome (v.matrix σ) = outcome (v.matrix τ) := by
  have hv := h v.id
  generalize hσ : σ v.id = x at hv
  generalize hτ : τ v.id = y at hv
  cases hv with
  | none => rw [outcome_matrix_of_none hσ, outcome_matrix_of_none hτ]
  | @some c d hcd =>
    have hsize : c.toMatrix.size = d.toMatrix.size := by
      rw [c.size_toMatrix, d.size_toMatrix, hcd.size_eq]
    by_cases hc : c.toMatrix.size = v.shape.size
    · rw [matrix_of_value hσ hc, matrix_of_value hτ (hsize.symm.trans hc),
        Matrix.withShape_congr v.shape hcd]
    · rw [outcome_matrix_of_size_ne hσ hc, outcome_matrix_of_size_ne hτ (hsize ▸ hc)]

/-! ## Assignments that the leaves do not tell apart -/

section
variable {σ τ : Assignment α}

theorem Expr.outcome_value_of_leaves {e : Expr α}
    (h : ∀ v ∈ e.leaves, outcome (v.matrix σ) = outcome (v.matrix τ)) :
    outcome (e.value σ) = outcome (e.value τ) := by
  -- trading assignments is what the substitution that replaces nothing does
  have hsame := outcome_value_subst (θ := fun _ => none) (fun v _ => shape_var v) h
  rwa [subst_eq_self fun v _ => rfl] at hsame

variable [Spectral α]

theorem Constraint.outcome_violation_of_leaves {c : Constraint α}
    (h : ∀ v ∈ c.leaves, outcome (v.matrix σ) = outcome (v.matrix τ)) :
    outcome (c.violation σ) = outcome (c.violation τ) := by
  have hsame := outcome_violation_subst (θ := fun _ => none) (fun v _ => Expr.shape_var v) h
  rwa [subst_eq_self fun v _ => rfl] at hsame

theorem Problem.outcome_worstViolation_of_leaves {cs : List (Constraint α)} {worst : α}
    (h : ∀ v ∈ cs.flatMap Constraint.leaves, outcome (v.matrix σ) = outcome (v.matrix τ)) :
    outcome (worstViolation σ worst cs) = outcome (worstViolation τ worst cs) := by
  have hself : cs.map (Constraint.subst fun _ => none) = cs :=
    List.map_id'' (fun c => Constraint.subst_eq_self fun v _ => rfl) cs
  have hsame : outcome (worstViolation σ worst (cs.map (Constraint.subst fun _ => none)))
      = outcome (worstViolation τ worst cs) :=
    outcome_worstViolation_subst (fun v _ => Expr.shape_var v) h
  rwa [hself] at hsame

end

/-! ## Solutions carried back -/

theorem Row.alike_recover {σ τ : Assignment α} (h : σ.SameEntries τ) (r : Row α) :
    Alike (Option.Rel Value.SameEntries) (r.recover σ) (r.recover τ) := by
  have hv := h r.standIn.id
  cases hsym : r.declared.isSymmetric with
  | false =>
    rw [recover_of_not_symmetric σ hsym, recover_of_not_symmetric τ hsym]
    exact .ok hv
  | true =>
    generalize hσ : σ r.standIn.id = x at hv
    generalize hτ : τ r.standIn.id = y at hv
    cases hv with
    | none =>
      rw [recover_of_none hσ, recover_of_none hτ]
      exact .ok .none
    | @some c d hcd =>
      by_cases hc : c.size = UpperTriangle.length r.declared.shape.rows
      · have hentries : c.toMatrix.entries = d.toMatrix.entries := hcd
        rw [recover_of_size hsym hσ hc, recover_of_size hsym hτ (hcd.size_eq.symm.trans hc), hentries]
        exact .ok (.some rfl)
      · rw [recover_of_value hsym hσ, recover_of_value hsym hτ, UpperTriangle.unpack_of_size_ne hc,
          UpperTriangle.unpack_of_size_ne (hcd.size_eq ▸ hc)]
        exact .error rfl

theorem Table.sameEntries_insert {t u : Table α} {c d : Value α} (id : Ident)
    (h : t.assignment.SameEntries u.assignment) (hcd : c.SameEntries d) :
    (Table.assignment (t.insert id c)).SameEntries (Table.assignment (u.insert id d)) := by
  intro i
  unfold Table.assignment
  rw [Std.ExtTreeMap.getElem?_insert, Std.ExtTreeMap.getElem?_insert]
  split
  · exact .some hcd
  · exact h i

theorem Row.alike_recoverAll {σ τ : Assignment α} (h : σ.SameEntries τ) (rs : List (Row α)) :
    Alike (fun t u : Table α => t.assignment.SameEntries u.assignment)
      (recoverAll σ rs) (recoverAll τ rs) := by
  induction rs with
  | nil => exact .ok fun id => .none
  | cons r rs ih =>
    refine (alike_recover h r).bind fun c d hcd => ih.bind fun t u htu => .ok ?_
    cases hcd with
    | none => exact htu
    | some hcd => exact Table.sameEntries_insert r.declared.id htu hcd

theorem Inverse.alike_recover (inv : Inverse α) {s s' : Solution α}
    (h : s.primal.assignment.SameEntries s'.primal.assignment) :
    Alike (fun r r' : Solution α => r.primal.assignment.SameEntries r'.primal.assignment)
      (inv.recover s) (inv.recover s') :=
  (Row.alike_recoverAll h inv.rows).bind fun _ _ htu => .ok htu

/-! ## All that reads values -/

/-- **Storage is irrelevant.**  Under values that list the same entries, whatever their forms and
sizes, expressions, constraints and problems have the same outcomes; and two solutions with such
values are carried back together or not at all, again with values that list the same entries. -/
theorem storage_irrelevant {α : Type} [Scalar α] [Spectral α] :
    (∀ σ τ : Assignment α, σ.SameEntries τ →
      (∀ e : Expr α, outcome (e.value σ) = outcome (e.value τ)) ∧
      (∀ c : Constraint α, outcome (c.violation σ) = outcome (c.violation τ)) ∧
      ∀ p : Problem α, outcome (p.maxViolation σ) = outcome (p.maxViolation τ)) ∧
    ∀ (inv : Inverse α) (s s' : Solution α),
      s.primal.assignment.SameEntries s'.primal.assignment →
      ((∃ r, inv.recover s = .ok r) ↔ ∃ r', inv.recover s' = .ok r') ∧
      ∀ r r', inv.recover s = .ok r → inv.recover s' = .ok r' →
        r.primal.assignment.SameEntries r'.primal.assignment := by
  refine ⟨fun σ τ h => ?_, fun inv s s' h => ?_⟩
  · have hleaf : ∀ v : Variable, outcome (v.matrix σ) = outcome (v.matrix τ) :=
      Variable.outcome_matrix_of_sameEntries h
    exact ⟨fun e => Expr.outcome_value_of_leaves fun v _ => hleaf v,
      fun c => Constraint.outcome_violation_of_leaves fun v _ => hleaf v,
      fun p => Problem.outcome_worstViolation_of_leaves fun v _ => hleaf v⟩
  · have halike := inv.alike_recover h
    exact ⟨halike.exists_ok_iff, fun r r' => halike.related⟩

/-- The values of `Solution.traceAbove` in other forms: the column as a sparse row, and the number as
a matrix. -/
def Solution.traceAboveRow : Solution ℚ where
  status := .optimal
  value := some 8
  primal := Table.ofPairs
    [(3, .sparse (.ofTriplets 1 3 [⟨0, 2, 3⟩, ⟨0, 0, 1⟩, ⟨0, 1, 2⟩])), (5, .dense (.single 2))]
  dual := ∅

theorem Solution.traceAbove_sameEntries :
    Solution.traceAbove.primal.assignment.SameEntries Solution.traceAboveRow.primal.assignment := by
  have hcolumn : Value.SameEntries (.ofColumn #[1, 2, 3] : Value ℚ)
      (.sparse (.ofTriplets 1 3 [⟨0, 2, 3⟩, ⟨0, 0, 1⟩, ⟨0, 1, 2⟩])) := by
    unfold Value.SameEntries
    decide +kernel
  have hnone : (Table.assignment ∅ : Assignment ℚ).SameEntries (Table.assignment ∅) := by
    intro id
    unfold Table.assignment
    rw [Std.ExtTreeMap.getElem?_empty]
    exact .none
  exact Table.sameEntries_insert 5 (Table.sameEntries_insert 3 hnone hcolumn) rfl

theorem storage_irrelevant_traceAbove : ∃ e r r', Problem.traceAbove.eliminate 3 = (.ok e, 7) ∧
    Solution.traceAbove.primal.assignment.SameEntries Solution.traceAboveRow.primal.assignment ∧
    e.problem.maxViolation Solution.traceAboveRow.primal.assignment = .ok 0 ∧
    e.inverse.recover .traceAbove = .ok r ∧ e.inverse.recover .traceAboveRow = .ok r' ∧
    r.primal.assignment.SameEntries r'.primal.assignment ∧ r'.primal.keys = [0, 1] := by
  have he : Problem.traceAbove.eliminate 3 = (.ok (Problem.traceAbove.afterScan
      (Scan.run ⟨3, []⟩ Problem.traceAbove.unknowns)), 7) := rfl
  obtain ⟨hvalues, hback⟩ := storage_irrelevant (α := ℚ)
  obtain ⟨_, _, hmax⟩ := hvalues _ _ Solution.traceAbove_sameEntries
  obtain ⟨hsome, hsame⟩ := hback (Problem.traceAbove.afterScan
    (Scan.run ⟨3, []⟩ Problem.traceAbove.unknowns)).inverse _ _ Solution.traceAbove_sameEntries
  obtain ⟨r', hr'⟩ := hsome.mp ⟨_, rfl⟩
  have hrel := hsame _ _ rfl hr'
  cases hr'
  refine ⟨_, _, _, he, Solution.traceAbove_sameEntries, eq_ok_of_outcome (hmax _).symm ?_, rfl, rfl,
    hrel, rfl⟩
  decide +kernel

end ConvexProgram
