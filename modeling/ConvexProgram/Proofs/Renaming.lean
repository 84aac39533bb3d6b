import ConvexProgram.Identifiers
import Mathlib.Logic.Basic

/-!
# Renamed ids

Ids only tell variables, constants and constraints apart, so they may be renamed throughout.

* `Expr.rename`, `Constraint.rename`, `Problem.rename`   every id replaced by its image;
* `Problem.rename_subst`   if the ids of a problem stay, what is put in for its variables is renamed
                           and nothing else;
* `Ident.shift`            the renaming that moves the ids from some id on.
-/

namespace ConvexProgram

/-- Moves the ids from `c` on so that `c` becomes `d`; the ids below `c` stay. -/
def Ident.shift (c d id : Ident) : Ident := if id < c then id else id - c + d

namespace Ident

theorem shift_of_lt {c id : Ident} (d : Ident) (h : id < c) : shift c d id = id := if_pos h

theorem shift_add (c d k : Ident) : shift c d (c + k) = d + k := by
  unfold shift
  rw [if_neg (Nat.not_lt.mpr (Nat.le_add_right c k)), Nat.add_sub_cancel_left, Nat.add_comm]

theorem shift_succ {c id : Ident} (d : Ident) (h : c ≤ id) :
    shift c d (id + 1) = shift c d id + 1 := by
  obtain ⟨k, rfl⟩ := Nat.exists_eq_add_of_le h
  rw [Nat.add_assoc, shift_add, shift_add, Nat.add_assoc]

end Ident

/-- The same variable under another id. -/
def Variable.rename (f : Ident → Ident) (v : Variable) : Variable := { v with id := f v.id }

variable {α : Type} {f : Ident → Ident}

theorem Variable.rename_eq_self {v : Variable} (h : f v.id = v.id) : v.rename f = v := by
  unfold rename
  rw [h]

namespace Expr

mutual
/-- The expression with the ids of its variables and constants renamed. -/
def rename (f : Ident → Ident) : Expr α → Expr α
  | .var v => .var (v.rename f)
  | .const id c => .const (f id) c
  | .unary op a => .unary op (a.rename f)
  | .binary op a b => .binary op (a.rename f) (b.rename f)
  | .stack d parts => .stack d (renameList f parts)

def renameList (f : Ident → Ident) : List (Expr α) → List (Expr α)
  | [] => []
  | e :: es => e.rename f :: renameList f es
end

theorem renameList_eq_map (f : Ident → Ident) (es : List (Expr α)) :
    renameList f es = es.map (rename f) := by
  induction es with
  | nil => rfl
  | cons e es ih => rw [renameList, ih, List.map_cons]

@[simp] theorem rename_var (f : Ident → Ident) (v : Variable) :
    (Expr.var v : Expr α).rename f = .var (v.rename f) := rfl

@[simp] theorem rename_const (f : Ident → Ident) (id : Ident) (c : Value α) :
    (Expr.const id c).rename f = .const (f id) c := rfl

@[simp] theorem rename_unary (f : Ident → Ident) (op : UnaryAtom) (a : Expr α) :
    (Expr.unary op a).rename f = .unary op (a.rename f) := rfl

@[simp] theorem rename_binary (f : Ident → Ident) (op : BinaryAtom) (a b : Expr α) :
    (Expr.binary op a b).rename f = .binary op (a.rename f) (b.rename f) := rfl

@[simp] theorem rename_stack (f : Ident → Ident) (d : Direction) (parts : List (Expr α)) :
    (Expr.stack d parts).rename f = .stack d (parts.map (rename f)) :=
  congrArg (Expr.stack d) (renameList_eq_map f parts)

end Expr

/-- The substitution with the ids renamed in what it puts in. -/
def Substitution.rename (f : Ident → Ident) (θ : Substitution α) : Substitution α := fun id =>
  (θ id).map (Expr.rename f)

/-- If the ids of an expression stay, only what is put in is renamed. -/
theorem Expr.rename_subst {θ : Substitution α} {e : Expr α} (hv : ∀ v ∈ e.leaves, f v.id = v.id)
    (hc : ∀ id ∈ e.constantIds, f id = id) :
    (e.subst θ).rename f = e.subst (θ.rename f) := by
  induction e using Expr.ind with
  | var v =>
    have hself : v.rename f = v := Variable.rename_eq_self (hv v (List.mem_singleton_self v))
    rw [subst_var, subst_var, Substitution.rename]
    cases θ v.id with
    | none => exact congrArg Expr.var hself
    | some a => rfl
  | const id c => exact congrArg (Expr.const · c) (hc id (List.mem_singleton_self id))
  | unary op a ih => rw [subst_unary, subst_unary, rename_unary, ih hv hc]
  | binary op a b iha ihb =>
    rw [leaves_binary, List.forall_mem_append] at hv
    rw [constantIds_binary, List.forall_mem_append] at hc
    rw [subst_binary, subst_binary, rename_binary, iha hv.1 hc.1, ihb hv.2 hc.2]
  | stack d es ih =>
    rw [leaves_stack, List.forall_mem_flatMap] at hv
    rw [constantIds_stack, List.forall_mem_flatMap] at hc
    rw [subst_stack, subst_stack, rename_stack, List.map_map]
    exact congrArg (Expr.stack d) (List.map_congr_left fun e he => ih e he (hv e he) (hc e he))

def Body.rename (f : Ident → Ident) : Body α → Body α
  | .compare r a => .compare r (a.rename f)
  | .cone bound a => .cone (bound.rename f) (a.rename f)

/-- The constraint with its own id renamed and those in its arguments. -/
def Constraint.rename (f : Ident → Ident) (c : Constraint α) : Constraint α :=
  ⟨f c.id, c.body.rename f⟩

theorem Body.rename_subst {θ : Substitution α} {b : Body α}
    (h : ∀ a ∈ b.args, (a.subst θ).rename f = a.subst (θ.rename f)) :
    (b.subst θ).rename f = b.subst (θ.rename f) := by
  cases b with
  | compare r a => exact congrArg (Body.compare r) (h a (List.mem_singleton_self a))
  | cone bound a =>
    have ha := h a (List.mem_cons_of_mem _ (List.mem_singleton_self a))
    exact congrArg₂ Body.cone (h bound List.mem_cons_self) ha

theorem Constraint.rename_subst {θ : Substitution α} {c : Constraint α} (hid : f c.id = c.id)
    (hv : ∀ v ∈ c.leaves, f v.id = v.id) (hc : ∀ id ∈ c.constantIds, f id = id) :
    (c.subst θ).rename f = c.subst (θ.rename f) := by
  have hbody : (c.body.subst θ).rename f = c.body.subst (θ.rename f) :=
    Body.rename_subst fun a ha => Expr.rename_subst
      (fun v hva => hv v (List.mem_flatMap.mpr ⟨a, ha, hva⟩))
      (fun id hida => hc id (List.mem_flatMap.mpr ⟨a, ha, hida⟩))
  exact congrArg₂ Constraint.mk hid hbody

namespace Problem

def rename (f : Ident → Ident) (p : Problem α) : Problem α where
  sense := p.sense
  objective := p.objective.rename f
  constraints := p.constraints.map (Constraint.rename f)

/-- If the ids of a problem stay, only what is put in for its variables is renamed. -/
theorem rename_subst {θ : Substitution α} {p : Problem α} (h : ∀ id ∈ p.ids, f id = id) :
    (p.subst θ).rename f = p.subst (θ.rename f) := by
  unfold ids leaves constantIds at h
  simp only [List.forall_mem_append, List.forall_mem_map, List.forall_mem_flatMap] at h
  obtain ⟨⟨⟨hobjLeaves, hleaves⟩, hobjConstants, hconstants⟩, hids⟩ := h
  have hobj := Expr.rename_subst (θ := θ) hobjLeaves hobjConstants
  have hcs : (p.constraints.map (Constraint.subst θ)).map (Constraint.rename f)
      = p.constraints.map (Constraint.subst (θ.rename f)) := by
    rw [List.map_map]
    exact List.map_congr_left fun c hc =>
      Constraint.rename_subst (hids c hc) (hleaves c hc) (hconstants c hc)
  exact congrArg₂ (Problem.mk p.sense) hobj hcs

end Problem
end ConvexProgram
