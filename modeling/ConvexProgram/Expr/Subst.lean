import ConvexProgram.Expr.Leaves

/-!
# Substitution

Replaces variables by expressions, all at once: what is put in is not looked at again.  Every other
node keeps its atom, what it carries, and its constants' ids.  The leaves of what is put in come
where the leaf stood (`Expr.leaves_subst`).
-/

namespace ConvexProgram

/-- The expressions put in place of variables, by id; a variable without one stays. -/
abbrev Substitution (α : Type) := Ident → Option (Expr α)

namespace Expr

variable {α : Type}

mutual
def subst (θ : Substitution α) : Expr α → Expr α
  | .var v => (θ v.id).getD (.var v)
  | .const id c => .const id c
  | .unary op a => .unary op (a.subst θ)
  | .binary op a b => .binary op (a.subst θ) (b.subst θ)
  | .stack d parts => .stack d (substList θ parts)

def substList (θ : Substitution α) : List (Expr α) → List (Expr α)
  | [] => []
  | e :: es => e.subst θ :: substList θ es
end

theorem substList_eq_map (θ : Substitution α) (es : List (Expr α)) :
    substList θ es = es.map (subst θ) := by
  induction es with
  | nil => rfl
  | cons e es ih => rw [substList, ih, List.map_cons]

@[simp] theorem subst_var (θ : Substitution α) (v : Variable) :
    (Expr.var v).subst θ = (θ v.id).getD (.var v) := rfl

@[simp] theorem subst_const (θ : Substitution α) (id : Ident) (c : Value α) :
    (Expr.const id c).subst θ = .const id c := rfl

@[simp] theorem subst_unary (θ : Substitution α) (op : UnaryAtom) (a : Expr α) :
    (Expr.unary op a).subst θ = .unary op (a.subst θ) := rfl

@[simp] theorem subst_binary (θ : Substitution α) (op : BinaryAtom) (a b : Expr α) :
    (Expr.binary op a b).subst θ = .binary op (a.subst θ) (b.subst θ) := rfl

@[simp] theorem subst_stack (θ : Substitution α) (d : Direction) (parts : List (Expr α)) :
    (Expr.stack d parts).subst θ = .stack d (parts.map (subst θ)) :=
  congrArg (Expr.stack d) (substList_eq_map θ parts)

theorem leaves_subst (θ : Substitution α) (e : Expr α) :
    (e.subst θ).leaves = e.leaves.flatMap fun v => ((Expr.var v).subst θ).leaves := by
  induction e using Expr.ind with
  | var v => rw [leaves_var, List.flatMap_singleton]
  | const id c => rfl
  | unary op a ha => rw [subst_unary, leaves_unary, leaves_unary, ha]
  | binary op a b ha hb =>
    rw [subst_binary, leaves_binary, leaves_binary, List.flatMap_append, ha, hb]
  | stack d es hes =>
    rw [subst_stack, leaves_stack, leaves_stack, List.flatMap_map, List.flatMap_assoc]
    exact congrArg List.flatten (List.map_congr_left hes)

/-- Replacing every variable by itself changes nothing. -/
theorem subst_eq_self {θ : Substitution α} {e : Expr α}
    (h : ∀ v ∈ e.leaves, (Expr.var v).subst θ = .var v) : e.subst θ = e := by
  induction e using Expr.ind with
  | var v => exact h v (List.mem_singleton_self v)
  | const id c => rfl
  | unary op a ha => rw [subst_unary, ha h]
  | binary op a b ha hb =>
    rw [leaves_binary, List.forall_mem_append] at h
    rw [subst_binary, ha h.1, hb h.2]
  | stack d es hes =>
    rw [leaves_stack, List.forall_mem_flatMap] at h
    rw [subst_stack, List.map_congr_left fun e he => hes e he (h e he), List.map_id']

end Expr
end ConvexProgram
