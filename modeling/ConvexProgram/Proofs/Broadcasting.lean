import ConvexProgram.Proofs.Elementwise

/-!
# Broadcasting as a partial join

Two dims have a common one if they are equal or one of them is one, and two shapes if their dims
have, aligned at the last one.  Both operations are partial, and both are joins: commutative,
idempotent, and associative even where one side is not defined.

* `PartialJoin`                    these laws, and the order that comes with them;
* `PartialJoin.least`              what two elements are both below is above their join, which is
                                   defined then;
* `Shape.commonDim?_assoc`, `Shape.commonDims?_assoc`, `Shape.broadcast_assoc`   dims, lists of dims
                                   and shapes;
* `broadcast_laws`                 the laws of shapes, with scalars as unit and the number of dims.
-/

namespace ConvexProgram

/-! ## Partial joins -/

/-- A partial operation that is commutative, idempotent and associative; where it is not defined on
one side of a law, it is not on the other.  An element is below another one if this is their join. -/
structure PartialJoin {A : Type} (join : A → A → Option A) : Prop where
  comm : ∀ a b, join a b = join b a
  self : ∀ a, join a a = some a
  assoc : ∀ a b c, (join a b).bind (fun s => join s c) = (join b c).bind (join a)

namespace PartialJoin

variable {A : Type} {join : A → A → Option A} {a b d s : A}

theorem left_below (h : PartialJoin join) (hs : join a b = some s) : join a s = some s := by
  have hassoc : (some a).bind (fun t => join t b) = (some s).bind (join a) := by
    rw [← h.self a, ← hs]
    exact h.assoc a a b
  exact hassoc.symm.trans hs

theorem right_below (h : PartialJoin join) (hs : join a b = some s) : join b s = some s :=
  h.left_below ((h.comm b a).trans hs)

/-- Two elements below a third one have a join, and this is below it as well. -/
theorem least (h : PartialJoin join) (ha : join a d = some d) (hb : join b d = some d) :
    ∃ s, join a b = some s ∧ join s d = some d := by
  have hassoc := h.assoc a b d
  rw [hb, Option.bind_some, ha] at hassoc
  exact Option.bind_eq_some_iff.mp hassoc

end PartialJoin

namespace Shape

/-! ## One dim -/

theorem one_commonDim? (d : Nat) : commonDim? 1 d = some d := by
  rw [commonDim?_comm, commonDim?_one]

/-- Dims other than one only agree with themselves. -/
theorem commonDim?_of_ne_one {c d : Nat} (hc : c ≠ 1) (hd : d ≠ 1) :
    commonDim? c d = if c = d then some c else none := by
  unfold commonDim?
  rw [if_neg hc]
  simp only [hd, or_false]

theorem commonDim?_assoc (a b c : Nat) :
    (commonDim? a b).bind (fun d => commonDim? d c) = (commonDim? b c).bind (commonDim? a) := by
  by_cases hb : b = 1
  · rw [hb, commonDim?_one, one_commonDim?]
    rfl
  by_cases ha : a = 1
  · rw [ha, one_commonDim?, funext one_commonDim?, Option.bind_some, Option.bind_fun_some]
  by_cases hc : c = 1
  · rw [hc, commonDim?_one, funext commonDim?_one, Option.bind_some, Option.bind_fun_some]
  -- three dims that are not one have a common one if they are all equal
  rw [commonDim?_of_ne_one ha hb, commonDim?_of_ne_one hb hc]
  by_cases hab : a = b
  · subst hab
    rw [if_pos rfl, Option.bind_some, commonDim?_of_ne_one ha hc]
    by_cases hac : a = c
    · rw [if_pos hac, Option.bind_some, commonDim?_of_ne_one ha ha, if_pos rfl]
    · rw [if_neg hac, Option.bind_none]
  · rw [if_neg hab, Option.bind_none]
    by_cases hbc : b = c
    · rw [if_pos hbc, Option.bind_some, commonDim?_of_ne_one ha hb, if_neg hab]
    · rw [if_neg hbc, Option.bind_none]

/-! ## Lists of dims -/

/-- A head and a tail that are computed apart, and then passed on apart. -/
theorem bind_head_tail {A : Type} {f : A → Option A} {g h : List A → Option (List A)}
    (hh : ∀ d ds, h (d :: ds) = (f d).bind fun e => (g ds).map (e :: ·)) (o : Option A)
    (os : Option (List A)) :
    (o.bind fun d => os.map (d :: ·)).bind h = (o.bind f).bind fun e => (os.bind g).map (e :: ·) := by
  cases o with
  | none => rfl
  | some d =>
    cases os with
    | none => exact (Option.bind_fun_none (f d)).symm
    | some ds => exact hh d ds

theorem commonDims?_assoc (as bs cs : List Nat) :
    (commonDims? as bs).bind (fun ds => commonDims? ds cs)
      = (commonDims? bs cs).bind (commonDims? as) := by
  induction as generalizing bs cs with
  | nil => exact (Option.bind_fun_some _).symm
  | cons a as ih =>
    cases bs with
    | nil => rfl
    | cons b bs =>
      cases cs with
      | nil => simp only [commonDims?_nil, Option.bind_fun_some, Option.bind_some]
      | cons c cs =>
        rw [commonDims?, commonDims?, bind_head_tail fun _ _ => rfl, bind_head_tail fun _ _ => rfl,
          commonDim?_assoc, ih]

/-- Missing dims count as one, so the longer list gives the length. -/
theorem length_commonDims? {as bs ds : List Nat} (h : commonDims? as bs = some ds) :
    ds.length = max as.length bs.length := by
  induction as generalizing bs ds with
  | nil =>
    cases h
    exact (Nat.zero_max _).symm
  | cons a as ih =>
    cases bs with
    | nil =>
      cases h
      exact (Nat.max_zero _).symm
    | cons b bs =>
      obtain ⟨c, _, h⟩ := Option.bind_eq_some_iff.mp h
      obtain ⟨cs, hcs, rfl⟩ := Option.map_eq_some_iff.mp h
      rw [List.length_cons, List.length_cons, List.length_cons, ih hcs, Nat.succ_max_succ]

/-! ## Shapes -/

theorem broadcast_assoc (s t u : Shape) :
    (s.broadcast t).bind (fun v => v.broadcast u) = (t.broadcast u).bind s.broadcast := by
  have hdims := congrArg (Option.map fun dims => (⟨dims.reverse⟩ : Shape))
    (commonDims?_assoc s.dims.reverse t.dims.reverse u.dims.reverse)
  rw [Option.map_bind, Option.map_bind] at hdims
  unfold broadcast
  -- what is broadcast first is turned round again, so that both steps work on reversed dims
  simp only [Option.bind_map, Function.comp_def, List.reverse_reverse]
  exact hdims

theorem partialJoin_broadcast : PartialJoin broadcast where
  comm := broadcast_comm
  self := broadcast_self
  assoc := broadcast_assoc

theorem ndim_broadcast {s t u : Shape} (h : s.broadcast t = some u) :
    u.ndim = max s.ndim t.ndim := by
  obtain ⟨ds, hds, rfl⟩ := Option.map_eq_some_iff.mp h
  have hlength := length_commonDims? hds
  rw [List.length_reverse, List.length_reverse] at hlength
  exact List.length_reverse.trans hlength

end Shape

/-- **Broadcasting is a partial commutative idempotent monoid**, with scalars as the unit.  The shape
of two operands has as many dims as the longer one, and is the least to which both broadcast: it is
defined if there is one at all. -/
theorem broadcast_laws :
    (∀ s t : Shape, s.broadcast t = t.broadcast s) ∧
    (∀ s : Shape, s.broadcast s = some s) ∧
    (∀ s : Shape, s.broadcast .scalar = some s ∧ Shape.scalar.broadcast s = some s) ∧
    (∀ s t u : Shape,
      (s.broadcast t).bind (fun v => v.broadcast u) = (t.broadcast u).bind s.broadcast) ∧
    (∀ s t u : Shape, s.broadcast t = some u →
      u.ndim = max s.ndim t.ndim ∧ s.broadcast u = some u ∧ t.broadcast u = some u) ∧
    ∀ s t u : Shape, s.broadcast u = some u → t.broadcast u = some u →
      ∃ v, s.broadcast t = some v ∧ v.broadcast u = some u := by
  have hjoin := Shape.partialJoin_broadcast
  refine ⟨hjoin.comm, hjoin.self, fun s => ⟨s.broadcast_scalar, s.scalar_broadcast⟩, hjoin.assoc,
    fun s t u h => ⟨Shape.ndim_broadcast h, hjoin.left_below h, hjoin.right_below h⟩,
    fun s t u => hjoin.least⟩

/-- A column without entries and a vector of four both broadcast to a shape of three dims, and their
own shape is below that one. -/
theorem broadcast_laws_empty :
    (Shape.matrix 0 1).broadcast (.vector 4) = some (.matrix 0 4) ∧
    (Shape.matrix 0 1).broadcast ⟨[2, 0, 4]⟩ = some ⟨[2, 0, 4]⟩ ∧
    (Shape.vector 4).broadcast ⟨[2, 0, 4]⟩ = some ⟨[2, 0, 4]⟩ ∧
    (Shape.matrix 0 4).ndim = max (Shape.matrix 0 1).ndim (Shape.vector 4).ndim ∧
    (Shape.matrix 0 4).broadcast ⟨[2, 0, 4]⟩ = some ⟨[2, 0, 4]⟩ := by
  obtain ⟨_, _, _, _, hjoin, hleast⟩ := broadcast_laws
  have hsame : (Shape.matrix 0 1).broadcast (.vector 4) = some (.matrix 0 4) := rfl
  obtain ⟨v, hv, hbelow⟩ := hleast (.matrix 0 1) (.vector 4) ⟨[2, 0, 4]⟩ rfl rfl
  cases hv.symm.trans hsame
  exact ⟨hsame, rfl, rfl, (hjoin _ _ _ hsame).1, hbelow⟩

end ConvexProgram
