import ConvexProgram.Proofs.WellShaped

/-!
# Where evaluation breaks down

An evaluation without a result ends in a fault that says what does not fit, but for two causes,
where an operation on matrices is asked for something it does not define.

* A variable or a reshape counts entries by `Shape.size`, which takes every dim and is never below
  one, and then stores them in the rows and columns of the shape.  The two need not agree
  (`Shape.Materialises`): they do not for a dim of zero or, mostly, for a third dim.
* The diagonal of what is declared a vector is read off its first column, and after an index
  without indices there may be none.

`Expr.BreaksDown` lists these places, and `value_breaksDown_iff` says that there are no others.
`Expr.Solid` is what to ask of an expression so that it breaks down under no assignment, and
well-shaped expressions are solid.
-/

namespace ConvexProgram

open Fault

/-! ## Shapes that materialise -/

namespace Shape

/-- The rows and columns of the shape have room for exactly its entries. -/
def Materialises (s : Shape) : Prop := s.size = s.rows * s.cols

instance (s : Shape) : Decidable s.Materialises := inferInstanceAs (Decidable (_ = _))

/-- Of the shapes with at most two dims, those without a dim of zero materialise. -/
theorem materialises_iff_proper {s : Shape} (h : s.ndim ≤ 2) : s.Materialises ↔ s.Proper := by
  refine ⟨fun hs => ⟨h, ?_⟩, fun hs => hs.rows_mul_cols.symm⟩
  have hpos : 0 < s.rows * s.cols := hs ▸ s.size_pos
  obtain ⟨dims⟩ := s
  match dims, h, hpos with
  | [], _, _ => nofun
  | [n], _, hpos =>
    have hn : 0 < n := Nat.pos_of_mul_pos_right hpos
    exact List.forall_mem_singleton.mpr hn
  | [m, n], _, hpos =>
    have hm : 0 < m := Nat.pos_of_mul_pos_right hpos
    have hn : 0 < n := Nat.pos_of_mul_pos_left hpos
    exact List.forall_mem_cons.mpr ⟨hm, List.forall_mem_singleton.mpr hn⟩
  | _ :: _ :: _ :: ds, hlen, _ =>
    have hlen : ds.length + 3 ≤ 2 := hlen
    omega

end Shape

variable {α : Type}

theorem Matrix.outcome_withShape_iff {s : Shape} {m : Matrix α} (h : m.size = s.size) :
    outcome (m.withShape s) = .error .breakdown ↔ ¬s.Materialises := by
  constructor
  · intro hb hs
    obtain ⟨n, hn, _⟩ := exists_withShape (h.trans hs)
    rw [hn] at hb
    cases hb
  · intro hs
    unfold withShape
    cases hn : m.reshape? s.rows s.cols with
    | none => rfl
    | some n => exact absurd (h.symm.trans (reshape?_eq_some_iff.mp hn).1) hs

variable [Scalar α]

/-! ## Atoms -/

/-- A condition that is checked, and a fault of another kind where it fails. -/
theorem Fault.outcome_check_ne {β : Type} {p : Prop} [Decidable p] {b : β} {f : Fault}
    (hf : f.kind ≠ .breakdown) : outcome (if p then .ok b else .error f) ≠ .error .breakdown := by
  split
  · nofun
  · exact fun h => hf (Except.error.inj h)

theorem Span.outcome_select_ne (dim : Nat) (r : Option Span) :
    outcome (select dim r) ≠ .error .breakdown := by
  cases r with
  | none => nofun
  | some t => exact outcome_check_ne nofun

theorem Ranges.outcome_select_ne (ranges : Ranges) (m : Matrix α) :
    outcome (ranges.select m) ≠ .error .breakdown := by
  intro h
  rcases outcome_bind_eq_error_iff.mp h with h | ⟨rows, _, h⟩
  · exact Span.outcome_select_ne _ _ h
  · rcases outcome_bind_eq_error_iff.mp h with h | ⟨cols, _, h⟩
    · exact Span.outcome_select_ne _ _ h
    · cases h

/-- The atom breaks down on a matrix; `s` is the declared shape of the argument. -/
def UnaryAtom.BreaksDown (op : UnaryAtom) (s : Shape) (m : Matrix α) : Prop :=
  match op with
  | .reshape target => m.size = target.size ∧ ¬target.Materialises
  | .diag => s.isVector ∧ m.cols = 0
  | .neg | .abs | .sum _ | .index _ | .transpose | .trace | .norm | .sumSquares => False

theorem UnaryAtom.breaksDown_iff {op : UnaryAtom} {s : Shape} {m : Matrix α} :
    outcome (op.apply s m) = .error .breakdown ↔ op.BreaksDown s m := by
  cases op with
  | neg | abs | transpose | norm | sumSquares => exact ⟨nofun, nofun⟩
  | sum axis =>
    cases axis with
    | none => exact ⟨nofun, nofun⟩
    | some axis => exact ⟨nofun, nofun⟩
  | reshape target =>
    show outcome (if m.size = target.size then m.withShape target else _) = _ ↔ _ ∧ _
    by_cases h : m.size = target.size
    · rw [if_pos h, Matrix.outcome_withShape_iff h, and_iff_right h]
    · rw [if_neg h]
      exact ⟨nofun, fun hb => absurd hb.1 h⟩
  | index ranges => exact iff_of_false (ranges.outcome_select_ne m) not_false
  | trace =>
    have hsquare : outcome m.square ≠ .error .breakdown := outcome_check_ne nofun
    exact iff_of_false (fun h => hsquare (outcome_map_eq_error_iff.mp h)) not_false
  | diag =>
    show outcome (if s.isVector then if m.cols = 0 then _ else _ else _) = _ ↔ _ ∧ _
    by_cases hs : s.isVector
    · rw [if_pos hs, and_iff_right hs]
      by_cases hc : m.cols = 0
      · rw [if_pos hc]
        exact iff_of_true rfl hc
      · rw [if_neg hc]
        exact iff_of_false nofun hc
    · rw [if_neg hs]
      exact iff_of_false nofun fun hb => hs hb.1

theorem BinaryAtom.outcome_apply_ne (op : BinaryAtom) (s t : Shape) (a b : Matrix α) :
    outcome (op.apply s t a b) ≠ .error .breakdown := by
  have helementwise : ∀ f : α → α → α, outcome (a.elementwise f b) ≠ .error .breakdown := by
    intro f
    unfold Matrix.elementwise
    split_ifs <;> nofun
  cases op with
  | add => exact helementwise _
  | mul => exact helementwise _
  | matmul => exact outcome_check_ne nofun
  | quadForm => exact outcome_check_ne nofun

omit [Scalar α] in
theorem Matrix.outcome_checkCols_ne (cols : Nat) (ms : List (Matrix α)) :
    outcome (checkCols cols ms) ≠ .error .breakdown := by
  induction ms with
  | nil => nofun
  | cons m ms ih =>
    unfold checkCols
    split
    · exact ih
    · nofun

omit [Scalar α] in
theorem Matrix.outcome_checkRows_ne (rows : Nat) (ms : List (Matrix α)) :
    outcome (checkRows rows ms) ≠ .error .breakdown := by
  induction ms with
  | nil => nofun
  | cons m ms ih =>
    unfold checkRows
    split
    · exact ih
    · nofun

theorem Direction.outcome_apply_ne (d : Direction) (ms : List (Matrix α)) :
    outcome (d.apply ms) ≠ .error .breakdown := by
  cases ms with
  | nil => nofun
  | cons m ms =>
    cases d with
    | vertical => exact fun h => Matrix.outcome_checkCols_ne _ ms (outcome_map_eq_error_iff.mp h)
    | horizontal => exact fun h => Matrix.outcome_checkRows_ne _ ms (outcome_map_eq_error_iff.mp h)

/-! ## Expressions -/

namespace Expr

/-- The first place where evaluation comes to a stop, with everything before it evaluated, is one
where it breaks down. -/
inductive BreaksDown (σ : Assignment α) : Expr α → Prop
  | leaf {v : Variable} {c : Value α} (hc : σ v.id = some c) (hsize : c.size = v.shape.size)
      (hs : ¬v.shape.Materialises) : BreaksDown σ (.var v)
  | atom {op : UnaryAtom} {a : Expr α} {m : Matrix α} (hm : a.matrix σ = .ok m)
      (hop : op.BreaksDown a.shape m) : BreaksDown σ (.unary op a)
  | arg {op : UnaryAtom} {a : Expr α} (ha : BreaksDown σ a) : BreaksDown σ (.unary op a)
  | left {op : BinaryAtom} {a b : Expr α} (ha : BreaksDown σ a) : BreaksDown σ (.binary op a b)
  | right {op : BinaryAtom} {a b : Expr α} {m : Matrix α} (hm : a.matrix σ = .ok m)
      (hb : BreaksDown σ b) : BreaksDown σ (.binary op a b)
  | part {d : Direction} {before after : List (Expr α)} {e : Expr α} {ms : List (Matrix α)}
      (hms : matrices σ before = .ok ms) (he : BreaksDown σ e) :
      BreaksDown σ (.stack d (before ++ e :: after))

variable {σ : Assignment α}

/-- The parts of a stack fail as the first of them that fails. -/
theorem outcome_matrices_eq_error_iff {k : Kind} {es : List (Expr α)} :
    outcome (matrices σ es) = .error k ↔ ∃ before e after ms, es = before ++ e :: after ∧
      matrices σ before = .ok ms ∧ outcome (e.matrix σ) = .error k := by
  induction es with
  | nil =>
    refine iff_of_false nofun ?_
    rintro ⟨before, e, after, ms, h, _⟩
    cases before with
    | nil => cases h
    | cons _ _ => cases h
  | cons e es ih =>
    rw [matrices_cons, outcome_bind_eq_error_iff]
    constructor
    · rintro (he | ⟨m, hm, h⟩)
      · exact ⟨[], e, es, [], rfl, rfl, he⟩
      · rcases outcome_bind_eq_error_iff.mp h with h | ⟨_, _, h⟩
        · obtain ⟨before, e', after, ms, rfl, hms, he'⟩ := ih.mp h
          refine ⟨e :: before, e', after, m :: ms, rfl, ?_, he'⟩
          rw [matrices_cons, hm, hms]
          rfl
        · cases h
    · rintro ⟨before, e', after, ms, heq, hms, he'⟩
      cases before with
      | nil =>
        obtain ⟨rfl, rfl⟩ := List.cons_eq_cons.mp heq
        exact Or.inl he'
      | cons e₁ before =>
        obtain ⟨rfl, rfl⟩ := List.cons_eq_cons.mp heq
        rw [matrices_cons] at hms
        obtain ⟨m, hm, hms⟩ := bind_eq_ok_iff.mp hms
        obtain ⟨ms', hms', _⟩ := bind_eq_ok_iff.mp hms
        have hes := ih.mpr ⟨before, e', after, ms', rfl, hms', he'⟩
        exact Or.inr ⟨m, hm, outcome_bind_eq_error_iff.mpr (Or.inl hes)⟩

theorem breaksDown_var {v : Variable} :
    outcome (v.matrix σ) = .error .breakdown ↔ (Expr.var v : Expr α).BreaksDown σ := by
  constructor
  · intro h
    cases hc : σ v.id with
    | none =>
      rw [Variable.outcome_matrix_of_none hc] at h
      cases h
    | some c =>
      by_cases hsize : c.toMatrix.size = v.shape.size
      · rw [Variable.matrix_of_value hc hsize, Matrix.outcome_withShape_iff hsize] at h
        exact .leaf hc (c.size_toMatrix.symm.trans hsize) h
      · rw [Variable.outcome_matrix_of_size_ne hc hsize] at h
        cases h
  · rintro (⟨hc, hsize, hs⟩)
    rw [← Value.size_toMatrix] at hsize
    rw [Variable.matrix_of_value hc hsize]
    exact (Matrix.outcome_withShape_iff hsize).mpr hs

theorem outcome_matrix_breakdown_iff {e : Expr α} :
    outcome (e.matrix σ) = .error .breakdown ↔ e.BreaksDown σ := by
  induction e using Expr.ind with
  | var v => exact breaksDown_var
  | const id c => exact ⟨nofun, nofun⟩
  | unary op a ih =>
    rw [matrix_unary, outcome_bind_eq_error_iff, ih]
    constructor
    · rintro (ha | ⟨m, hm, hop⟩)
      · exact .arg ha
      · exact .atom hm (UnaryAtom.breaksDown_iff.mp hop)
    · rintro (_ | ⟨hm, hop⟩ | ha)
      · exact Or.inr ⟨_, hm, UnaryAtom.breaksDown_iff.mpr hop⟩
      · exact Or.inl ha
  | binary op a b iha ihb =>
    rw [matrix_binary, outcome_bind_eq_error_iff, iha]
    constructor
    · rintro (ha | ⟨m, hm, h⟩)
      · exact .left ha
      · rcases outcome_bind_eq_error_iff.mp h with hb | ⟨n, _, hop⟩
        · exact .right hm (ihb.mp hb)
        · exact absurd hop (op.outcome_apply_ne _ _ m n)
    · rintro (_ | _ | _ | ha | ⟨hm, hb⟩)
      · exact Or.inl ha
      · exact Or.inr ⟨_, hm, outcome_bind_eq_error_iff.mpr (Or.inl (ihb.mpr hb))⟩
  | stack d es ih =>
    rw [matrix_stack, outcome_bind_eq_error_iff]
    constructor
    · rintro (h | ⟨ms, _, h⟩)
      · obtain ⟨before, e, after, ms, rfl, hms, he⟩ := outcome_matrices_eq_error_iff.mp h
        have hmem : e ∈ before ++ e :: after := List.mem_append_right _ List.mem_cons_self
        exact .part hms ((ih e hmem).mp he)
      · exact absurd h (d.outcome_apply_ne ms)
    · intro h
      cases h with
      | part hms he =>
        have hfault := (ih _ (List.mem_append_right _ List.mem_cons_self)).mpr he
        exact Or.inl (outcome_matrices_eq_error_iff.mpr ⟨_, _, _, _, rfl, hms, hfault⟩)

end Expr

/-! ## Expressions that never break down -/

section
omit [Scalar α]

/-- An atom that leaves an entry of any matrix that has one. -/
def UnaryAtom.Solid : UnaryAtom → Prop
  | .reshape target => target.Materialises
  | .index ranges => ∀ t, some t ∈ ranges → t.start ≠ t.stop
  | .neg | .abs | .sum _ | .transpose | .trace | .diag | .norm | .sumSquares => True

/-- Every declared shape materialises, every constant has an entry, and every span an index. -/
inductive Expr.Solid : Expr α → Prop
  | var {v : Variable} (hv : v.shape.Materialises) : Solid (.var v)
  | const {id : Ident} {c : Value α} (hc : 0 < c.size) : Solid (.const id c)
  | unary {op : UnaryAtom} {a : Expr α} (hop : op.Solid) (ha : Solid a) : Solid (.unary op a)
  | binary {op : BinaryAtom} {a b : Expr α} (ha : Solid a) (hb : Solid b) : Solid (.binary op a b)
  | stack {d : Direction} {parts : List (Expr α)} (hparts : ∀ e ∈ parts, Solid e) :
      Solid (.stack d parts)

theorem Value.size_pos {c : Value α} (h : c.shape.Proper) : 0 < c.size := by
  cases c with
  | scalar x => exact Nat.one_pos
  | dense m => exact Nat.mul_pos h.rows_pos h.cols_pos
  | sparse s => exact Nat.mul_pos h.rows_pos h.cols_pos

theorem UnaryAtom.Accepts.solid {op : UnaryAtom} {s : Shape} (h : op.Accepts s) : op.Solid := by
  cases op with
  | reshape target => exact h.1.rows_mul_cols.symm
  | index ranges =>
    have hne : ∀ {t : Span} {n : Nat}, t.Within n → t.start ≠ t.stop := fun ht => Nat.ne_of_lt ht.1
    obtain ⟨n, r, _, rfl, hr⟩ | ⟨m, n, r, c, _, rfl, hr, hc, _⟩ := Ranges.accepts_cases h
    · intro t ht
      exact hne (hr t (List.mem_singleton.mp ht).symm)
    · intro t ht
      rcases List.mem_cons.mp ht with ht | ht
      · exact hne (hr t ht.symm)
      · exact hne (hc t (List.mem_singleton.mp ht).symm)
  | neg | abs | sum _ | transpose | trace | diag | norm | sumSquares => trivial

/-- Well-shaped expressions are solid. -/
theorem Expr.WellShaped.solid {e : Expr α} (h : e.WellShaped) : e.Solid := by
  induction e using Expr.ind with
  | var v =>
    have hproper : v.shape.Proper := h
    exact .var hproper.rows_mul_cols.symm
  | const id c => exact .const (Value.size_pos h)
  | unary op a ih =>
    obtain ⟨ha, hop⟩ := wellShaped_unary.mp h
    exact .unary hop.solid (ih ha)
  | binary op a b iha ihb =>
    obtain ⟨ha, hb, _⟩ := wellShaped_binary.mp h
    exact .binary (iha ha) (ihb hb)
  | stack d es ih =>
    obtain ⟨hes, _⟩ := wellShaped_stack.mp h
    exact .stack fun e he => ih e he (hes e he)

end

theorem Span.count_pos_of_select {dim : Nat} {r : Option Span} {sel : Selection} (hdim : 0 < dim)
    (hr : ∀ t, r = some t → t.start ≠ t.stop) (h : select dim r = .ok sel) : 0 < sel.count := by
  cases r with
  | none =>
    obtain rfl : Selection.whole dim = sel := Except.ok.inj h
    exact hdim
  | some t =>
    obtain ⟨⟨hle, hstop, hstep⟩, rfl⟩ := select_some_eq_ok_iff.mp h
    have hne : t.start ≠ t.stop := hr t rfl
    have hwithin : t.Within dim := ⟨by omega, hstop, by omega⟩
    exact count_pos hwithin

theorem Ranges.exists_of_select {ranges : Ranges} {m n : Matrix α} (h : ranges.select m = .ok n) :
    ∃ rows cols, n = m.select rows cols ∧ Span.select m.rows (ranges[0]?.getD none) = .ok rows ∧
      Span.select m.cols (ranges[1]?.getD none) = .ok cols := by
  obtain ⟨rows, hrows, h⟩ := bind_eq_ok_iff.mp h
  obtain ⟨cols, hcols, h⟩ := bind_eq_ok_iff.mp h
  exact ⟨rows, cols, (Except.ok.inj h).symm, hrows, hcols⟩

theorem UnaryAtom.Solid.size_pos {op : UnaryAtom} {s : Shape} {m n : Matrix α} (h : op.Solid)
    (hm : 0 < m.size) (hn : op.apply s m = .ok n) : 0 < n.size := by
  have hrows : 0 < m.rows := Nat.pos_of_mul_pos_right hm
  have hcols : 0 < m.cols := Nat.pos_of_mul_pos_left hm
  cases op with
  | neg => exact Except.ok.inj hn ▸ hm
  | abs => exact Except.ok.inj hn ▸ hm
  | sum axis =>
    cases axis with
    | none => exact Except.ok.inj hn ▸ Nat.one_pos
    | some axis =>
      obtain rfl := Except.ok.inj hn
      split
      · exact Nat.one_pos
      · split
        · exact Nat.mul_pos hcols Nat.one_pos
        · exact Nat.mul_pos hrows Nat.one_pos
  | reshape target =>
    have hn : (if m.size = target.size then m.withShape target
      else .error (.reshapeSize target m.extent)) = .ok n := hn
    split at hn
    · rwa [← n.size_entries, Matrix.entries_of_withShape hn, m.size_entries]
    · cases hn
  | index ranges =>
    have hspan : ∀ (k : Nat) (t : Span), ranges[k]?.getD none = some t → t.start ≠ t.stop := by
      intro k t ht
      cases hk : ranges[k]? with
      | none =>
        rw [hk] at ht
        cases ht
      | some r =>
        rw [hk] at ht
        obtain rfl : r = some t := ht
        exact h t (List.mem_of_getElem? hk)
    obtain ⟨rows, cols, rfl, hr, hc⟩ := Ranges.exists_of_select hn
    exact Nat.mul_pos (Span.count_pos_of_select hrows (hspan 0) hr)
      (Span.count_pos_of_select hcols (hspan 1) hc)
  | transpose => exact Except.ok.inj hn ▸ Nat.mul_pos hcols hrows
  | trace =>
    obtain ⟨k, _, rfl⟩ := map_eq_ok_iff.mp hn
    exact Nat.one_pos
  | diag =>
    have hn : (if s.isVector then if m.cols = 0 then .error .noColumn else .ok m.ofDiagonal
      else .ok m.diagonal : Except Fault (Matrix α)) = .ok n := hn
    rw [if_neg hcols.ne'] at hn
    split at hn
    · exact Except.ok.inj hn ▸ Nat.mul_pos hrows hrows
    · exact Except.ok.inj hn ▸ Nat.mul_pos (Nat.lt_min.mpr ⟨hrows, hcols⟩) Nat.one_pos
  | norm => exact Except.ok.inj hn ▸ Nat.one_pos
  | sumSquares => exact Except.ok.inj hn ▸ Nat.one_pos

theorem BinaryAtom.size_pos {op : BinaryAtom} {s t : Shape} {a b n : Matrix α} (ha : 0 < a.size)
    (hb : 0 < b.size) (hn : op.apply s t a b = .ok n) : 0 < n.size := by
  have helementwise : ∀ f : α → α → α, a.elementwise f b = .ok n → 0 < n.size := by
    intro f hf
    unfold Matrix.elementwise at hf
    split_ifs at hf
    · exact Except.ok.inj hf ▸ ha
    · exact Except.ok.inj hf ▸ ha
    · exact Except.ok.inj hf ▸ hb
  cases op with
  | add => exact helementwise _ hn
  | mul => exact helementwise _ hn
  | matmul =>
    have hcols : 0 < b.cols := Nat.pos_of_mul_pos_left hb
    have hleft : 0 < (if s.isVector then a.transpose else a).rows := by
      split
      · exact Nat.pos_of_mul_pos_left ha
      · exact Nat.pos_of_mul_pos_right ha
    have hn : Matrix.product s t a b = .ok n := hn
    unfold Matrix.product at hn
    dsimp only at hn
    generalize (if s.isVector then a.transpose else a) = left at hn hleft
    split_ifs at hn
    · exact Except.ok.inj hn ▸ Nat.mul_pos hcols hleft
    · exact Except.ok.inj hn ▸ Nat.mul_pos hleft hcols
  | quadForm =>
    have hn : a.quadForm b = .ok n := hn
    unfold Matrix.quadForm at hn
    split_ifs at hn
    exact Except.ok.inj hn ▸ Nat.one_pos

theorem Direction.size_pos {d : Direction} {ms : List (Matrix α)} {n : Matrix α}
    (hms : ∀ m ∈ ms, 0 < m.size) (hn : d.apply ms = .ok n) : 0 < n.size := by
  cases ms with
  | nil => exact Except.ok.inj hn ▸ Nat.one_pos
  | cons m ms =>
    have hm : 0 < m.size := hms m List.mem_cons_self
    have hrows : 0 < m.rows := Nat.pos_of_mul_pos_right hm
    have hcols : 0 < m.cols := Nat.pos_of_mul_pos_left hm
    cases d with
    | vertical =>
      obtain ⟨_, _, rfl⟩ := map_eq_ok_iff.mp hn
      exact Nat.mul_pos (Nat.add_pos_left hrows _) hcols
    | horizontal =>
      obtain ⟨_, _, rfl⟩ := map_eq_ok_iff.mp hn
      exact Nat.mul_pos hrows (Nat.add_pos_left hcols _)

namespace Expr

variable {σ : Assignment α}

theorem forall_mem_of_matrices {P : Matrix α → Prop} {es : List (Expr α)} {ms : List (Matrix α)}
    (h : ∀ e ∈ es, ∀ m, e.matrix σ = .ok m → P m) (hms : matrices σ es = .ok ms) :
    ∀ m ∈ ms, P m := by
  induction es generalizing ms with
  | nil =>
    obtain rfl : [] = ms := Except.ok.inj hms
    nofun
  | cons e es ih =>
    obtain ⟨he, hes⟩ := List.forall_mem_cons.mp h
    rw [matrices_cons] at hms
    obtain ⟨m, hm, hms⟩ := bind_eq_ok_iff.mp hms
    obtain ⟨ms', hms', hms⟩ := bind_eq_ok_iff.mp hms
    obtain rfl : m :: ms' = ms := Except.ok.inj hms
    exact List.forall_mem_cons.mpr ⟨he m hm, ih hes hms'⟩

/-- A solid expression evaluates to no matrix without entries. -/
theorem Solid.size_pos {e : Expr α} {m : Matrix α} (h : e.Solid) (hm : e.matrix σ = .ok m) :
    0 < m.size := by
  induction h generalizing m with
  | @var v _ =>
    obtain ⟨c, _, hsize, hentries⟩ := Variable.exists_of_matrix_eq_ok hm
    rw [← m.size_entries, ← hentries, Matrix.size_entries, hsize]
    exact v.shape.size_pos
  | @const id c hc =>
    obtain rfl : c.toMatrix = m := Except.ok.inj hm
    rwa [Value.size_toMatrix]
  | unary hop _ ih =>
    obtain ⟨k, hk, hm⟩ := bind_eq_ok_iff.mp hm
    exact hop.size_pos (ih hk) hm
  | binary _ _ iha ihb =>
    obtain ⟨k, hk, hm⟩ := bind_eq_ok_iff.mp hm
    obtain ⟨l, hl, hm⟩ := bind_eq_ok_iff.mp hm
    exact BinaryAtom.size_pos (iha hk) (ihb hl) hm
  | stack _ ih =>
    obtain ⟨ms, hms, hm⟩ := bind_eq_ok_iff.mp hm
    exact Direction.size_pos (forall_mem_of_matrices (fun e he k hk => ih e he hk) hms) hm

theorem Solid.not_breaksDown {e : Expr α} (h : e.Solid) : ¬e.BreaksDown σ := by
  intro hb
  induction hb with
  | leaf _ _ hs =>
    cases h with
    | var hv => exact hs hv
  | @atom op a m hm hop =>
    cases h with
    | unary hsolid ha =>
      cases op with
      | reshape target => exact hop.2 hsolid
      | diag =>
        have hcols : 0 < m.cols := Nat.pos_of_mul_pos_left (ha.size_pos hm)
        exact hcols.ne' hop.2
      | neg | abs | sum | index | transpose | trace | norm | sumSquares => exact hop
  | arg _ ih =>
    cases h with
    | unary _ ha => exact ih ha
  | left _ ih =>
    cases h with
    | binary ha _ => exact ih ha
  | right _ _ ih =>
    cases h with
    | binary _ hb => exact ih hb
  | part _ _ ih =>
    cases h with
    | stack hparts => exact ih (hparts _ (List.mem_append_right _ List.mem_cons_self))

/-- Whether a variable breaks down under some value is a matter of its shape. -/
theorem exists_breaksDown_iff {v : Variable} :
    (∃ σ : Assignment α, (Expr.var v).BreaksDown σ) ↔ ¬v.shape.Materialises := by
  constructor
  · rintro ⟨σ, ⟨_, _, hs⟩⟩
    exact hs
  · intro hs
    have hsize : (Value.dense (.filled v.shape.size 1 (0 : α))).size = v.shape.size :=
      Nat.mul_one v.shape.size
    exact ⟨fun _ => some (.dense (.filled v.shape.size 1 0)), .leaf rfl hsize hs⟩

/-- What is read off an index lies in the matrix of its argument. -/
theorem exists_of_matrix_index {a : Expr α} {ranges : Ranges} {n : Matrix α}
    (h : (a.index ranges).matrix σ = .ok n) :
    ∃ m rows cols, a.matrix σ = .ok m ∧ n = m.select rows cols ∧
      (∀ i < n.rows, rows.nth i < m.rows) ∧ ∀ j < n.cols, cols.nth j < m.cols := by
  obtain ⟨m, hm, h⟩ := bind_eq_ok_iff.mp h
  obtain ⟨rows, cols, rfl, hr, hc⟩ := Ranges.exists_of_select h
  exact ⟨m, rows, cols, hm, rfl, fun _ => Span.nth_lt_of_select hr, fun _ => Span.nth_lt_of_select hc⟩

end Expr

/-! ## Evaluation -/

/-- **Where evaluation breaks down.**  It does just where an expression has a shape that does not
materialise or a diagonal without a first column (`Expr.BreaksDown`); in every other case there is a
result or a fault that says what does not fit.  A solid expression never breaks down, and no index
reads an entry outside its argument. -/
theorem value_breaksDown_iff {α : Type} [Scalar α] (e : Expr α) (σ : Assignment α) :
    (outcome (e.value σ) = .error .breakdown ↔ e.BreaksDown σ) ∧
    (e.Solid → ¬e.BreaksDown σ) ∧
    ∀ (a : Expr α) (ranges : Ranges) (n : Matrix α), e = a.index ranges → e.matrix σ = .ok n →
      ∃ m rows cols, a.matrix σ = .ok m ∧ n = m.select rows cols ∧
        (∀ i < n.rows, rows.nth i < m.rows) ∧ ∀ j < n.cols, cols.nth j < m.cols := by
  refine ⟨?_, fun h => h.not_breaksDown, ?_⟩
  · rw [← Expr.outcome_matrix_breakdown_iff]
    constructor
    · intro h
      rcases outcome_bind_eq_error_iff.mp h with h | ⟨_, _, h⟩
      · exact h
      · cases h
    · exact outcome_bind_of_error _
  · rintro a ranges n rfl h
    exact Expr.exists_of_matrix_index h

/-- A vector without entries takes a value of one entry, and an index that leaves no column of a
matrix still declares a vector. -/
theorem breaksDown_of_emptyDims :
    outcome ((Expr.var ⟨0, .vector 0, none, {}⟩ : Expr ℚ).value fun _ => some (.ofColumn #[1])) =
      .error .breakdown ∧
    outcome (((Expr.eye 3 0).1.index [none, some (.range 0 0)] : Expr ℚ).diag.value fun _ => none) =
      .error .breakdown :=
  ⟨rfl, rfl⟩

end ConvexProgram
