import ConvexProgram.Problem
import ConvexProgram.UpperTriangle

/-!
# The scan of an elimination

Goes through variables in order and finds for each the variable that stands in for it and the
expression that takes its place.

* A symmetric variable becomes its packed upper triangle under a constant fill matrix, which needs
  no constraint; its other attributes are dropped.
* A variable with a sign or a semidefinite attribute becomes a plain one of the same shape, and one
  constraint says of it what the attribute said.
* Any other variable stands for itself.

Ids are drawn on the way: for each variable that of its stand-in, then that of the fill matrix if
its size is new, then that of its constraint.

* `Attributes.relation?`   the comparison that stands for the attributes;
* `Row`                    a variable, its stand-in, and the expression in its place;
* `Counter.visit`          one variable;
* `Scan.run`               all variables up to the first fault, with the ids drawn so far.
-/

namespace ConvexProgram

/-- The comparison with zero for a variable with these attributes; of several, the first of
nonnegative, nonpositive, positive and negative semidefinite counts. -/
def Attributes.relation? (s : Attributes) : Option Relation :=
  if s.nonneg then some .nonneg
  else if s.nonpos then some .nonpos
  else if s.psd then some .psd
  else if s.nsd then some .nsd
  else .none

namespace Variable

/-- The plain variable of the same shape, under a new id. -/
def relaxed (v : Variable) (id : Ident) : Variable :=
  { v with id := id, attributes := v.attributes.withoutForcing }

/-- The plain vector of the entries on and above the diagonal, under a new id. -/
def packed (v : Variable) (id : Ident) : Variable :=
  { v.relaxed id with shape := .vector (UpperTriangle.length v.shape.rows) }

end Variable

/-- What an elimination does with one variable. -/
structure Row (α : Type) where
  /-- the variable as the problem declares it where it appears first -/
  declared : Variable
  /-- the variable a solver finds a value for -/
  standIn : Variable
  /-- the expression that takes its place -/
  replacement : Expr α

/-- The next id, and the ids of the fill matrices by size. -/
structure Counter where
  next : Ident
  fills : List (Nat × Ident)

/-- What one variable leads to: its row, the constraints that come with it, and the counter. -/
structure Visit (α : Type) where
  row : Row α
  added : List (Constraint α)
  counter : Counter

namespace Counter

/-- The id of the fill matrix of size `n`, drawn at its first use. -/
def fillId (c : Counter) (n : Nat) : Ident × Counter :=
  match c.fills.lookup n with
  | some id => (id, c)
  | none => (c.next, ⟨c.next + 1, (n, c.next) :: c.fills⟩)

variable {α : Type} [Scalar α]

def pack (c : Counter) (v : Variable) : Visit α :=
  let n := v.shape.rows
  let standIn := v.packed c.next
  let (id, c) := { c with next := c.next + 1 }.fillId n
  let full := (Expr.const id (.sparse (UpperTriangle.fill n))).matmul (.var standIn)
  ⟨⟨v, standIn, full.reshape v.shape⟩, [], c⟩

def relax (c : Counter) (v : Variable) (r : Relation) : Visit α :=
  let standIn := v.relaxed c.next
  ⟨⟨v, standIn, .var standIn⟩, [⟨c.next + 1, .compare r (.var standIn)⟩],
    { c with next := c.next + 2 }⟩

def keep (c : Counter) (v : Variable) : Visit α := ⟨⟨v, v, .var v⟩, [], c⟩

/-- Looks at one variable; a symmetric one has to be a scalar or square. -/
def visit (c : Counter) (v : Variable) : Except Fault (Visit α) :=
  if v.isSymmetric then
    if v.shape.isSquare then .ok (c.pack v) else .error (.symmetricShape v.shape)
  else
    match v.attributes.relation? with
    | some r => .ok (c.relax v r)
    | none => .ok (c.keep v)

end Counter

/-- The result of a scan: the rows and constraints up to the end or the first fault, and the next
id, which counts what was drawn before the fault. -/
structure Scan (α : Type) where
  rows : List (Row α)
  added : List (Constraint α)
  next : Ident
  fault : Option Fault

/-- Looks at each variable in order, up to the first fault. -/
def Scan.run {α : Type} [Scalar α] (c : Counter) : List Variable → Scan α
  | [] => ⟨[], [], c.next, none⟩
  | v :: vs =>
    match c.visit v with
    | .error f => ⟨[], [], c.next, some f⟩
    | .ok step =>
      let rest := run step.counter vs
      { rest with rows := step.row :: rest.rows, added := step.added ++ rest.added }

end ConvexProgram
