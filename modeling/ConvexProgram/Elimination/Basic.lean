import ConvexProgram.Elimination.Scan

/-!
# Elimination of attributes

Turns a problem into one in which no variable is declared with a sign, as symmetric or as
semidefinite.  Every variable gives way to its expression of the scan wherever it stands, and the
constraints that the scan added come after those of the problem.

* `Inverse`             the rows of the scan, by which solutions are carried back;
* `Problem.eliminate`   the reduced problem with its inverse;
* `Reduction`           such a step under a name.
-/

namespace ConvexProgram

/-- The rows of an elimination, one for each variable of the problem. -/
structure Inverse (α : Type) where
  rows : List (Row α)

namespace Inverse

variable {α : Type}

def row? (inv : Inverse α) (id : Ident) : Option (Row α) :=
  inv.rows.find? fun r => r.declared.id == id

def declared? (inv : Inverse α) (id : Ident) : Option Variable := (inv.row? id).map Row.declared

def standIn? (inv : Inverse α) (id : Ident) : Option Variable := (inv.row? id).map Row.standIn

/-- The expression that takes its place: the substitution of the elimination. -/
def replacement? (inv : Inverse α) : Substitution α := fun id =>
  (inv.row? id).map Row.replacement

end Inverse

/-- A reduced problem, with what carries its solutions back. -/
structure Elimination (α : Type) where
  problem : Problem α
  inverse : Inverse α

def Problem.afterScan {α : Type} (p : Problem α) (scan : Scan α) : Elimination α :=
  let inverse : Inverse α := ⟨scan.rows⟩
  let reduced := p.subst inverse.replacement?
  ⟨{ reduced with constraints := reduced.constraints ++ scan.added }, inverse⟩

/-- The problem without sign, symmetry and semidefinite attributes.  After a fault the ids drawn
before it stay drawn. -/
def Problem.eliminate {α : Type} [Scalar α] (p : Problem α) :
    Fresh (Except Fault (Elimination α)) := fun next =>
  let scan := Scan.run ⟨next, []⟩ p.unknowns
  match scan.fault with
  | some f => (.error f, scan.next)
  | none => (.ok (p.afterScan scan), scan.next)

/-- A step from problems to simpler ones, under the name it goes by. -/
structure Reduction (α : Type) where
  name : String
  /-- whether the step can be taken -/
  accepts : Problem α → Bool
  apply : Problem α → Fresh (Except Fault (Elimination α))

/-- The elimination of attributes, which takes every problem. -/
def attributeElimination {α : Type} [Scalar α] : Reduction α where
  name := "CvxAttr2Constr"
  accepts := fun _ => true
  apply := Problem.eliminate

end ConvexProgram
