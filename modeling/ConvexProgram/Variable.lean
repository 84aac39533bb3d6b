import ConvexProgram.Shape

/-!
# Variables

Variables, constants and constraints are told apart by ids, which are drawn from one counter.  A
variable also has a shape, perhaps a name, and declared attributes.  Sign, symmetry and
semidefiniteness are restrictions that can be compiled away (`Attributes.hasForcing`); integer and
boolean are carried along.

* `Fresh`              computations that draw ids;
* `Attributes.declare` sets one attribute and clears the one it excludes;
* `VariableSpec.draw`  the variable of a specification, with a fresh id.
-/

namespace ConvexProgram

/-- The identity of a variable, a constant or a constraint. -/
abbrev Ident := Nat

/-- A computation over the counter that holds the next id to draw. -/
abbrev Fresh (β : Type) := StateM Ident β

def Fresh.draw : Fresh Ident := fun next => (next, next + 1)

inductive Attribute where
  | nonneg
  | nonpos
  | symmetric
  | psd
  | nsd
  | integer
  | boolean
deriving DecidableEq

structure Attributes where
  nonneg : Bool := false
  nonpos : Bool := false
  symmetric : Bool := false
  psd : Bool := false
  nsd : Bool := false
  integer : Bool := false
  boolean : Bool := false
deriving DecidableEq

namespace Attributes

def none : Attributes := {}

def has (s : Attributes) : Attribute → Bool
  | .nonneg => s.nonneg
  | .nonpos => s.nonpos
  | .symmetric => s.symmetric
  | .psd => s.psd
  | .nsd => s.nsd
  | .integer => s.integer
  | .boolean => s.boolean

/-- Adds one attribute and changes no other. -/
def insert (s : Attributes) : Attribute → Attributes
  | .nonneg => { s with nonneg := true }
  | .nonpos => { s with nonpos := true }
  | .symmetric => { s with symmetric := true }
  | .psd => { s with psd := true }
  | .nsd => { s with nsd := true }
  | .integer => { s with integer := true }
  | .boolean => { s with boolean := true }

def ofList (as : List Attribute) : Attributes := as.foldl insert none

/-- The attributes of the set, in the order of their declaration. -/
def toList (s : Attributes) : List Attribute :=
  [Attribute.nonneg, .nonpos, .symmetric, .psd, .nsd, .integer, .boolean].filter s.has

/-- Adds one attribute; a sign clears the other sign, and so does semidefiniteness. -/
def declare (s : Attributes) : Attribute → Attributes
  | .nonneg => { s with nonneg := true, nonpos := false }
  | .nonpos => { s with nonpos := true, nonneg := false }
  | .psd => { s with psd := true, nsd := false }
  | .nsd => { s with nsd := true, psd := false }
  | a => s.insert a

/-- Some attribute restricts the values of the variable. -/
def hasForcing (s : Attributes) : Bool := s.nonneg || s.nonpos || s.symmetric || s.psd || s.nsd

def withoutForcing (s : Attributes) : Attributes :=
  { s with nonneg := false, nonpos := false, symmetric := false, psd := false, nsd := false }

end Attributes

structure Variable where
  id : Ident
  shape : Shape
  name : Option String
  attributes : Attributes
deriving DecidableEq

namespace Variable

/-- The name, or the id of a variable without one. -/
def label (v : Variable) : String := v.name.getD v.id.repr

def isSymmetric (v : Variable) : Bool := v.attributes.symmetric

/-- The same variable with one attribute more; see `Attributes.declare`. -/
def declare (v : Variable) (a : Attribute) : Variable :=
  { v with attributes := v.attributes.declare a }

def named (v : Variable) (name : String) : Variable := { v with name := some name }

/-- The first variable of each id, in order. -/
def firstOfEach : List Variable → List Variable
  | [] => []
  | v :: vs => v :: (firstOfEach vs).filter fun w => w.id != v.id

/-- The distinct ids, in increasing order. -/
def sortedIds (vs : List Variable) : List Ident :=
  ((firstOfEach vs).map Variable.id).mergeSort

end Variable

structure VariableSpec where
  shape : Shape
  name : Option String := none
  attributes : Attributes := .none

namespace VariableSpec

/-- The specification with one attribute more; see `Attributes.declare`. -/
def declare (s : VariableSpec) (a : Attribute) : VariableSpec :=
  { s with attributes := s.attributes.declare a }

/-- The variable with a fresh id. -/
def draw (s : VariableSpec) : Fresh Variable :=
  fun next => (⟨next, s.shape, s.name, s.attributes⟩, next + 1)

end VariableSpec
end ConvexProgram
