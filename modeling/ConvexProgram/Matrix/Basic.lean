import ConvexProgram.Scalar

/-!
# Dense matrices

A matrix stores its entries by columns, `entry i j` at position `i + j * rows`.  Every operation
that computes is a `Matrix.ofFn`, so two matrices are equal once their sizes and their entries are
(`Matrix.ext_entry`), and what an operation does is one lemma `entry_…` about its entries.

* `Matrix.reshape?`   the same stored entries under other sizes, if the count fits;
* `Matrix.mul`, `Matrix.transpose`, `Matrix.diagonal`, `Matrix.vstack`, `Matrix.hstack`   as usual;
* `Matrix.sum`, `Matrix.trace`, `Matrix.colSums`, `Matrix.rowSums`   sums, first entry first;
* `Matrix.select`     the entries at two selections of rows and columns.
-/

namespace ConvexProgram

/-- A `rows × cols` matrix with its entries listed by columns. -/
structure Matrix (α : Type) where
  rows : Nat
  cols : Nat
  entries : Array α
  size_eq : entries.size = rows * cols

/-- The indices `start`, `start + step`, …, `count` of them. -/
structure Selection where
  start : Nat
  count : Nat
  step : Nat
deriving DecidableEq

namespace Selection

def whole (n : Nat) : Selection := ⟨0, n, 1⟩

def nth (s : Selection) (i : Nat) : Nat := s.start + i * s.step

@[simp] theorem nth_whole (n i : Nat) : (whole n).nth i = i := by simp [whole, nth]

end Selection

namespace Matrix

def size {α : Type} (m : Matrix α) : Nat := m.rows * m.cols

def ofFn {α : Type} (rows cols : Nat) (f : Nat → Nat → α) : Matrix α where
  rows := rows
  cols := cols
  entries := Array.ofFn fun k : Fin (rows * cols) => f (k.val % rows) (k.val / rows)
  size_eq := Array.size_ofFn

/-- One column that lists the given entries. -/
def column {α : Type} (xs : Array α) : Matrix α := ⟨xs.size, 1, xs, (Nat.mul_one _).symm⟩

/-- The entries by columns as a `rows × cols` matrix, if they are exactly that many. -/
def ofColumns? {α : Type} (rows cols : Nat) (xs : Array α) : Option (Matrix α) :=
  if h : xs.size = rows * cols then some ⟨rows, cols, xs, h⟩ else none

/-- The stored entries read as a `rows × cols` matrix, if they are exactly that many. -/
def reshape? {α : Type} (rows cols : Nat) (m : Matrix α) : Option (Matrix α) :=
  ofColumns? rows cols m.entries

def map {α : Type} (f : α → α) (m : Matrix α) : Matrix α :=
  ⟨m.rows, m.cols, m.entries.map f, by simp [m.size_eq]⟩

variable {α : Type} [Scalar α]

/-- The entry in row `i` and column `j`, where the matrix has one. -/
def entry (m : Matrix α) (i j : Nat) : α := m.entries.getD (i + j * m.rows) 0

def filled (rows cols : Nat) (x : α) : Matrix α := ofFn rows cols fun _ _ => x

def single (x : α) : Matrix α := filled 1 1 x

def identity (n : Nat) : Matrix α := ofFn n n fun i j => if i = j then 1 else 0

def neg (m : Matrix α) : Matrix α := m.map fun x => -x

def transpose (m : Matrix α) : Matrix α := ofFn m.cols m.rows fun i j => m.entry j i

/-- The product; each entry is summed over the contracted index from the left. -/
def mul (a b : Matrix α) : Matrix α :=
  ofFn a.rows b.cols fun i j => Scalar.sumTo a.cols fun k => a.entry i k * b.entry k j

/-- Adds `x` to the entry in row `i` and column `j`. -/
def addAt (m : Matrix α) (i j : Nat) (x : α) : Matrix α where
  rows := m.rows
  cols := m.cols
  entries := m.entries.modify (i + j * m.rows) (· + x)
  size_eq := by simp [m.size_eq]

/-! ## Sums -/

/-- The sum of all entries, by columns. -/
def sum (m : Matrix α) : α := Scalar.sumTo m.size fun k => m.entries.getD k 0

/-- The sum of the squares of all entries, by columns. -/
def sumSquares (m : Matrix α) : α :=
  Scalar.sumTo m.size fun k => m.entries.getD k 0 * m.entries.getD k 0

/-- The Euclidean norm of the listed entries. -/
def norm (m : Matrix α) : α := Scalar.sqrt m.sumSquares

def colSums (m : Matrix α) : Matrix α :=
  ofFn m.cols 1 fun j _ => Scalar.sumTo m.rows fun i => m.entry i j

def rowSums (m : Matrix α) : Matrix α :=
  ofFn m.rows 1 fun i _ => Scalar.sumTo m.cols fun j => m.entry i j

def trace (m : Matrix α) : α := Scalar.sumTo m.rows fun i => m.entry i i

/-! ## Rearrangements -/

def diagonal (m : Matrix α) : Matrix α := ofFn (min m.rows m.cols) 1 fun i _ => m.entry i i

/-- The square matrix with the first column of `m` on its diagonal and zero elsewhere. -/
def ofDiagonal (m : Matrix α) : Matrix α :=
  ofFn m.rows m.rows fun i j => if i = j then m.entry i 0 else 0

def select (m : Matrix α) (r c : Selection) : Matrix α :=
  ofFn r.count c.count fun i j => m.entry (r.nth i) (c.nth j)

def totalRows (ms : List (Matrix α)) : Nat := ms.foldr (fun m n => m.rows + n) 0

def totalCols (ms : List (Matrix α)) : Nat := ms.foldr (fun m n => m.cols + n) 0

/-- The entry in row `i` and column `j` of the matrices written one below the other. -/
def entryDown : List (Matrix α) → Nat → Nat → α
  | [], _, _ => 0
  | m :: ms, i, j => if i < m.rows then m.entry i j else entryDown ms (i - m.rows) j

/-- The entry in row `i` and column `j` of the matrices written side by side. -/
def entryAcross : List (Matrix α) → Nat → Nat → α
  | [], _, _ => 0
  | m :: ms, i, j => if j < m.cols then m.entry i j else entryAcross ms i (j - m.cols)

/-- The matrices one below the other, as wide as `cols`. -/
def vstack (cols : Nat) (ms : List (Matrix α)) : Matrix α :=
  ofFn (totalRows ms) cols (entryDown ms)

/-- The matrices side by side, as high as `rows`. -/
def hstack (rows : Nat) (ms : List (Matrix α)) : Matrix α :=
  ofFn rows (totalCols ms) (entryAcross ms)

/-! ## Comparisons -/

/-- Same sizes, and each entry the same number. -/
def same (a b : Matrix α) : Bool :=
  a.rows == b.rows && a.cols == b.cols &&
    (a.entries.toList.zip b.entries.toList).all fun p => Scalar.same p.1 p.2

/-- Square, and the same as its transpose. -/
def isSymmetric (m : Matrix α) : Bool := m.rows == m.cols && m.same m.transpose

def symmetricPart (m : Matrix α) : Matrix α :=
  ofFn m.rows m.cols fun i j => (m.entry i j + m.entry j i) * Scalar.half

def greatest (m : Matrix α) : α := Scalar.greatest m.entries.toList
def least (m : Matrix α) : α := Scalar.least m.entries.toList

def greatestAbs (m : Matrix α) : α := Scalar.greatest (m.entries.toList.map Scalar.abs)

end Matrix
end ConvexProgram
