import ConvexProgram.Expr.Eval

/-!
# Packed symmetric matrices

A symmetric `n × n` matrix is fixed by its upper triangle, whose `n (n + 1) / 2` entries are listed
by rows: `(0, 0), (0, 1), …, (0, n - 1), (1, 1), …, (n - 1, n - 1)`.

* `UpperTriangle.indices`, `UpperTriangle.position`   that order, and the place of an entry in it;
* `UpperTriangle.pack`     the upper triangle of a square matrix as a column;
* `UpperTriangle.unpack`   the symmetric matrix of a packed column;
* `UpperTriangle.fill`     the same map as a constant matrix, from packed columns to the entries of
                           the symmetric matrix by columns.
-/

namespace ConvexProgram
namespace UpperTriangle

/-- The number of entries on and above the diagonal. -/
def length (n : Nat) : Nat := n * (n + 1) / 2

/-- The positions on and above the diagonal, by rows. -/
def indices (n : Nat) : List (Nat × Nat) :=
  (List.range n).flatMap fun i => (List.range (n - i)).map fun d => (i, i + d)

/-- The place of `(i, j)` in `indices n`, for `i ≤ j < n`. -/
def position (n i j : Nat) : Nat := i * n - i * (i - 1) / 2 + (j - i)

variable {α : Type} [Scalar α]

/-- The ones of column `k` of the fill matrix, for the `k`-th position `(i, j)`: one at the place of
`(i, j)` by columns, and for an entry off the diagonal one at that of `(j, i)`. -/
def ones (n : Nat) (place : (Nat × Nat) × Nat) : List (Triplet α) :=
  let ((i, j), k) := place
  if i = j then [⟨i + j * n, k, 1⟩] else [⟨i + j * n, k, 1⟩, ⟨j + i * n, k, 1⟩]

/-- Maps a packed column to the entries of its symmetric matrix by columns. -/
def fill (n : Nat) : Sparse α :=
  .ofTriplets (n * n) (length n) ((indices n).zipIdx.flatMap (ones n))

/-- The entries on and above the diagonal of a square matrix, as a column. -/
def pack (m : Matrix α) : Except Fault (Matrix α) :=
  m.square.map fun m => .column ((indices m.rows).map fun p => m.entry p.1 p.2).toArray

/-- The packed entries above the diagonal at their positions, and zero elsewhere. -/
def strictUpper (n : Nat) (xs : Array α) : Matrix α :=
  .ofFn n n fun i j => if i < j then xs.getD (position n i j) 0 else 0

/-- The strict upper triangle with its transpose added, and the diagonal written once. -/
def symmetrize (n : Nat) (xs : Array α) : Matrix α :=
  let upper := strictUpper n xs
  .ofFn n n fun i j =>
    if i = j then xs.getD (position n i i) 0 else upper.entry i j + upper.entry j i

/-- The symmetric `n × n` matrix of a packed value. -/
def unpack (n : Nat) (c : Value α) : Except Fault (Matrix α) :=
  if c.toMatrix.size = length n then .ok (symmetrize n c.toMatrix.entries)
  else .error (.packedLength (length n) c.shape)

end UpperTriangle
end ConvexProgram
