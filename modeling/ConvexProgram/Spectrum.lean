import ConvexProgram.Constraint

/-!
# Eigenvalues of symmetric matrices

The eigenvalues of a symmetric matrix of floating-point numbers.  The matrix is scaled by its
greatest absolute entry, reflections bring it to tridiagonal form, and shifted rotations then
shrink the entries beside the diagonal until all of them are negligible; the diagonal that is left
lists the eigenvalues.  The iteration is cut off after a number of rounds that is far beyond what
it takes.

* `Reflection`                 the reflection that clears a vector below its first entry;
* `Tridiagonal.ofSymmetric`    the tridiagonal form;
* `Tridiagonal.eigenvalues?`   the eigenvalues of a tridiagonal matrix;
* `Matrix.eigenvalues?`        the eigenvalues of a symmetric matrix.
-/

namespace ConvexProgram

def Float.spacing : Float := 1.0 / 4503599627370496.0

/-- The absolute value, and one with the sign of the number. -/
def Float.polar (x : Float) : Float × Float := if x ≥ 0.0 then (x, 1.0) else (-x, -1.0)

/-! ## Reflections -/

/-- A reflection that takes a vector to a multiple `image` of the first unit vector: along `axis`,
or none if there is nothing to reflect. -/
structure Reflection where
  axis : Option (Matrix Float)
  image : Float

namespace Reflection

def shrink (v : Matrix Float) (k : Float) : Matrix Float := v.map fun x => x / k

/-- The reflection of a column onto the first axis; the sign is chosen against cancellation. -/
def ofColumn (v : Matrix Float) : Reflection :=
  let sq := v.sumSquares
  let norm := sq.sqrt
  let (modulus, sign) := Float.polar (v.entry 0 0)
  let factor := (sq + modulus * norm) * 2.0
  if factor == 0.0 then ⟨none, sign * norm⟩
  else
    let axis := shrink (v.addAt 0 0 (sign * norm)) factor.sqrt
    ⟨some (shrink axis axis.norm), -(sign * norm)⟩

/-- A symmetric matrix between two copies of the reflection along the unit column `v`. -/
def conjugate (m v : Matrix Float) : Matrix Float :=
  let p := (m.mul v).map fun x => 2.0 * x
  let dot := (v.transpose.mul p).entry 0 0
  let lower : Matrix Float := .ofFn m.rows m.rows fun i j =>
    m.entry i j - p.entry i 0 * v.entry j 0 - v.entry i 0 * p.entry j 0
      + 2.0 * dot * v.entry j 0 * v.entry i 0
  .ofFn m.rows m.rows fun i j => lower.entry (max i j) (min i j)

end Reflection

/-! ## Tridiagonal form -/

/-- A symmetric tridiagonal matrix: its diagonal, and the entries beside it. -/
structure Tridiagonal where
  diag : Array Float
  off : Array Float

namespace Tridiagonal

/-- The diagonal and the entries beside it, first row first, of a symmetric `n × n` matrix. -/
def ofSymmetricList : Nat → Matrix Float → List Float × List Float
  | 0, _ => ([], [])
  | 1, m => ([m.entry 0 0], [])
  | n + 1, m =>
    let below := m.select ⟨1, n, 1⟩ ⟨0, 1, 1⟩
    let rest := m.select ⟨1, n, 1⟩ ⟨1, n, 1⟩
    let r := Reflection.ofColumn below
    let rest := match r.axis with
      | some v => Reflection.conjugate rest v
      | none => rest
    let (diag, off) := ofSymmetricList n rest
    (m.entry 0 0 :: diag, r.image.abs :: off)

def ofSymmetric (m : Matrix Float) : Tridiagonal :=
  let (diag, off) := ofSymmetricList m.rows m
  ⟨diag.toArray, off.toArray⟩

def d (t : Tridiagonal) (i : Nat) : Float := t.diag.getD i 0.0
def e (t : Tridiagonal) (i : Nat) : Float := t.off.getD i 0.0

/-- The entry beside rows `i` and `i + 1` is more than rounding. -/
def coupled (t : Tridiagonal) (i : Nat) : Bool :=
  (t.e i).abs > Float.spacing * ((t.d (i + 1)).abs + (t.d i).abs)

/-- The last row at most `k` that is coupled to the one before; zero if there is none. -/
def lastCoupled (t : Tridiagonal) : Nat → Nat
  | 0 => 0
  | k + 1 => if t.coupled k then k + 1 else lastCoupled t k

/-- The first row of the block that ends with row `k`, where the entry that cuts it off is cleared. -/
def blockStart (t : Tridiagonal) : Nat → Nat × Tridiagonal
  | 0 => (0, t)
  | k + 1 =>
    if (t.e k).abs == 0.0 ||
        (t.e k).abs ≤ Float.spacing * ((t.d (k + 1)).abs + (t.d k).abs) then
      (k + 1, { t with off := t.off.setIfInBounds k 0.0 })
    else blockStart t k

/-- The last block of coupled rows up to row `last`: its first and last row. -/
def lastBlock (t : Tridiagonal) (last : Nat) : Nat × Nat × Tridiagonal :=
  match t.lastCoupled last with
  | 0 => (0, 0, t)
  | k + 1 =>
    let (start, t) := t.blockStart k
    (start, k + 1, t)

/-- The eigenvalue of the two rows from `i` on that is nearer to the last diagonal entry. -/
def shift (t : Tridiagonal) (i : Nat) : Float :=
  let sq := (t.e i).abs * (t.e i).abs
  if sq == 0.0 then t.d (i + 1)
  else
    let half := (t.d i - t.d (i + 1)) * 0.5
    let sign := (Float.polar half).2
    t.d (i + 1) - sq / (half + sign * (half * half + sq).sqrt)

/-- Rotations along rows `i`, `i + 1`, …, `count` of them; each clears `y` against `x`, and leaves
the next `y` two rows on. -/
def rotate (t : Tridiagonal) (start : Nat) (i : Nat) (x y : Float) : Nat → Tridiagonal
  | 0 => t
  | count + 1 =>
    if y == 0.0 then t
    else
      let (modulus, sign) := Float.polar x
      let denom := (modulus * modulus + y * y).sqrt
      let c := modulus / denom
      let s := -(sign * y) / denom
      let off := if start < i then t.off.setIfInBounds (i - 1) (sign * denom) else t.off
      let mii := t.d i
      let mjj := t.d (i + 1)
      let mij := t.e i
      let b := c * s * 2.0 * mij
      let diag := (t.diag.setIfInBounds i (c * c * mii + s * s * mjj - b)).setIfInBounds (i + 1)
        (s * s * mii + c * c * mjj + b)
      let bulge := c * s * (mii - mjj) + mij * (c * c - s * s)
      let off := off.setIfInBounds i bulge
      let next := t.e (i + 1)
      let off := if count = 0 then off else off.setIfInBounds (i + 1) (next * c)
      rotate ⟨diag, off⟩ start (i + 1) bulge (-s * next) count

/-- One round on the block of three rows or more from `start` to `last`. -/
def sweep (t : Tridiagonal) (start last : Nat) : Tridiagonal :=
  t.rotate start start (t.d start - t.shift (last - 1)) (t.e start) (last - start)

/-- The block of the two rows from `i` on is replaced by its eigenvalues. -/
def solvePair (t : Tridiagonal) (i : Nat) : Option Tridiagonal :=
  let half := (t.d i - t.d (i + 1)) * 0.5
  let disc := t.e i * t.e i + half * half
  if disc ≥ 0.0 then
    let mean := (t.d i + t.d (i + 1)) * 0.5
    some { t with
      diag := (t.diag.setIfInBounds i (mean + disc.sqrt)).setIfInBounds (i + 1)
        (mean - disc.sqrt) }
  else none

/-- Works on the last block of coupled rows until no rows are coupled, for at most `fuel` rounds. -/
def decouple (t : Tridiagonal) (last : Nat) : Nat → Option Tridiagonal
  | 0 => some t
  | fuel + 1 =>
    match t.lastBlock last with
    | (start, stop, t) =>
      if stop = start then some t
      else if stop = start + 1 then (t.solvePair start).bind fun t => decouple t (stop - 1) fuel
      else
        let t := t.sweep start stop
        let done := (t.e (stop - 1)).abs ≤
          Float.spacing * ((t.d (stop - 1)).abs + (t.d stop).abs)
        decouple t (if done then stop - 1 else stop) fuel

def eigenvalues? (t : Tridiagonal) : Option (List Float) :=
  (t.decouple (t.diag.size - 1) (1000 * (t.diag.size + 1))).map fun t => t.diag.toList

end Tridiagonal

/-- The eigenvalues of a symmetric matrix; one without rows has no tridiagonal form. -/
def Matrix.eigenvalues? (m : Matrix Float) : Option (List Float) :=
  if m.rows = 0 then none
  else
    let scale := m.greatestAbs
    let scaled := if scale == 0.0 then m else m.map fun x => x / scale
    (Tridiagonal.ofSymmetric scaled).eigenvalues?.map fun xs => xs.map (· * scale)

instance : Spectral Float where
  smallest? := fun m => m.eigenvalues?.map Scalar.least

end ConvexProgram
