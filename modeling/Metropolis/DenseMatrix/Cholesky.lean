import Metropolis.DenseMatrix

/-!
Cholesky factors.

The factor is made row by row from the lower triangle of the matrix. A row needs only the rows
above it: an entry left of the diagonal is what remains of the matrix entry, less the products
with an earlier row, over that row's diagonal entry; the diagonal entry is the square root of what
remains of it.
-/

namespace Metropolis.DenseMatrix

variable {α : Type} [Scalar α]

/-- What remains of `start` less the products of two rows, taken off from the left. -/
def remainder (start : α) (u v : List α) : α :=
  (u.zip v).foldl (fun rest p => rest - p.1 * p.2) start

/-- The entries of a row left of the diagonal, against the finished rows above it. -/
def factorLeft (source : Nat → α) : List (List α) → List α → Option (List α)
  | [], done => some done
  | upper :: rest, done =>
    let pivot := upper.getLastD 0
    if pivot ≤ 0 then none
    else factorLeft source rest (done ++ [remainder (source done.length) done upper / pivot])

/-- The next row of the factor, up to and with the diagonal. -/
def factorRow (source : Nat → α) (above : List (List α)) : Option (List α) := do
  let left ← factorLeft source above []
  let square := remainder (source left.length) left left
  if square ≤ 0 ∨ Scalar.isUndefined square then none
  else return left ++ [Scalar.sqrt square]

/-- The first `n` rows of the factor of the matrix with the entries `source i j`. -/
def factorRows (source : Nat → Nat → α) : Nat → Option (List (List α))
  | 0 => some []
  | n + 1 => do
    let above ← factorRows source n
    let next ← factorRow (source n) above
    return above ++ [next]

/-- The square matrix with the given rows of a lower triangle and zeros above the diagonal. -/
def ofLowerRows (rows : List (List α)) : DenseMatrix α :=
  ofFn rows.length rows.length fun i j => (rows.getD i []).getD j 0

/-- The lower Cholesky factor of a square matrix, if the matrix is positive definite. -/
def cholesky? (m : DenseMatrix α) : Option (DenseMatrix α) :=
  if m.rows = m.cols then (factorRows m.entry m.cols).map ofLowerRows else none

def addDiagonal (m : DenseMatrix α) (jitter : α) : DenseMatrix α :=
  ofFn m.cols m.cols fun i j => if i = j then m.entry i j + jitter else m.entry i j

/-- Tries `jitter`, ten times `jitter` and so on, at most `tries` of them. -/
def choleskyFrom? (m : DenseMatrix α) : Nat → α → Option (DenseMatrix α × α)
  | 0, _ => none
  | tries + 1, jitter =>
    match (m.addDiagonal jitter).cholesky? with
    | some lower => some (lower, jitter)
    | none => choleskyFrom? m tries (jitter * 10)

/-- The factor of a finite matrix, or else the factor after the least jitter on the diagonal that
allows one, of the eight powers of ten from `1e-10`. The jitter is given too. -/
def choleskyWithJitter? (m : DenseMatrix α) : Option (DenseMatrix α × α) :=
  if m.isFinite then
    match m.cholesky? with
    | some lower => some (lower, 0)
    | none => choleskyFrom? m 8 1.0e-10
  else none

theorem length_factorRows {source : Nat → Nat → α} {n : Nat} {rows : List (List α)}
    (h : factorRows source n = some rows) : rows.length = n := by
  induction n generalizing rows with
  | zero => cases h; rfl
  | succ n ih =>
    simp only [factorRows, Option.bind_eq_bind, Option.bind_eq_some_iff, Option.pure_def,
      Option.some.injEq] at h
    obtain ⟨above, habove, next, -, rfl⟩ := h
    rw [List.length_append, ih habove, List.length_singleton]

theorem rows_of_cholesky? {m lower : DenseMatrix α} (h : m.cholesky? = some lower) :
    lower.rows = m.cols := by
  unfold cholesky? at h
  split at h
  · obtain ⟨rows, hrows, rfl⟩ := Option.map_eq_some_iff.1 h
    exact length_factorRows hrows
  · cases h

theorem rows_of_choleskyFrom? {m lower : DenseMatrix α} {tries : Nat} {jitter found : α}
    (h : m.choleskyFrom? tries jitter = some (lower, found)) : lower.rows = m.cols := by
  induction tries generalizing jitter with
  | zero => cases h
  | succ tries ih =>
    unfold choleskyFrom? at h
    split at h
    next hlower =>
      cases h
      rw [rows_of_cholesky? hlower]
      rfl
    next => exact ih h

/-- Jitter or not, a factor has as many rows as the matrix has columns. -/
theorem rows_of_choleskyWithJitter? {m lower : DenseMatrix α} {found : α}
    (h : m.choleskyWithJitter? = some (lower, found)) : lower.rows = m.cols := by
  unfold choleskyWithJitter? at h
  split at h
  · split at h
    next hlower =>
      cases h
      exact rows_of_cholesky? hlower
    next => exact rows_of_choleskyFrom? h
  · cases h

end Metropolis.DenseMatrix
