import Metropolis.Series.Moments

/-!
Rectangular matrices, stored row by row.
-/

namespace Metropolis

structure DenseMatrix (α : Type) where
  rows : Nat
  cols : Nat
  entries : Array α
  size_entries : entries.size = rows * cols

namespace DenseMatrix

variable {α : Type}

/-- The matrix with the entry `f i j` in row `i` and column `j`. -/
def ofFn (rows cols : Nat) (f : Nat → Nat → α) : DenseMatrix α where
  rows := rows
  cols := cols
  entries := Array.ofFn (n := rows * cols) fun k => f (k.val / cols) (k.val % cols)
  size_entries := Array.size_ofFn

@[simp] theorem rows_ofFn (r c : Nat) (f : Nat → Nat → α) : (ofFn r c f).rows = r := rfl

@[simp] theorem cols_ofFn (r c : Nat) (f : Nat → Nat → α) : (ofFn r c f).cols = c := rfl

/-- The matrix whose rows are read off one after another, if the numbers are as many as that. -/
def ofEntries? (rows cols : Nat) (entries : Array α) : Option (DenseMatrix α) :=
  if h : entries.size = rows * cols then some ⟨rows, cols, entries, h⟩ else none

def row (m : DenseMatrix α) (i : Nat) : List α :=
  (m.entries.extract (i * m.cols) ((i + 1) * m.cols)).toList

def toRows (m : DenseMatrix α) : List (List α) := (List.range m.rows).map m.row

variable [Scalar α]

def entry (m : DenseMatrix α) (i j : Nat) : α := m.entries.getD (i * m.cols + j) 0

theorem entry_ofFn {r c i j : Nat} (f : Nat → Nat → α) (hi : i < r) (hj : j < c) :
    (ofFn r c f).entry i j = f i j := by
  have hlt : i * c + j < r * c := by
    have : (i + 1) * c ≤ r * c := Nat.mul_le_mul_right c hi
    rw [Nat.succ_mul] at this
    omega
  have hdiv : (i * c + j) / c = i := by
    rw [Nat.mul_comm, Nat.mul_add_div (by omega), Nat.div_eq_of_lt hj, Nat.add_zero]
  have hmod : (i * c + j) % c = j := by
    rw [Nat.mul_comm, Nat.mul_add_mod, Nat.mod_eq_of_lt hj]
  simp [entry, ofFn, Array.getD, hlt, hdiv, hmod]

def isFinite (m : DenseMatrix α) : Bool := m.entries.all Scalar.isFinite

theorem isFinite_ofFn {r c : Nat} {f : Nat → Nat → α}
    (h : ∀ i < r, ∀ j < c, Scalar.isFinite (f i j) = true) : (ofFn r c f).isFinite = true := by
  unfold isFinite
  rw [Array.all_eq_true]
  intro k hk
  have hsize : k < c * r := by
    rw [(ofFn r c f).size_entries, rows_ofFn, cols_ofFn, Nat.mul_comm] at hk
    exact hk
  have hpos : 0 < c := Nat.pos_of_ne_zero fun hc => by simp [hc] at hsize
  simp only [ofFn, Array.getElem_ofFn]
  exact h _ (Nat.div_lt_of_lt_mul hsize) _ (Nat.mod_lt k hpos)

def identity (n : Nat) : DenseMatrix α := ofFn n n fun i j => if i = j then 1 else 0

/-- The square matrix with the given diagonal and zeros elsewhere. -/
def diagonal (values : List α) : DenseMatrix α :=
  ofFn values.length values.length fun i j => if i = j then values.getD i 0 else 0

/-- A lower triangular matrix times a vector. The entries above the diagonal are not read. -/
def lowerTimes (m : DenseMatrix α) (v : List α) : List α :=
  (List.range m.rows).map fun i =>
    Series.sum ((List.range (i + 1)).map fun j => m.entry i j * v.getD j 0)

end DenseMatrix

end Metropolis
