/-
CodeSnippet/Grid.lean

Two-dimensional arrays that are stored row by row in a block of `rows * columns`
cells.  The index of a cell is an `int`.
-/
import CodeSnippet.CInt
import CodeSnippet.QuickSort

namespace CodeSnippet

open Memory Block

namespace Grid

/-! ### Source -/

/-- `i * columns + j` -/
def rowMajor (columns i j : ℤ) : Option ℤ := do
  let row ← checkedInt (i * columns)
  checkedInt (row + j)

/-- `arr[i * columns + j]` -/
def cellAt (arr : Block ℤ) (columns i j : ℤ) : Option ℤ := do
  let index ← rowMajor columns i j
  Sorting.get arr index

/-! ### Indices -/

variable {rows columns i j : ℕ} {arr : Block ℤ}

theorem index_lt (hi : i < rows) (hj : j < columns) : i * columns + j < rows * columns := by
  calc i * columns + j < i * columns + columns := Nat.add_lt_add_left hj _
    _ = (i + 1) * columns := (Nat.succ_mul i columns).symm
    _ ≤ rows * columns := Nat.mul_le_mul_right columns hi

theorem index_div (i : ℕ) (hj : j < columns) : (i * columns + j) / columns = i := by
  rw [Nat.add_comm, Nat.add_mul_div_right _ _ (Nat.zero_lt_of_lt hj), Nat.div_eq_of_lt hj,
    Nat.zero_add]

theorem index_mod (i : ℕ) (hj : j < columns) : (i * columns + j) % columns = j := by
  rw [Nat.mul_comm, Nat.mul_add_mod, Nat.mod_eq_of_lt hj]

/-- Every index belongs to a row and a column. -/
theorem exists_index {k : ℕ} (hk : k < rows * columns) :
    ∃ i j, i < rows ∧ j < columns ∧ k = i * columns + j := by
  have hpos : 0 < columns := Nat.pos_of_ne_zero fun e => by simp [e] at hk
  refine ⟨k / columns, k % columns, ?_, Nat.mod_lt k hpos, (Nat.div_add_mod' k columns).symm⟩
  exact Nat.div_lt_of_lt_mul (hk.trans_eq (Nat.mul_comm rows columns))

/-- An index that fits is computed without an overflow. -/
theorem rowMajor_eq (h : i * columns + j < 2 ^ 31) :
    rowMajor columns i j = some ((i * columns + j : ℕ) : ℤ) := by
  have hrow : checkedInt ((i : ℤ) * columns) = some ((i * columns : ℕ) : ℤ) := by
    rw [← Nat.cast_mul]
    exact checkedInt_eq (by omega) (by omega)
  have hindex : checkedInt (((i * columns : ℕ) : ℤ) + j) = some ((i * columns + j : ℕ) : ℤ) := by
    rw [← Nat.cast_add]
    exact checkedInt_eq (by omega) (by omega)
  rw [rowMajor, hrow, Option.bind_eq_bind, Option.bind_some, hindex]

theorem rowMajor_eq_none (h : 2 ^ 31 ≤ i * columns + j) : rowMajor columns i j = none := by
  rw [rowMajor, Option.bind_eq_bind, Option.bind_eq_none_iff]
  intro row hrow
  obtain ⟨-, rfl⟩ := checkedInt_eq_some_iff.mp hrow
  rw [← Nat.cast_mul, ← Nat.cast_add]
  exact if_neg (by omega)

/-- **A cell** that an `int` can index. -/
theorem cellAt_eq (hsize : i * columns + j < arr.size) (hint : i * columns + j < 2 ^ 31) :
    cellAt arr columns i j = some (arr.cell (i * columns + j)) := by
  rw [cellAt, rowMajor_eq hint]
  exact Sorting.get_natCast hsize

theorem cellAt_eq_none (h : 2 ^ 31 ≤ i * columns + j) : cellAt arr columns i j = none := by
  rw [cellAt, rowMajor_eq_none h]
  rfl

end Grid

end CodeSnippet
