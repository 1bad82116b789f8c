/-
CodeSnippet/FindInMatrix.lean

`findInMatrix` of src/exam/point_to_offer/0401_findInMatrix.c, for a matrix with
sorted rows and columns.  The search starts in the upper right corner; in every
round all occurrences of the value lie in the rectangle below and to the left.

Main results:
  * `findLoop_eq` — the loop on any such rectangle.
  * `findInMatrix_finds` — the whole function, on matrices that an `int` can index.
-/
import CodeSnippet.Grid

namespace CodeSnippet

open Memory Block

namespace FindInMatrix

open Grid (cellAt index_lt exists_index cellAt_eq cellAt_eq_none)

/-! ### Source -/

/-- `while (row < rows && column >= 0)`, up to the `return`. -/
def findLoop (arr : Block ℤ) (rows columns value : ℤ) : ℕ → ℤ → ℤ → Option ℤ
  | 0, _, _ => none
  | fuel + 1, row, column =>
      if row < rows ∧ column ≥ 0 then do
        let v ← cellAt arr columns row column
        if value < v then findLoop arr rows columns value fuel row (column - 1)
        else if value > v then findLoop arr rows columns value fuel (row + 1) column
        else some 1
      else some 0

def findInMatrix (fuel : ℕ) (arr : Block ℤ) (rows columns value : ℤ) : Option ℤ :=
  findLoop arr rows columns value fuel 0 (columns - 1)

/-! ### The search -/

/-- A matrix whose rows and columns are non-decreasing. -/
structure SortedMatrix (arr : Block ℤ) (rows columns : ℕ) : Prop where
  size_eq : arr.size = rows * columns
  row : ∀ i < rows, ∀ j' < columns, ∀ j ≤ j',
    arr.cell (i * columns + j) ≤ arr.cell (i * columns + j')
  column : ∀ j < columns, ∀ i' < rows, ∀ i ≤ i',
    arr.cell (i * columns + j) ≤ arr.cell (i' * columns + j)

/-- All occurrences of `value` are in the rows from `row` on and in the first
`width` columns. -/
def Confined (arr : Block ℤ) (rows columns : ℕ) (value : ℤ) (row width : ℕ) : Prop :=
  ∀ i < rows, ∀ j < columns, arr.cell (i * columns + j) = value → row ≤ i ∧ j < width

variable {arr : Block ℤ} {rows columns row width fuel : ℕ} {value : ℤ}

/-- The last column of the rectangle is too large from `row` on. -/
theorem Confined.dropColumn (h : Confined arr rows columns value row (width + 1))
    (hsorted : SortedMatrix arr rows columns)
    (hlt : value < arr.cell (row * columns + width)) :
    Confined arr rows columns value row width := by
  intro i hi j hj hvalue
  obtain ⟨hrow, hwidth⟩ := h i hi j hj hvalue
  refine ⟨hrow, lt_of_le_of_ne (Nat.le_of_lt_succ hwidth) ?_⟩
  rintro rfl
  have hle := hsorted.column j hj i hi row hrow
  rw [hvalue] at hle
  exact absurd hlt (not_lt.mpr hle)

/-- The first row of the rectangle is too small up to its last column. -/
theorem Confined.dropRow (h : Confined arr rows columns value row (width + 1))
    (hsorted : SortedMatrix arr rows columns) (hwidth : width < columns)
    (hgt : arr.cell (row * columns + width) < value) :
    Confined arr rows columns value (row + 1) (width + 1) := by
  intro i hi j hj hvalue
  obtain ⟨hrow, hj'⟩ := h i hi j hj hvalue
  refine ⟨lt_of_le_of_ne hrow ?_, hj'⟩
  rintro rfl
  have hle := hsorted.row row hi width hwidth j (Nat.le_of_lt_succ hj')
  rw [hvalue] at hle
  exact absurd hgt (not_lt.mpr hle)

/-- **The loop**, by induction on the fuel. -/
theorem findLoop_eq (hsorted : SortedMatrix arr rows columns) (hint : rows * columns ≤ 2 ^ 31)
    (h : Confined arr rows columns value row width) (hrow : row ≤ rows) (hwidth : width ≤ columns)
    (hfuel : rows - row + width < fuel) :
    ∃ ret, findLoop arr rows columns value fuel row (width - 1) = some ret ∧
      (ret = 1 ↔ ∃ i < rows, ∃ j < columns, arr.cell (i * columns + j) = value) ∧
      (ret ≠ 1 → ret = 0) := by
  induction fuel generalizing row width with
  | zero => exact absurd hfuel (Nat.not_lt_zero _)
  | succ fuel ih =>
      rw [findLoop]
      by_cases hdone : row = rows ∨ width = 0
      · -- nothing is left of the rectangle
        rw [if_neg (by omega)]
        refine ⟨0, rfl, iff_of_false (by decide) ?_, fun _ => rfl⟩
        rintro ⟨i, hi, j, hj, hvalue⟩
        have hin := h i hi j hj hvalue
        omega
      obtain ⟨w, rfl⟩ : ∃ w, width = w + 1 := Nat.exists_eq_succ_of_ne_zero (by omega)
      have hlast : ((w + 1 : ℕ) : ℤ) - 1 = w := by omega
      have hindex : row * columns + w < rows * columns := index_lt (by omega) hwidth
      have hsize := hsorted.size_eq
      rw [hlast, if_pos (by omega), cellAt_eq (by omega) (by omega)]
      show ∃ ret, (if value < arr.cell (row * columns + w) then _ else _) = _ ∧ _
      rcases lt_trichotomy value (arr.cell (row * columns + w)) with hlt | heq | hgt
      · rw [if_pos hlt]
        exact ih (h.dropColumn hsorted hlt) hrow (by omega) (by omega)
      · rw [if_neg heq.not_lt, if_neg heq.not_gt]
        exact ⟨1, rfl, iff_of_true rfl ⟨row, by omega, w, hwidth, heq.symm⟩, fun e => absurd rfl e⟩
      · rw [if_neg hgt.not_gt, if_pos hgt]
        have hnext := ih (h.dropRow hsorted hwidth hgt) (by omega) hwidth (by omega)
        rwa [hlast] at hnext

/-! ### The function -/

/-- The function comes to its end inside the matrix, with 1 exactly when the
value occurs. -/
def Finds (arr : Block ℤ) (rows columns : ℕ) (value : ℤ) : Prop :=
  ∀ fuel, rows + columns < fuel →
    ∃ ret, findInMatrix fuel arr rows columns value = some ret ∧
      (ret = 1 ↔ ∃ k < rows * columns, arr.cell k = value) ∧ (ret ≠ 1 → ret = 0)

/-- **`findInMatrix` finds** what is in a matrix that an `int` can index. -/
theorem findInMatrix_finds (arr : Block ℤ) (rows columns : ℕ) (value : ℤ)
    (hsorted : SortedMatrix arr rows columns) (hint : rows * columns ≤ 2 ^ 31) :
    Finds arr rows columns value := by
  intro fuel hfuel
  have hall : Confined arr rows columns value 0 columns :=
    fun i _ j hj _ => ⟨Nat.zero_le i, hj⟩
  obtain ⟨ret, hrun, hone, hzero⟩ :=
    findLoop_eq hsorted hint hall (Nat.zero_le rows) le_rfl hfuel
  refine ⟨ret, hrun, hone.trans ⟨?_, ?_⟩, hzero⟩
  · rintro ⟨i, hi, j, hj, hvalue⟩
    exact ⟨i * columns + j, index_lt hi hj, hvalue⟩
  · rintro ⟨k, hk, hvalue⟩
    obtain ⟨i, j, hi, hj, rfl⟩ := exists_index hk
    exact ⟨i, hi, j, hj, hvalue⟩

/-- A matrix in which no row is above another. -/
def crossing : Block ℤ := ⟨9, fun k => [1, 4, 7, 2, 4, 8, 3, 6, 9].getD k 0⟩

theorem findInMatrix_finds_crossing : Finds crossing 3 3 6 :=
  findInMatrix_finds crossing 3 3 6 ⟨rfl, by decide, by decide⟩ (by decide)

/-- Two rows of zeros. -/
def wide : Block ℤ := ⟨2 * (2 ^ 30 + 1), fun _ => 0⟩

theorem findInMatrix_wide (fuel : ℕ) : findInMatrix fuel wide 2 (2 ^ 30 + 1 : ℕ) 1 = none := by
  have hlast : ((2 ^ 30 + 1 : ℕ) : ℤ) - 1 = (2 ^ 30 : ℕ) := rfl
  have hfirst : cellAt wide (2 ^ 30 + 1 : ℕ) (0 : ℕ) (2 ^ 30 : ℕ) = some 0 :=
    cellAt_eq (show 0 * (2 ^ 30 + 1) + 2 ^ 30 < 2 * (2 ^ 30 + 1) by omega) (by omega)
  have hsecond : cellAt wide (2 ^ 30 + 1 : ℕ) (1 : ℕ) (2 ^ 30 : ℕ) = none :=
    cellAt_eq_none (by omega)
  rw [findInMatrix, hlast]
  rcases fuel with - | fuel
  · rfl
  · -- the value is larger than the last cell of the first row
    have hround : findLoop wide 2 (2 ^ 30 + 1 : ℕ) 1 (fuel + 1) 0 (2 ^ 30 : ℕ) =
        findLoop wide 2 (2 ^ 30 + 1 : ℕ) 1 fuel (1 : ℕ) (2 ^ 30 : ℕ) := by
      rw [findLoop, if_pos (by omega)]
      exact congrArg (· >>= _) hfirst
    rw [hround]
    rcases fuel with - | fuel
    · rfl
    · rw [findLoop, if_pos (by omega), hsecond]
      rfl

/-- **Too wide**: the index of the last cell is no `int`. -/
theorem not_finds_wide :
    SortedMatrix wide 2 (2 ^ 30 + 1) ∧ ¬ Finds wide 2 (2 ^ 30 + 1) 1 := by
  refine ⟨⟨rfl, fun _ _ _ _ _ _ => le_rfl, fun _ _ _ _ _ _ => le_rfl⟩, fun h => ?_⟩
  obtain ⟨ret, hrun, -⟩ := h _ (Nat.lt_succ_self _)
  rw [Nat.cast_ofNat, findInMatrix_wide] at hrun
  cases hrun

end FindInMatrix

end CodeSnippet
