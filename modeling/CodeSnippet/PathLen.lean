/-
CodeSnippet/PathLen.lean

`get_len` of src/exam/huawei/getPathLen.c and the double loop of its `main`, for a
grid of any size.  A scan from a cell follows the ones in one of four directions;
each run of ones is found from the cell where it starts.

Main results:
  * `scan_eq` — a scan in any direction.
  * `getLen_eq` — the longest run that starts in a cell.
  * `pathLen_findsLongest` — the longest run of the grid, if an `int` can index it.
-/
import CodeSnippet.Grid

namespace CodeSnippet

open Memory Block

namespace PathLen

open Grid (cellAt index_lt cellAt_eq cellAt_eq_none)

/-! ### Source -/

/-- `for (…; inside; i += di, j += dj)` with the body
`if (arr[i * columns + j] == 1) len++; else break;` -/
def scan (arr : Block ℤ) (columns : ℤ) (inside : ℤ → ℤ → Bool) (di dj : ℤ) :
    ℕ → ℤ → ℤ → ℤ → Option ℤ
  | 0, _, _, _ => none
  | fuel + 1, i, j, len =>
      if inside i j then do
        let v ← cellAt arr columns i j
        if v = 1 then scan arr columns inside di dj fuel (i + di) (j + dj) (len + 1)
        else some len
      else some len

/-- `if (len > max) max = len;` -/
def larger (len max : ℤ) : ℤ := if len > max then len else max

def getLen (fuel : ℕ) (arr : Block ℤ) (rows columns startX startY : ℤ) : Option ℤ := do
  let max := 0
  let len ← scan arr columns (fun i _ => i < rows) 1 0 fuel startX startY 0
  let max := larger len max
  let len ← scan arr columns (fun _ j => j < columns) 0 1 fuel startX startY 0
  let max := larger len max
  let len ← scan arr columns (fun i j => i < rows && j < columns) 1 1 fuel startX startY 0
  let max := larger len max
  let len ← scan arr columns (fun i j => i < rows && j ≥ 0) 1 (-1) fuel startX startY 0
  let max := larger len max
  some max

/-- The inner loop of `main` from `j` on, with `m` rounds left. -/
def rowLoop (fuel : ℕ) (arr : Block ℤ) (rows columns i : ℕ) : ℕ → ℕ → ℤ → Option ℤ
  | 0, _, max => some max
  | m + 1, j, max => do
      let v ← arr.load (i * columns + j)
      if v = 1 then do
        let len ← getLen fuel arr rows columns i j
        rowLoop fuel arr rows columns i m (j + 1) (larger len max)
      else rowLoop fuel arr rows columns i m (j + 1) max

/-- The outer loop of `main` from `i` on, with `m` rounds left. -/
def gridLoop (fuel : ℕ) (arr : Block ℤ) (rows columns : ℕ) : ℕ → ℕ → ℤ → Option ℤ
  | 0, _, max => some max
  | m + 1, i, max => do
      let max ← rowLoop fuel arr rows columns i columns 0 max
      gridLoop fuel arr rows columns m (i + 1) max

/-- What `main` prints. -/
def pathLen (fuel : ℕ) (arr : Block ℤ) (rows columns : ℕ) : Option ℤ :=
  gridLoop fuel arr rows columns rows 0 0

/-! ### Runs -/

/-- The straight lines on which a run may lie. -/
inductive Direction
  | row
  | column
  | diagonal
  | antidiagonal
deriving Inhabited

/-- From a cell to the next one on a line. -/
def Direction.step : Direction → ℤ × ℤ
  | row => (0, 1)
  | column => (1, 0)
  | diagonal => (1, 1)
  | antidiagonal => (1, -1)

def InGrid (rows columns : ℕ) (i j : ℤ) : Prop := (0 ≤ i ∧ i < rows) ∧ 0 ≤ j ∧ j < columns

/-- The cell lies in the grid and holds a one. -/
def IsOne (arr : Block ℤ) (rows columns : ℕ) (i j : ℤ) : Prop :=
  InGrid rows columns i j ∧ arr.cell (i.toNat * columns + j.toNat) = 1

/-- `len` consecutive ones from a cell on. -/
def Run (arr : Block ℤ) (rows columns : ℕ) (d : Direction) (i j : ℤ) (len : ℕ) : Prop :=
  ∀ t : ℕ, t < len → IsOne arr rows columns (i + t * d.step.1) (j + t * d.step.2)

variable {arr : Block ℤ} {rows columns fuel : ℕ} {d : Direction} {i j : ℤ} {m : ℕ}

theorem shift (t : ℕ) (x y : ℤ) : x + (t + 1 : ℕ) * y = x + y + t * y := by
  rw [Nat.cast_succ]
  ring

theorem run_zero : Run arr rows columns d i j 0 := fun t ht => absurd ht t.not_lt_zero

theorem run_succ : Run arr rows columns d i j (m + 1) ↔
    IsOne arr rows columns i j ∧ Run arr rows columns d (i + d.step.1) (j + d.step.2) m := by
  constructor
  · intro h
    refine ⟨?_, fun t ht => ?_⟩
    · have hfirst := h 0 m.succ_pos
      rwa [Nat.cast_zero, zero_mul, zero_mul, add_zero, add_zero] at hfirst
    · rw [← shift, ← shift]
      exact h (t + 1) (Nat.succ_lt_succ ht)
  · rintro ⟨hfirst, h⟩ t ht
    rcases t with - | t
    · rwa [Nat.cast_zero, zero_mul, zero_mul, add_zero, add_zero]
    · rw [shift, shift]
      exact h t (Nat.lt_of_succ_lt_succ ht)

theorem Run.isOne (h : Run arr rows columns d i j m) (hm : 0 < m) : IsOne arr rows columns i j := by
  obtain ⟨n, rfl⟩ := Nat.exists_eq_succ_of_ne_zero hm.ne'
  exact (run_succ.mp h).1

/-- No run starts in another cell. -/
theorem run_iff_of_not (h : ¬ IsOne arr rows columns i j) (m : ℕ) :
    Run arr rows columns d i j m ↔ m ≤ 0 := by
  rw [Nat.le_zero]
  constructor
  · intro hrun
    by_contra hm
    exact h (hrun.isOne (Nat.pos_of_ne_zero hm))
  · rintro rfl
    exact run_zero

/-- A run is not longer than the grid. -/
theorem Run.le_max (h : Run arr rows columns d i j m) : m ≤ max rows columns := by
  rcases m with - | m
  · exact Nat.zero_le _
  obtain ⟨⟨⟨hi, -⟩, hj, -⟩, -⟩ := h.isOne m.succ_pos
  obtain ⟨⟨⟨-, hi'⟩, -, hj'⟩, -⟩ := h m m.lt_succ_self
  cases d <;> simp only [Direction.step] at hi' hj' <;> omega

/-! ### A scan -/

/-- As far as a scan comes, the condition of its loop says that the cell lies in
the grid. -/
def Bounds (inside : ℤ → ℤ → Bool) (rows columns : ℕ) (d : Direction) (i j : ℤ) : Prop :=
  ∀ t : ℕ, inside (i + t * d.step.1) (j + t * d.step.2) = true ↔
    InGrid rows columns (i + t * d.step.1) (j + t * d.step.2)

theorem Bounds.zero {inside : ℤ → ℤ → Bool} (h : Bounds inside rows columns d i j) :
    inside i j = true ↔ InGrid rows columns i j := by
  have hfirst := h 0
  rwa [Nat.cast_zero, zero_mul, zero_mul, add_zero, add_zero] at hfirst

theorem Bounds.succ {inside : ℤ → ℤ → Bool} (h : Bounds inside rows columns d i j) :
    Bounds inside rows columns d (i + d.step.1) (j + d.step.2) := by
  intro t
  rw [← shift, ← shift]
  exact h (t + 1)

/-- In an array that an `int` can index, every cell of the grid can be read. -/
theorem cellAt_of_inGrid (hsize : arr.size = rows * columns) (hint : rows * columns ≤ 2 ^ 31)
    (h : InGrid rows columns i j) :
    cellAt arr columns i j = some (arr.cell (i.toNat * columns + j.toNat)) := by
  obtain ⟨⟨hi, hi'⟩, hj, hj'⟩ := h
  obtain ⟨a, rfl⟩ := Int.eq_ofNat_of_zero_le hi
  obtain ⟨b, rfl⟩ := Int.eq_ofNat_of_zero_le hj
  have hlt : a * columns + b < rows * columns :=
    index_lt (Int.ofNat_lt.mp hi') (Int.ofNat_lt.mp hj')
  rw [Int.toNat_natCast, Int.toNat_natCast]
  exact cellAt_eq (by omega) (by omega)

/-- **A scan** counts the run from its start on, by induction on the fuel. -/
theorem scan_eq (hsize : arr.size = rows * columns) (hint : rows * columns ≤ 2 ^ 31)
    {inside : ℤ → ℤ → Bool} (hbounds : Bounds inside rows columns d i j)
    (hfuel : ∀ m, Run arr rows columns d i j m → m < fuel) (len : ℤ) :
    ∃ n : ℕ, scan arr columns inside d.step.1 d.step.2 fuel i j len = some (len + n) ∧
      ∀ m, Run arr rows columns d i j m ↔ m ≤ n := by
  induction fuel generalizing i j len with
  | zero => exact absurd (hfuel 0 run_zero) (Nat.lt_irrefl 0)
  | succ fuel ih =>
      rw [scan]
      by_cases hin : InGrid rows columns i j
      · rw [if_pos (hbounds.zero.mpr hin), cellAt_of_inGrid hsize hint hin]
        show ∃ n : ℕ, (if arr.cell (i.toNat * columns + j.toNat) = 1 then _ else _) = _ ∧ _
        by_cases hone : arr.cell (i.toNat * columns + j.toNat) = 1
        · -- a run from here is one longer than a run from the next cell
          rw [if_pos hone]
          have hnext : ∀ m, Run arr rows columns d (i + d.step.1) (j + d.step.2) m → m < fuel :=
            fun m h => Nat.lt_of_succ_lt_succ (hfuel (m + 1) (run_succ.mpr ⟨⟨hin, hone⟩, h⟩))
          obtain ⟨n, hrun, hn⟩ := ih hbounds.succ hnext (len + 1)
          refine ⟨n + 1, ?_, fun m => ?_⟩
          · rw [hrun, Nat.cast_succ, add_assoc, add_comm 1]
          · rcases m with - | m
            · exact iff_of_true run_zero (Nat.zero_le _)
            · rw [run_succ, hn, Nat.succ_le_succ_iff]
              exact and_iff_right ⟨hin, hone⟩
        · rw [if_neg hone]
          exact ⟨0, by rw [Nat.cast_zero, add_zero], run_iff_of_not fun h => hone h.2⟩
      · rw [if_neg (fun h => hin (hbounds.zero.mp h))]
        exact ⟨0, by rw [Nat.cast_zero, add_zero], run_iff_of_not fun h => hin h.1⟩

/-! ### The four scans from a cell -/

section Cell

variable {a b : ℕ}

theorem bounds_column (hb : b < columns) :
    Bounds (fun i _ => i < (rows : ℤ)) rows columns .column a b := by
  intro t
  simp only [decide_eq_true_eq, InGrid]
  simp only [Direction.step]
  omega

theorem bounds_row (ha : a < rows) :
    Bounds (fun _ j => j < (columns : ℤ)) rows columns .row a b := by
  intro t
  simp only [decide_eq_true_eq, InGrid]
  simp only [Direction.step]
  omega

theorem bounds_diagonal :
    Bounds (fun i j => i < (rows : ℤ) && j < (columns : ℤ)) rows columns .diagonal a b := by
  intro t
  simp only [Bool.and_eq_true, decide_eq_true_eq, InGrid]
  simp only [Direction.step]
  omega

theorem bounds_antidiagonal (hb : b < columns) :
    Bounds (fun i j => i < (rows : ℤ) && j ≥ 0) rows columns .antidiagonal a b := by
  intro t
  simp only [Bool.and_eq_true, decide_eq_true_eq, InGrid]
  simp only [Direction.step]
  omega

theorem larger_natCast (len max' : ℕ) : larger len max' = (max max' len : ℕ) := by
  rw [larger]
  split_ifs with h
  · rw [max_eq_right (by omega)]
  · rw [max_eq_left (by omega)]

/-- **`getLen`** gives the longest run that starts in a cell. -/
theorem getLen_eq (hsize : arr.size = rows * columns) (hint : rows * columns ≤ 2 ^ 31)
    (hfuel : max rows columns < fuel) (ha : a < rows) (hb : b < columns) :
    ∃ n : ℕ, getLen fuel arr rows columns a b = some (n : ℤ) ∧
      ∀ m, (∃ d, Run arr rows columns d a b m) ↔ m ≤ n := by
  have hrun : ∀ d m, Run arr rows columns d a b m → m < fuel :=
    fun d m h => h.le_max.trans_lt hfuel
  obtain ⟨n₁, h₁, hn₁⟩ := scan_eq hsize hint (bounds_column hb) (hrun .column) 0
  obtain ⟨n₂, h₂, hn₂⟩ := scan_eq hsize hint (bounds_row ha) (hrun .row) 0
  obtain ⟨n₃, h₃, hn₃⟩ := scan_eq hsize hint bounds_diagonal (hrun .diagonal) 0
  obtain ⟨n₄, h₄, hn₄⟩ := scan_eq hsize hint (bounds_antidiagonal hb) (hrun .antidiagonal) 0
  simp only [Direction.step, zero_add] at h₁ h₂ h₃ h₄
  refine ⟨max (max (max (max 0 n₁) n₂) n₃) n₄, ?_, fun m => ?_⟩
  · rw [getLen, h₁, h₂, h₃, h₄]
    show some (larger n₄ (larger n₃ (larger n₂ (larger n₁ (0 : ℕ))))) = _
    rw [larger_natCast, larger_natCast, larger_natCast, larger_natCast]
  · simp only [le_max_iff, ← hn₁, ← hn₂, ← hn₃, ← hn₄]
    constructor
    · rintro ⟨_ | _ | _ | _, h⟩
      · exact .inl (.inl (.inr h))
      · exact .inl (.inl (.inl (.inr h)))
      · exact .inl (.inr h)
      · exact .inr h
    · rintro ((((h | h) | h) | h) | h)
      · obtain rfl : m = 0 := Nat.le_zero.mp h
        exact ⟨.row, run_zero⟩
      · exact ⟨.column, h⟩
      · exact ⟨.row, h⟩
      · exact ⟨.diagonal, h⟩
      · exact ⟨.antidiagonal, h⟩

end Cell

/-! ### All cells -/

/-- `n` is the length of the longest run that starts in one of the cells, or 0. -/
def Longest (arr : Block ℤ) (rows columns : ℕ) (starts : Set (ℕ × ℕ)) (n : ℕ) : Prop :=
  ∀ m, m ≤ n ↔ m = 0 ∨ ∃ p ∈ starts, ∃ d, Run arr rows columns d p.1 p.2 m

/-- The cells that `main` has passed when it comes to row `i` and column `j`. -/
def passed (columns i j : ℕ) : Set (ℕ × ℕ) :=
  {p | p.2 < columns ∧ (p.1 < i ∨ p.1 = i ∧ p.2 < j)}

section Loops

variable {i j n : ℕ}

theorem passed_succ (hj : j < columns) :
    passed columns i (j + 1) = insert (i, j) (passed columns i j) := by
  ext ⟨a, b⟩
  simp only [passed, Set.mem_ofPred_eq, Set.mem_insert_iff, Prod.mk.injEq]
  omega

theorem passed_row (columns i : ℕ) : passed columns i columns = passed columns (i + 1) 0 := by
  ext ⟨a, b⟩
  simp only [passed, Set.mem_ofPred_eq]
  omega

theorem Longest.insert {starts : Set (ℕ × ℕ)} (h : Longest arr rows columns starts n)
    {p : ℕ × ℕ} {k : ℕ} (hp : ∀ m, (∃ d, Run arr rows columns d p.1 p.2 m) ↔ m ≤ k) :
    Longest arr rows columns (insert p starts) (max n k) := by
  intro m
  rw [le_max_iff, h m, ← hp m, Set.exists_mem_insert, or_assoc, or_comm (b := ∃ d, _)]

/-- One cell. -/
theorem rowLoop_succ (hsize : arr.size = rows * columns) (hint : rows * columns ≤ 2 ^ 31)
    (hfuel : max rows columns < fuel) (hi : i < rows) (hj : j < columns)
    (h : Longest arr rows columns (passed columns i j) n) (m : ℕ) :
    ∃ n' : ℕ, rowLoop fuel arr rows columns i (m + 1) j n =
        rowLoop fuel arr rows columns i m (j + 1) n' ∧
      Longest arr rows columns (passed columns i (j + 1)) n' := by
  have hlt := index_lt hi hj
  rw [rowLoop, load_eq (by omega), passed_succ hj]
  show ∃ n' : ℕ, (if arr.cell (i * columns + j) = 1 then _ else _) = _ ∧ _
  by_cases hone : arr.cell (i * columns + j) = 1
  · obtain ⟨k, hlen, hk⟩ := getLen_eq hsize hint hfuel hi hj
    refine ⟨max n k, ?_, h.insert hk⟩
    rw [if_pos hone, hlen, ← larger_natCast]
    rfl
  · -- no run starts here, and `max` stays
    have hnot : ¬ IsOne arr rows columns i j := by
      rintro ⟨-, hcell⟩
      rw [Int.toNat_natCast, Int.toNat_natCast] at hcell
      exact hone hcell
    refine ⟨n, if_neg hone, ?_⟩
    have hnone : ∀ m, (∃ d, Run arr rows columns d i j m) ↔ m ≤ 0 := by
      intro m
      simp only [run_iff_of_not hnot]
      exact exists_const Direction
    have hinsert := h.insert (p := (i, j)) hnone
    rwa [max_eq_left (Nat.zero_le n)] at hinsert

/-- **A row.** -/
theorem rowLoop_eq (hsize : arr.size = rows * columns) (hint : rows * columns ≤ 2 ^ 31)
    (hfuel : max rows columns < fuel) (hi : i < rows) {m : ℕ} (hm : j + m = columns)
    (h : Longest arr rows columns (passed columns i j) n) :
    ∃ n' : ℕ, rowLoop fuel arr rows columns i m j n = some (n' : ℤ) ∧
      Longest arr rows columns (passed columns (i + 1) 0) n' := by
  induction m generalizing j n with
  | zero =>
      obtain rfl : j = columns := hm
      rw [passed_row] at h
      exact ⟨n, rfl, h⟩
  | succ m ih =>
      obtain ⟨n', hstep, h'⟩ := rowLoop_succ hsize hint hfuel hi (by omega) h m
      rw [hstep]
      exact ih (by omega) h'

/-- **All rows.** -/
theorem gridLoop_eq (hsize : arr.size = rows * columns) (hint : rows * columns ≤ 2 ^ 31)
    (hfuel : max rows columns < fuel) {m : ℕ} (hm : i + m = rows)
    (h : Longest arr rows columns (passed columns i 0) n) :
    ∃ n' : ℕ, gridLoop fuel arr rows columns m i n = some (n' : ℤ) ∧
      Longest arr rows columns (passed columns rows 0) n' := by
  induction m generalizing i n with
  | zero =>
      obtain rfl : i = rows := hm
      exact ⟨n, rfl, h⟩
  | succ m ih =>
      obtain ⟨n', hrow, h'⟩ := rowLoop_eq hsize hint hfuel (by omega) (Nat.zero_add columns) h
      rw [gridLoop, hrow]
      exact ih (by omega) h'

/-- Every run starts in a cell of the grid. -/
theorem Longest.isGreatest (h : Longest arr rows columns (passed columns rows 0) n) :
    IsGreatest {m | ∃ d i j, Run arr rows columns d i j m} n := by
  constructor
  · rcases (h n).mp le_rfl with rfl | ⟨p, -, d, hrun⟩
    · exact ⟨.row, 0, 0, run_zero⟩
    · exact ⟨d, p.1, p.2, hrun⟩
  · rintro m ⟨d, i, j, hrun⟩
    rcases Nat.eq_zero_or_pos m with rfl | hm
    · exact Nat.zero_le n
    obtain ⟨⟨⟨hi, hi'⟩, hj, hj'⟩, -⟩ := hrun.isOne hm
    obtain ⟨a, rfl⟩ := Int.eq_ofNat_of_zero_le hi
    obtain ⟨b, rfl⟩ := Int.eq_ofNat_of_zero_le hj
    exact (h m).mpr (.inr ⟨(a, b), ⟨Int.ofNat_lt.mp hj', .inl (Int.ofNat_lt.mp hi')⟩, d, hrun⟩)

end Loops

/-! ### The program -/

/-- The length of the longest straight run is found, and `getLen` reads only the
grid, from whichever cell it is called. -/
def FindsLongest (arr : Block ℤ) (rows columns : ℕ) : Prop :=
  ∀ fuel, max rows columns < fuel →
    (∃ n : ℕ, pathLen fuel arr rows columns = some (n : ℤ) ∧
      IsGreatest {m | ∃ d i j, Run arr rows columns d i j m} n) ∧
    ∀ a < rows, ∀ b < columns, ∃ len, getLen fuel arr rows columns a b = some len

/-- **The longest run** of ones in a grid that an `int` can index. -/
theorem pathLen_findsLongest (arr : Block ℤ) (rows columns : ℕ)
    (hsize : arr.size = rows * columns) (hint : rows * columns ≤ 2 ^ 31) :
    FindsLongest arr rows columns := by
  intro fuel hfuel
  constructor
  · have hstart : Longest arr rows columns (passed columns 0 0) 0 := by
      intro m
      rw [Nat.le_zero]
      refine (or_iff_left ?_).symm
      rintro ⟨p, ⟨-, hp⟩, -⟩
      omega
    obtain ⟨n, hrun, h⟩ := gridLoop_eq hsize hint hfuel (Nat.zero_add rows) hstart
    exact ⟨n, hrun, h.isGreatest⟩
  · intro a ha b hb
    obtain ⟨n, hlen, -⟩ := getLen_eq hsize hint hfuel ha hb
    exact ⟨n, hlen⟩

/-- The array of `main`. -/
def mainArr : Block ℤ :=
  ⟨16, fun k => [0, 1, 1, 0, 0, 1, 1, 0, 0, 0, 0, 1, 0, 0, 0, 0].getD k 0⟩

theorem pathLen_findsLongest_mainArr : FindsLongest mainArr 4 4 :=
  pathLen_findsLongest mainArr 4 4 rfl (by decide)

example : pathLen 5 mainArr 4 4 = some 3 := by decide

/-- Two rows of ones. -/
def wide : Block ℤ := ⟨2 * (2 ^ 30 + 1), fun _ => 1⟩

theorem getLen_wide (fuel : ℕ) :
    getLen fuel wide 2 (2 ^ 30 + 1 : ℕ) (1 : ℕ) (2 ^ 30 : ℕ) = none := by
  have hcell : cellAt wide (2 ^ 30 + 1 : ℕ) (1 : ℕ) (2 ^ 30 : ℕ) = none :=
    cellAt_eq_none (by omega)
  have hscan : scan wide (2 ^ 30 + 1 : ℕ) (fun i _ => i < 2) 1 0 fuel (1 : ℕ) (2 ^ 30 : ℕ) 0 =
      none := by
    rcases fuel with - | fuel
    · rfl
    · rw [scan, if_pos (by decide), hcell]
      rfl
  rw [getLen, hscan]
  rfl

/-- **Too wide**: the index of the last cell is no `int`. -/
theorem not_findsLongest_wide :
    wide.size = 2 * (2 ^ 30 + 1) ∧ (∀ k, wide.cell k = 1) ∧
      ¬ FindsLongest wide 2 (2 ^ 30 + 1) := by
  refine ⟨rfl, fun _ => rfl, fun h => ?_⟩
  obtain ⟨-, hreads⟩ := h _ (Nat.lt_succ_self _)
  obtain ⟨len, hlen⟩ := hreads 1 (by omega) (2 ^ 30) (by omega)
  rw [Nat.cast_ofNat, getLen_wide] at hlen
  cases hlen

end PathLen

end CodeSnippet
