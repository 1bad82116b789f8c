/-
CodeSnippet/MatrixMultiplication.lean

`caculate` of src/exam/haier/matrixMultiplication.c: a matrix that is filled with
the numbers from `start` on, times its transpose.

The matrix has `rows * columns` elements, but `rows + columns` are allocated.  The
allocations are taken to succeed.

Main results:
  * `caculate_eq` — what is printed when the allocation suffices.
  * `caculate_product_iff` — when it does.
-/
import CodeSnippet.Grid
import CodeSnippet.Loop

namespace CodeSnippet

open Memory Block

namespace MatrixMultiplication

open Grid (rowMajor cellAt index_lt index_div index_mod rowMajor_eq cellAt_eq)
open Sorting (get put get_natCast put_natCast)
open Loop (upTo upTo_invariant upTo_rounds)

/-! ### Source -/

/-- `arr[i * columns + j] = start++;` -/
def fillCell (columns i j : ℕ) (s : Block ℤ × ℤ) : Option (Block ℤ × ℤ) := do
  let index ← rowMajor columns i j
  let arr ← put s.1 index s.2
  let start ← checkedInt (s.2 + 1)
  some (arr, start)

/-- The first loops: the array and `start`. -/
def fill (rows columns : ℕ) : Block ℤ × ℤ → Option (Block ℤ × ℤ) :=
  upTo rows fun i => upTo columns (fillCell columns i)

/-- `result[i * rows + j] += arr[i * columns + k] * arr[j * columns + k];` -/
def addProduct (arr : Block ℤ) (rows columns i j k : ℕ) (result : Block ℤ) : Option (Block ℤ) := do
  let index ← rowMajor rows i j
  let old ← get result index
  let x ← cellAt arr columns i k
  let y ← cellAt arr columns j k
  let product ← checkedInt (x * y)
  let sum ← checkedInt (old + product)
  put result index sum

def multiply (arr : Block ℤ) (rows columns : ℕ) : Block ℤ → Option (Block ℤ) :=
  upTo rows fun i => upTo rows fun j => upTo columns (addProduct arr rows columns i j)

/-- `printf("%d ", result[i * rows + j]);` -/
def printCell (result : Block ℤ) (rows i j : ℕ) (line : List ℤ) : Option (List ℤ) := do
  let v ← cellAt result rows i j
  some (line ++ [v])

/-- The last loops: the numbers on each line. -/
def print (result : Block ℤ) (rows : ℕ) : Option (List (List ℤ)) :=
  upTo rows (fun i lines => do
    let line ← upTo rows (printCell result rows i) []
    some (lines ++ [line])) []

/-- What is printed. -/
def caculate (start : ℤ) (rows columns : ℕ) : Option (List (List ℤ)) := do
  let size ← checkedInt (rows + columns)
  let (arr, _) ← fill rows columns (⟨size.toNat, fun _ => 0⟩, start)
  let size ← checkedInt (rows * rows)
  let result ← multiply arr rows columns ⟨size.toNat, fun _ => 0⟩
  print result rows

/-! ### The product -/

def IsInt (x : ℤ) : Prop := -2 ^ 31 ≤ x ∧ x < 2 ^ 31

instance (x : ℤ) : Decidable (IsInt x) := inferInstanceAs (Decidable (_ ∧ _))

/-- The element of the matrix at row `i` and column `k`. -/
def element (start : ℤ) (columns i k : ℕ) : ℤ := start + (i * columns + k : ℕ)

/-- The first `m` summands of an element of the product. -/
def partialSum (start : ℤ) (columns i j m : ℕ) : ℤ :=
  ∑ k ∈ Finset.range m, element start columns i k * element start columns j k

/-- The matrix times its transpose. -/
def product (start : ℤ) (rows columns : ℕ) : List (List ℤ) :=
  (List.range rows).map fun i => (List.range rows).map fun j => partialSum start columns i j columns

/-- No product and no sum that `caculate` computes overflows. -/
structure NoOverflow (start : ℤ) (rows columns : ℕ) : Prop where
  size : rows + columns < 2 ^ 31
  index : ∀ i < rows, ∀ j < columns, i * columns + j < 2 ^ 31
  resultSize : rows * rows < 2 ^ 31
  next : ∀ m ≤ rows * columns, IsInt (start + m)
  product : ∀ i < rows, ∀ j < rows, ∀ k < columns,
    IsInt (element start columns i k * element start columns j k)
  sum : ∀ i < rows, ∀ j < rows, ∀ m ≤ columns, IsInt (partialSum start columns i j m)

variable {start : ℤ} {rows columns size : ℕ}

/-! ### Filling -/

/-- The first `n` elements have been stored. -/
structure Filled (start : ℤ) (size n : ℕ) (s : Block ℤ × ℤ) : Prop where
  size_eq : s.1.size = size
  next : s.2 = start + n
  cells : ∀ p < n, s.1.cell p = start + p

theorem fillCell_eq (h : NoOverflow start rows columns) {i j : ℕ} (hi : i < rows)
    (hj : j < columns) (hsize : i * columns + j < size) {s : Block ℤ × ℤ}
    (hs : Filled start size (i * columns + j) s) :
    ∃ s', fillCell columns i j s = some s' ∧ Filled start size (i * columns + (j + 1)) s' := by
  have hint := h.next (i * columns + j + 1) (index_lt hi hj)
  have hstart : s.2 + 1 = start + (i * columns + j + 1 : ℕ) := by
    rw [hs.next, Nat.cast_succ, add_assoc]
  refine ⟨(s.1.set (i * columns + j) s.2, s.2 + 1), ?_, hs.size_eq, hstart, fun p hp => ?_⟩
  · rw [fillCell, rowMajor_eq (h.index i hi j hj)]
    show (put s.1 (i * columns + j : ℕ) s.2 >>= _) = _
    rw [put_natCast (by rw [hs.size_eq]; exact hsize)]
    show (checkedInt (s.2 + 1) >>= _) = _
    rw [hstart, checkedInt_eq hint.1 hint.2]
    rfl
  · show (if p = i * columns + j then s.2 else s.1.cell p) = start + p
    split_ifs with hlast
    · rw [hs.next, hlast]
    · exact hs.cells p (by omega)

theorem fill_eq (h : NoOverflow start rows columns) (hsize : rows * columns ≤ size) :
    ∃ s, fill rows columns (⟨size, fun _ => 0⟩, start) = some s ∧
      Filled start size (rows * columns) s := by
  apply upTo_invariant (P := fun i => Filled start size (i * columns))
  · refine ⟨rfl, ?_, fun p hp => ?_⟩
    · show start = start + (0 * columns : ℕ)
      rw [Nat.zero_mul, Nat.cast_zero, add_zero]
    · rw [Nat.zero_mul] at hp
      exact absurd hp p.not_lt_zero
  · intro i hi s hs
    rw [Nat.succ_mul]
    refine upTo_invariant (P := fun j => Filled start size (i * columns + j)) hs ?_
    intro j hj s hs
    exact fillCell_eq h hi hj ((index_lt hi hj).trans_le hsize) hs

/-! ### Multiplying -/

/-- The product up to `m` summands of the element at `n`. -/
structure Multiplied (start : ℤ) (rows columns n m : ℕ) (result : Block ℤ) : Prop where
  size_eq : result.size = rows * rows
  done : ∀ p < n, result.cell p = partialSum start columns (p / rows) (p % rows) columns
  current : result.cell n = partialSum start columns (n / rows) (n % rows) m
  rest : ∀ p, n < p → result.cell p = 0

theorem partialSum_succ (start : ℤ) (columns i j m : ℕ) :
    partialSum start columns i j (m + 1) =
      partialSum start columns i j m + element start columns i m * element start columns j m :=
  Finset.sum_range_succ _ m

variable {result : Block ℤ} {n : ℕ}

/-- On to the next element. -/
theorem Multiplied.advance (h : Multiplied start rows columns n columns result) :
    Multiplied start rows columns (n + 1) 0 result where
  size_eq := h.size_eq
  done p hp := by
    rcases Nat.eq_or_lt_of_le (Nat.le_of_lt_succ hp) with rfl | hlt
    · exact h.current
    · exact h.done p hlt
  current := h.rest (n + 1) n.lt_succ_self
  rest p hp := h.rest p (Nat.lt_of_succ_lt hp)

theorem addProduct_eq (h : NoOverflow start rows columns) (hsize : rows * columns ≤ size)
    {s : Block ℤ × ℤ} (hs : Filled start size (rows * columns) s) {i j k : ℕ} (hi : i < rows)
    (hj : j < rows) (hk : k < columns)
    (hresult : Multiplied start rows columns (i * rows + j) k result) :
    ∃ result', addProduct s.1 rows columns i j k result = some result' ∧
      Multiplied start rows columns (i * rows + j) (k + 1) result' := by
  have hindex := index_lt hi hj
  have hresultSize := h.resultSize
  have helement : ∀ i < rows, cellAt s.1 columns i k = some (element start columns i k) := by
    intro i hi
    have hlt := index_lt hi hk
    rw [cellAt_eq (by rw [hs.size_eq]; omega) (h.index i hi k hk), hs.cells _ hlt]
    rfl
  have hold := hresult.current
  rw [index_div i hj, index_mod i hj] at hold
  have hsize' : i * rows + j < result.size := by rw [hresult.size_eq]; exact hindex
  have hrow := rowMajor_eq (by omega : i * rows + j < 2 ^ 31)
  have hget := get_natCast hsize'
  have hproduct := h.product i hi j hj k hk
  have hsum := h.sum i hi j hj (k + 1) hk
  rw [partialSum_succ] at hsum
  refine ⟨result.set (i * rows + j) (partialSum start columns i j (k + 1)), ?_, ?_⟩
  · simp only [addProduct, hrow, hget, hold, helement i hi, helement j hj,
      checkedInt_eq hproduct.1 hproduct.2, checkedInt_eq hsum.1 hsum.2, put_natCast hsize',
      Option.bind_eq_bind, Option.bind_some, partialSum_succ]
  · refine ⟨hresult.size_eq, fun p hp => ?_, ?_, fun p hp => ?_⟩
    · rw [set_cell, if_neg hp.ne]
      exact hresult.done p hp
    · rw [set_cell, if_pos rfl, index_div i hj, index_mod i hj]
    · rw [set_cell, if_neg hp.ne']
      exact hresult.rest p hp

theorem multiply_eq (h : NoOverflow start rows columns) (hsize : rows * columns ≤ size)
    {s : Block ℤ × ℤ} (hs : Filled start size (rows * columns) s) :
    ∃ result, multiply s.1 rows columns ⟨rows * rows, fun _ => 0⟩ = some result ∧
      Multiplied start rows columns (rows * rows) 0 result := by
  apply upTo_invariant (P := fun i => Multiplied start rows columns (i * rows) 0)
  · refine ⟨rfl, fun p hp => ?_, rfl, fun _ _ => rfl⟩
    rw [Nat.zero_mul] at hp
    exact absurd hp p.not_lt_zero
  · intro i hi result hresult
    rw [Nat.succ_mul]
    refine upTo_invariant (P := fun j => Multiplied start rows columns (i * rows + j) 0) hresult ?_
    intro j hj result hresult
    obtain ⟨result', hrun, hresult'⟩ := upTo_invariant
      (P := fun k => Multiplied start rows columns (i * rows + j) k) hresult
      fun k hk result hresult => addProduct_eq h hsize hs hi hj hk hresult
    exact ⟨result', hrun, hresult'.advance⟩

/-! ### Printing -/

theorem printRow_eq (h : NoOverflow start rows columns)
    (hresult : Multiplied start rows columns (rows * rows) 0 result) {i : ℕ} (hi : i < rows) :
    upTo rows (printCell result rows i) [] =
      some ((List.range rows).map fun j => partialSum start columns i j columns) := by
  have hline : ∃ line, upTo rows (printCell result rows i) [] = some line ∧
      line = (List.range rows).map fun j => partialSum start columns i j columns := by
    apply upTo_invariant (P := fun j line =>
      line = (List.range j).map fun j => partialSum start columns i j columns) rfl
    rintro j hj _ rfl
    have hindex := index_lt hi hj
    have hresultSize := h.resultSize
    refine ⟨_, ?_, rfl⟩
    rw [printCell, cellAt_eq (by rw [hresult.size_eq]; exact hindex) (by omega),
      hresult.done _ hindex, index_div i hj, index_mod i hj, List.range_succ, List.map_append]
    rfl
  obtain ⟨line, hrun, rfl⟩ := hline
  exact hrun

theorem print_eq (h : NoOverflow start rows columns)
    (hresult : Multiplied start rows columns (rows * rows) 0 result) :
    print result rows = some (product start rows columns) := by
  have hlines : ∃ lines, print result rows = some lines ∧ lines = (List.range rows).map fun i =>
      (List.range rows).map fun j => partialSum start columns i j columns := by
    apply upTo_invariant (P := fun i lines => lines = (List.range i).map fun i =>
      (List.range rows).map fun j => partialSum start columns i j columns) rfl
    rintro i hi _ rfl
    refine ⟨_, ?_, rfl⟩
    rw [printRow_eq h hresult hi, List.range_succ, List.map_append]
    rfl
  obtain ⟨lines, hrun, rfl⟩ := hlines
  exact hrun

/-! ### The whole function -/

/-- **What is printed** when the allocation suffices. -/
theorem caculate_eq (h : NoOverflow start rows columns) (hfits : rows * columns ≤ rows + columns) :
    caculate start rows columns = some (product start rows columns) := by
  have hsize := h.size
  have hresultSize := h.resultSize
  have hrows : checkedInt ((rows : ℤ) + columns) = some ((rows + columns : ℕ) : ℤ) := by
    rw [← Nat.cast_add]
    exact checkedInt_eq (by omega) (by omega)
  have hsquare : checkedInt ((rows : ℤ) * rows) = some ((rows * rows : ℕ) : ℤ) := by
    rw [← Nat.cast_mul]
    exact checkedInt_eq (by omega) (by omega)
  obtain ⟨s, hfill, hs⟩ := fill_eq h hfits
  obtain ⟨result, hmultiply, hresult⟩ := multiply_eq h hfits hs
  simp only [caculate, hrows, hsquare, Int.toNat_natCast, hfill, hmultiply, Option.bind_eq_bind,
    Option.bind_some]
  exact print_eq h hresult

/-- A store keeps the number of cells. -/
theorem fillCell_size {i j : ℕ} {s s' : Block ℤ × ℤ} (h : fillCell columns i j s = some s') :
    s'.1.size = s.1.size := by
  rw [fillCell] at h
  obtain ⟨index, -, h⟩ := Option.bind_eq_some_iff.mp h
  obtain ⟨arr, hput, h⟩ := Option.bind_eq_some_iff.mp h
  obtain ⟨start, -, h⟩ := Option.bind_eq_some_iff.mp h
  obtain ⟨-, hstore⟩ := Option.ite_none_right_eq_some.mp hput
  obtain ⟨-, rfl⟩ := store_eq_some_iff.mp hstore
  cases h
  rfl

/-- A store that is defined is inside. -/
theorem fillCell_lt (h : NoOverflow start rows columns) {i j : ℕ} (hi : i < rows) (hj : j < columns)
    {s s' : Block ℤ × ℤ} (hrun : fillCell columns i j s = some s') :
    i * columns + j < s.1.size := by
  rw [fillCell] at hrun
  obtain ⟨index, hindex, hrun⟩ := Option.bind_eq_some_iff.mp hrun
  rw [rowMajor_eq (h.index i hi j hj)] at hindex
  cases hindex
  obtain ⟨arr, hput, -⟩ := Option.bind_eq_some_iff.mp hrun
  obtain ⟨-, hstore⟩ := Option.ite_none_right_eq_some.mp hput
  exact (store_eq_some_iff.mp hstore).1

/-- **The last element** of the matrix is stored inside the array. -/
theorem fits_of_fill (h : NoOverflow start rows columns) (hrows : 1 ≤ rows) (hcolumns : 1 ≤ columns)
    {s s' : Block ℤ × ℤ} (hrun : fill rows columns s = some s') : rows * columns ≤ s.1.size := by
  have hrow : ∀ i < rows, ∀ t t', t.1.size = s.1.size →
      upTo columns (fillCell columns i) t = some t' →
      t'.1.size = s.1.size ∧ ∀ j < columns, i * columns + j < s.1.size := by
    intro i hi t t' ht hrun
    obtain ⟨ht', hrounds⟩ := upTo_rounds (P := fun t : Block ℤ × ℤ => t.1.size = s.1.size)
      (fun j _ t t' ht hstep => (fillCell_size hstep).trans ht) ht hrun
    refine ⟨ht', fun j hj => ?_⟩
    obtain ⟨t, t', ht, hstep⟩ := hrounds j hj
    rw [← ht]
    exact fillCell_lt h hi hj hstep
  -- the stores do not change the size, with which the last index is compared
  obtain ⟨-, hrounds⟩ := upTo_rounds (P := fun t : Block ℤ × ℤ => t.1.size = s.1.size)
    (fun i hi t t' ht hstep => (hrow i hi t t' ht hstep).1) rfl hrun
  obtain ⟨t, t', ht, hstep⟩ := hrounds (rows - 1) (by omega)
  have hlast := (hrow (rows - 1) (by omega) t t' ht hstep).2 (columns - 1) (by omega)
  have hindex : rows * columns = (rows - 1) * columns + columns := by
    rw [← Nat.succ_mul, Nat.succ_eq_add_one, Nat.sub_add_cancel hrows]
  omega

/-- When the sum of two numbers is not smaller than their product. -/
theorem mul_le_add_iff (hrows : 1 ≤ rows) (hcolumns : 1 ≤ columns) :
    rows * columns ≤ rows + columns ↔ rows = 1 ∨ columns = 1 ∨ rows = 2 ∧ columns = 2 := by
  obtain ⟨a, rfl⟩ := Nat.exists_eq_add_of_le' hrows
  obtain ⟨b, rfl⟩ := Nat.exists_eq_add_of_le' hcolumns
  have hproduct : (a + 1) * (b + 1) = a * b + a + b + 1 := by ring
  constructor
  · intro hle
    rcases Nat.eq_zero_or_pos a with rfl | ha
    · exact .inl rfl
    rcases Nat.eq_zero_or_pos b with rfl | hb
    · exact .inr (.inl rfl)
    have hone : a * b ≤ 1 := by omega
    have ha' := (Nat.le_mul_of_pos_right a hb).trans hone
    have hb' := (Nat.le_mul_of_pos_left b ha).trans hone
    omega
  · rintro (h | h | ⟨ha, hb⟩)
    · obtain rfl : a = 0 := by omega
      omega
    · obtain rfl : b = 0 := by omega
      omega
    · obtain rfl : a = 1 := by omega
      obtain rfl : b = 1 := by omega
      decide

/-- **`caculate` prints the product** exactly when the matrix has one row, one
column, or two of both. -/
theorem caculate_product_iff (start : ℤ) (rows columns : ℕ) (hrows : 1 ≤ rows)
    (hcolumns : 1 ≤ columns) (h : NoOverflow start rows columns) :
    caculate start rows columns = some (product start rows columns) ↔
      rows = 1 ∨ columns = 1 ∨ rows = 2 ∧ columns = 2 := by
  rw [← mul_le_add_iff hrows hcolumns]
  refine ⟨fun hrun => ?_, caculate_eq h⟩
  rw [caculate] at hrun
  obtain ⟨size, hadd, hrun⟩ := Option.bind_eq_some_iff.mp hrun
  obtain ⟨⟨arr, last⟩, hfill, -⟩ := Option.bind_eq_some_iff.mp hrun
  obtain ⟨-, rfl⟩ := checkedInt_eq_some_iff.mp hadd
  have hfits := fits_of_fill h hrows hcolumns hfill
  rwa [← Nat.cast_add, Int.toNat_natCast] at hfits

/-- The call in `main`. -/
theorem caculate_product_iff_main :
    caculate 1 2 2 = some (product 1 2 2) ↔ 2 = 1 ∨ 2 = 1 ∨ 2 = 2 ∧ 2 = 2 :=
  caculate_product_iff 1 2 2 (by decide) (by decide)
    ⟨by decide, by decide, by decide, by decide, by decide, by decide⟩

/-- **Two rows of three**: the last element has index 5 in an array of five. -/
theorem not_caculate_product :
    NoOverflow 1 2 3 ∧ caculate 1 2 3 ≠ some (product 1 2 3) := by
  refine ⟨⟨by decide, by decide, by decide, by decide, by decide, by decide⟩, ?_⟩
  have hnone : caculate 1 2 3 = none := by decide
  rw [hnone]
  exact (Option.some_ne_none _).symm

end MatrixMultiplication

end CodeSnippet
