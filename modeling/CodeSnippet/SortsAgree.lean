/-
CodeSnippet/SortsAgree.lean

`bubble_sort` and `insert_sort` of src/algorithm/sort/sort.c.  Both rearrange the
array into ascending order, as `quick_sort` does, and there is only one such
order.

Main results:
  * `bubbleSort_eq`, `insertSort_eq` — each of them sorts.
  * `sorts_agree` — all three leave the same array.
-/
import CodeSnippet.QuickSort

namespace CodeSnippet

open Memory Block

namespace Sorting

/-! ### Source -/

def swap (arr : Block ℤ) (i j : ℕ) : Option (Block ℤ) := do
  let tmp ← arr.load i
  let v ← arr.load j
  let arr ← arr.store i v
  arr.store j tmp

/-- The inner loop of `bubble_sort` from `j` on, with `m` rounds left: the array
and `flag`. -/
def bubblePass : ℕ → ℕ → Block ℤ → Bool → Option (Block ℤ × Bool)
  | 0, _, arr, flag => some (arr, flag)
  | m + 1, j, arr, flag => do
      let x ← arr.load j
      let y ← arr.load (j + 1)
      if x > y then do
        let arr ← swap arr j (j + 1)
        bubblePass m (j + 1) arr true
      else bubblePass m (j + 1) arr flag

/-- The outer loop from `i` on, with `m` rounds left. -/
def bubbleLoop (n : ℕ) : ℕ → ℕ → Block ℤ → Option (Block ℤ)
  | 0, _, arr => some arr
  | m + 1, i, arr => do
      let (arr, flag) ← bubblePass (n - i - 1) 0 arr false
      if flag = false then some arr else bubbleLoop n m (i + 1) arr

def bubbleSort (arr : Block ℤ) (n : ℕ) : Option (Block ℤ) :=
  if n < 1 then some arr else bubbleLoop n n 0 arr

/-- `for (j = i; j > 0 && temp < arr[j - 1]; j--) arr[j] = arr[j - 1];`: the
array and `j`. -/
def insertLoop (temp : ℤ) : ℕ → Block ℤ → Option (Block ℤ × ℕ)
  | 0, arr => some (arr, 0)
  | j + 1, arr => do
      let v ← arr.load j
      if temp < v then do
        let arr ← arr.store (j + 1) v
        insertLoop temp j arr
      else some (arr, j + 1)

/-- The outer loop of `insert_sort` from `i` on, with `m` rounds left. -/
def insertFrom : ℕ → ℕ → Block ℤ → Option (Block ℤ)
  | 0, _, arr => some arr
  | m + 1, i, arr => do
      let temp ← arr.load i
      let (arr, j) ← insertLoop temp i arr
      let arr ← arr.store j temp
      insertFrom m (i + 1) arr

def insertSort (arr : Block ℤ) (n : ℕ) : Option (Block ℤ) := insertFrom (n - 1) 1 arr

/-! ### Bubble sort -/

theorem swap_eq {arr : Block ℤ} {i j : ℕ} (hi : i < arr.size) (hj : j < arr.size) :
    swap arr i j = some (arr.exchange i j) := by
  rw [swap, load_eq hi, load_eq hj]
  show (arr.store i (arr.cell j) >>= _) = _
  rw [store_eq hi]
  show (arr.set i (arr.cell j)).store j (arr.cell i) = _
  exact store_eq (b := arr.set i (arr.cell j)) hj _

theorem bubblePass_succ {m j : ℕ} {arr : Block ℤ} {flag : Bool} (h : j + 1 < arr.size) :
    bubblePass (m + 1) j arr flag =
      if arr.cell j > arr.cell (j + 1) then
        swap arr j (j + 1) >>= fun arr => bubblePass m (j + 1) arr true
      else bubblePass m (j + 1) arr flag := by
  rw [bubblePass, load_eq (by omega), load_eq h]
  rfl

/-- An exchange carries the largest cell on. -/
theorem exchange_max {j : ℕ} {arr : Block ℤ} (hgt : arr.cell j > arr.cell (j + 1))
    (hmax : ∀ k ≤ j, arr.cell k ≤ arr.cell j) :
    ∀ k ≤ j + 1, (arr.exchange j (j + 1)).cell k ≤ (arr.exchange j (j + 1)).cell (j + 1) := by
  intro k hk
  have hcell : ∀ i, (arr.exchange j (j + 1)).cell i =
      if i = j + 1 then arr.cell j else if i = j then arr.cell (j + 1) else arr.cell i :=
    fun i => rfl
  rw [hcell, hcell, if_pos rfl]
  split_ifs with hk₁ hk₂
  · exact le_rfl
  · exact hgt.le
  · exact hmax k (by omega)

/-- **One pass** brings the largest cell to its end.  A pass that has exchanged
nothing has found all neighbours in order. -/
theorem bubblePass_eq {m j : ℕ} {arr : Block ℤ} (flag : Bool) (hsize : j + m < arr.size)
    (hmax : ∀ k ≤ j, arr.cell k ≤ arr.cell j) :
    ∃ arr' flag', bubblePass m j arr flag = some (arr', flag') ∧
      Rearranged (Set.Iic (j + m)) arr arr' ∧ (∀ k ≤ j + m, arr'.cell k ≤ arr'.cell (j + m)) ∧
      (flag' = false → flag = false ∧ arr' = arr ∧
        ∀ k, j ≤ k → k < j + m → arr.cell k ≤ arr.cell (k + 1)) := by
  induction m generalizing j arr flag with
  | zero =>
      refine ⟨arr, flag, rfl, Rearranged.refl _ arr, hmax, fun hflag => ⟨hflag, rfl, ?_⟩⟩
      exact fun k hk hk' => absurd hk' (not_lt.mpr hk)
  | succ m ih =>
      have hend : j + (m + 1) = j + 1 + m := by omega
      rw [bubblePass_succ (by omega), hend]
      by_cases hgt : arr.cell j > arr.cell (j + 1)
      · rw [if_pos hgt, swap_eq (by omega) (by omega)]
        have hmax' := exchange_max hgt hmax
        obtain ⟨arr', flag', hpass, hmoved, hlast, hflag⟩ :=
          ih true (by show j + 1 + m < arr.size; omega) hmax'
        refine ⟨arr', flag', hpass, ?_, hlast, fun h => nomatch (hflag h).1⟩
        apply Rearranged.trans _ hmoved
        exact Rearranged.exchange arr (Set.mem_Iic.mpr (by omega)) (Set.mem_Iic.mpr (by omega))
      · rw [if_neg hgt]
        have hmax' : ∀ k ≤ j + 1, arr.cell k ≤ arr.cell (j + 1) := by
          intro k hk
          rcases Nat.eq_or_lt_of_le hk with rfl | hk
          · exact le_rfl
          · exact (hmax k (Nat.le_of_lt_succ hk)).trans (not_lt.mp hgt)
        obtain ⟨arr', flag', hpass, hmoved, hlast, hflag⟩ := ih flag (by omega) hmax'
        refine ⟨arr', flag', hpass, hmoved, hlast, fun h => ?_⟩
        obtain ⟨hfalse, hsame, hle⟩ := hflag h
        refine ⟨hfalse, hsame, fun k hk hk' => ?_⟩
        rcases Nat.eq_or_lt_of_le hk with rfl | hk
        · exact not_lt.mp hgt
        · exact hle k hk hk'

/-- A pass over the first cells settles the last of them. -/
theorem settled_of_pass {m n : ℕ} {arr arr' : Block ℤ}
    (hmoved : Rearranged (Set.Iic m) arr arr') (hlast : ∀ k ≤ m, arr'.cell k ≤ arr'.cell m)
    (hsettled : ∀ b, m + 1 ≤ b → b < n → ∀ a ≤ b, arr.cell a ≤ arr.cell b) :
    ∀ b, m ≤ b → b < n → ∀ a ≤ b, arr'.cell a ≤ arr'.cell b := by
  intro b hmb hb a hab
  rcases Nat.eq_or_lt_of_le hmb with rfl | hmb
  · exact hlast a hab
  · rw [hmoved.cell_eq (i := b) (not_le.mpr hmb)]
    rcases Nat.lt_or_ge m a with hma | ham
    · rw [hmoved.cell_eq (i := a) (not_le.mpr hma)]
      exact hsettled b hmb hb a hab
    · have hbound : ∀ k ∈ Set.Iic m, arr.cell k ≤ arr.cell b := by
        intro k hk
        exact hsettled b hmb hb k (le_trans hk hmb.le)
      exact hmoved.forall_cell (P := fun v => v ≤ arr.cell b) hbound a ham

/-- **The passes**: from `m` on no cell is smaller than one before it. -/
theorem bubbleLoop_eq {n m i : ℕ} {arr : Block ℤ} (hn : i + m = n) (hsize : n ≤ arr.size)
    (hsettled : ∀ b, m ≤ b → b < n → ∀ a ≤ b, arr.cell a ≤ arr.cell b) :
    ∃ arr', bubbleLoop n m i arr = some arr' ∧ Rearranged (Set.Iio n) arr arr' ∧
      MonotoneOn arr'.cell (Set.Iio n) := by
  induction m generalizing i arr with
  | zero =>
      refine ⟨arr, rfl, Rearranged.refl _ arr, fun a _ b hb hab => ?_⟩
      exact hsettled b (Nat.zero_le b) hb a hab
  | succ m ih =>
      obtain ⟨arr₁, flag, hpass, hmoved, hlast, hflag⟩ :=
        bubblePass_eq (m := m) (j := 0) false (by omega : 0 + m < arr.size)
          (fun k hk => by rw [Nat.le_zero.mp hk])
      rw [Nat.zero_add] at hmoved hlast
      have hcount : n - i - 1 = m := by omega
      rw [bubbleLoop, hcount, hpass]
      show ∃ arr', (if flag = false then some arr₁ else bubbleLoop n m (i + 1) arr₁) = some arr' ∧ _
      have hinto : Set.Iic m ⊆ Set.Iio n := Set.Iic_subset_Iio.mpr (by omega)
      cases flag with
      | false =>
          -- nothing was exchanged
          obtain ⟨-, rfl, hle⟩ := hflag rfl
          have hfirst : MonotoneOn arr₁.cell (Set.Icc 0 m) :=
            monotoneOn_of_le_succ fun k _ hk => hle k (Nat.zero_le k) (by omega)
          refine ⟨arr₁, rfl, Rearranged.refl _ arr₁, fun a _ b hb hab => ?_⟩
          rcases Nat.lt_or_ge m b with hmb | hbm
          · exact hsettled b hmb hb a hab
          · exact hfirst ⟨Nat.zero_le a, hab.trans hbm⟩ ⟨Nat.zero_le b, hbm⟩ hab
      | true =>
          have hsettled' := settled_of_pass hmoved hlast hsettled
          obtain ⟨arr', hloop, hmoved', hsorted⟩ :=
            ih (by omega : i + 1 + m = n) (hmoved.size_eq.symm ▸ hsize) hsettled'
          exact ⟨arr', hloop, (hmoved.mono hinto).trans hmoved', hsorted⟩

theorem bubbleSort_eq (arr : Block ℤ) :
    ∃ arr', bubbleSort arr arr.size = some arr' ∧ Rearranged (Set.Iio arr.size) arr arr' ∧
      MonotoneOn arr'.cell (Set.Iio arr.size) := by
  rw [bubbleSort]
  by_cases hn : arr.size < 1
  · rw [if_pos hn]
    refine ⟨arr, rfl, Rearranged.refl _ arr, fun a _ b hb _ => ?_⟩
    have hb : b < arr.size := hb
    omega
  · rw [if_neg hn]
    exact bubbleLoop_eq (Nat.zero_add _) le_rfl fun b hb hb' => absurd hb' (not_lt.mpr hb)

/-! ### Insertion sort -/

/-- The first `i + 1` cells of `orig` while `temp` is being inserted: the others
are in ascending order around the hole at `j`, and those behind it are larger
than `temp`. -/
structure Gap (orig : Block ℤ) (temp : ℤ) (i j : ℕ) (arr : Block ℤ) : Prop where
  le : j ≤ i
  around : ∀ a b, a ≤ b → b ≤ i → a ≠ j → b ≠ j → arr.cell a ≤ arr.cell b
  behind : ∀ k, j < k → k ≤ i → temp < arr.cell k
  filled : Rearranged (Set.Iic i) orig (arr.set j temp)

namespace Gap

variable {orig arr : Block ℤ} {temp : ℤ} {i j : ℕ}

theorem size_eq (h : Gap orig temp i j arr) : arr.size = orig.size := h.filled.size_eq

/-- A larger cell goes up into the hole. -/
theorem move (h : Gap orig temp i (j + 1) arr) (hlt : temp < arr.cell j) :
    Gap orig temp i j (arr.set (j + 1) (arr.cell j)) where
  le := Nat.le_of_succ_le h.le
  around a b hab hb haj hbj := by
    have hle := h.le
    rw [set_cell, set_cell]
    split_ifs with ha hb'
    · exact le_rfl
    · exact h.around j b (by omega) hb (by omega) hb'
    · exact h.around a j (by omega) (by omega) ha (by omega)
    · exact h.around a b hab hb ha (by assumption)
  behind k hk hk' := by
    rw [set_cell]
    split_ifs with hkj
    · exact hlt
    · exact h.behind k (by omega) hk'
  filled :=
    h.filled.moveHole (Set.mem_Iic.mpr h.le) (Set.mem_Iic.mpr (Nat.le_of_succ_le h.le))
      (Nat.succ_ne_self j)

/-- Where the loop stops, `temp` fits. -/
theorem sorted (h : Gap orig temp i j arr) (hbefore : ∀ k < j, arr.cell k ≤ temp) :
    MonotoneOn (arr.set j temp).cell (Set.Iio (i + 1)) := by
  intro a ha b hb hab
  have hb : b ≤ i := Nat.le_of_lt_succ hb
  rw [set_cell, set_cell]
  split_ifs with haj hbj hbj
  · exact le_rfl
  · exact (h.behind b (by omega) hb).le
  · exact hbefore a (by omega)
  · exact h.around a b hab hb haj hbj

/-- **The inner loop.** -/
theorem insertLoop_eq (h : Gap orig temp i j arr) (hsize : i < orig.size) :
    ∃ arr' p, insertLoop temp j arr = some (arr', p) ∧ Gap orig temp i p arr' ∧
      ∀ k < p, arr'.cell k ≤ temp := by
  induction j generalizing arr with
  | zero => exact ⟨arr, 0, rfl, h, fun k hk => absurd hk (Nat.not_lt_zero k)⟩
  | succ j ih =>
      have hle := h.le
      have hsame := h.size_eq
      rw [insertLoop, load_eq (by omega)]
      show ∃ arr' p, (if temp < arr.cell j then _ else _) = _ ∧ _
      by_cases hlt : temp < arr.cell j
      · rw [if_pos hlt, store_eq (by omega)]
        exact ih (h.move hlt)
      · rw [if_neg hlt]
        refine ⟨arr, j + 1, rfl, h, fun k hk => ?_⟩
        have hkj := h.around k j (by omega) (by omega) (by omega) (by omega)
        exact hkj.trans (not_lt.mp hlt)

end Gap

/-- **The insertions**: the first `i` cells are in ascending order. -/
theorem insertFrom_eq {m i : ℕ} {arr : Block ℤ} (hsize : i + m ≤ arr.size)
    (hsorted : MonotoneOn arr.cell (Set.Iio i)) :
    ∃ arr', insertFrom m i arr = some arr' ∧ Rearranged (Set.Iio (i + m)) arr arr' ∧
      MonotoneOn arr'.cell (Set.Iio (i + m)) := by
  induction m generalizing i arr with
  | zero => exact ⟨arr, rfl, Rearranged.refl _ arr, hsorted⟩
  | succ m ih =>
      have hstart : Gap arr (arr.cell i) i i arr := by
        refine ⟨le_rfl, fun a b hab hb ha hb' => ?_, fun k hk hk' => ?_, ?_⟩
        · exact hsorted (Set.mem_Iio.mpr (by omega)) (Set.mem_Iio.mpr (by omega)) hab
        · exact absurd hk' (not_le.mpr hk)
        · rw [set_self]
          exact Rearranged.refl _ arr
      obtain ⟨arr₁, p, hloop, hgap, hbefore⟩ := hstart.insertLoop_eq (by omega)
      have hp := hgap.le
      have hsame := hgap.size_eq
      have hend : i + (m + 1) = i + 1 + m := by omega
      rw [insertFrom, load_eq (by omega)]
      show ∃ arr', (insertLoop (arr.cell i) i arr >>= _) = _ ∧ _
      rw [hloop]
      show ∃ arr', (arr₁.store p (arr.cell i) >>= _) = _ ∧ _
      rw [store_eq (by omega), hend]
      have hsize' : i + 1 + m ≤ (arr₁.set p (arr.cell i)).size := by
        rw [set_size]
        omega
      obtain ⟨arr', hrest, hmoved, hsorted'⟩ := ih hsize' (hgap.sorted hbefore)
      refine ⟨arr', hrest, Rearranged.trans (hgap.filled.mono ?_) hmoved, hsorted'⟩
      exact Set.Iic_subset_Iio.mpr (by omega)

/-- The first `n` cells are sorted. -/
theorem insertSort_first {arr : Block ℤ} {n : ℕ} (hsize : n ≤ arr.size) :
    ∃ arr', insertSort arr n = some arr' ∧ Rearranged (Set.Iio n) arr arr' ∧
      MonotoneOn arr'.cell (Set.Iio n) := by
  rw [insertSort]
  rcases Nat.eq_zero_or_pos n with rfl | hn
  · refine ⟨arr, rfl, Rearranged.refl _ arr, fun a _ b hb _ => ?_⟩
    exact absurd hb (Nat.not_lt_zero b)
  · have hend : 1 + (n - 1) = n := by omega
    have hfirst : MonotoneOn arr.cell (Set.Iio 1) := by
      intro a ha b hb _
      rw [Nat.lt_one_iff.mp ha, Nat.lt_one_iff.mp hb]
    have hsort := insertFrom_eq (hend.trans_le hsize) hfirst
    rw [hend] at hsort
    exact hsort

theorem insertSort_eq (arr : Block ℤ) :
    ∃ arr', insertSort arr arr.size = some arr' ∧ Rearranged (Set.Iio arr.size) arr arr' ∧
      MonotoneOn arr'.cell (Set.Iio arr.size) :=
  insertSort_first le_rfl

/-! ### Agreement -/

/-- **The three sorts agree.** -/
theorem sorts_agree (arr : Block ℤ) (fuel : ℕ) (hfuel : arr.size < fuel) :
    ∃ bubbled inserted sorted, bubbleSort arr arr.size = some bubbled ∧
      insertSort arr arr.size = some inserted ∧ quickSort fuel arr arr.size = some sorted ∧
      bubbled.cells 0 arr.size = sorted.cells 0 arr.size ∧
      inserted.cells 0 arr.size = sorted.cells 0 arr.size := by
  obtain ⟨bubbled, hbubble, hmoved, hsorted⟩ := bubbleSort_eq arr
  obtain ⟨inserted, hinsert, hmoved', hsorted'⟩ := insertSort_eq arr
  obtain ⟨sorted, hquick, hmoved'', hsorted''⟩ := quickSort_eq hfuel
  refine ⟨bubbled, inserted, sorted, hbubble, hinsert, hquick, ?_, ?_⟩
  · exact cells_eq_of_sorted hmoved hmoved'' (fun _ hi => hi) hsorted hsorted''
  · exact cells_eq_of_sorted hmoved' hmoved'' (fun _ hi => hi) hsorted' hsorted''

theorem sorts_agree_testArr :
    ∃ bubbled inserted sorted, bubbleSort testArr testArr.size = some bubbled ∧
      insertSort testArr testArr.size = some inserted ∧
      quickSort 10 testArr testArr.size = some sorted ∧
      bubbled.cells 0 testArr.size = sorted.cells 0 testArr.size ∧
      inserted.cells 0 testArr.size = sorted.cells 0 testArr.size :=
  sorts_agree testArr 10 (Nat.lt_succ_self 9)

end Sorting

end CodeSnippet
