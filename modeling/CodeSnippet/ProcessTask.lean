/-
CodeSnippet/ProcessTask.lean

The scheduler of src/exam/huawei/processTask.c.  `caculate` sorts the `n` times
and gives each to the processor that is free first; with `m >= n` it returns the
longest time at once.

The loop is a greedy run in the sense of ListScheduling.lean: the first `m`
times go to processors that are still free, and `min` finds the least load for
every other one.

Main results:
  * `caculate_exact` — the total time, as a sum of every `m`th time and as the
    largest finishing time of any greedy run.
-/
import CodeSnippet.CInt
import CodeSnippet.ListScheduling
import CodeSnippet.SortsAgree

namespace CodeSnippet

open Memory Block Scheduling

namespace ProcessTask

/-! ### Source -/

/-- `sort` is `insert_sort` of src/algorithm/sort/sort.c. -/
def sort (s : Block ℤ) (n : ℕ) : Option (Block ℤ) := Sorting.insertSort s n

section Index

variable (r : ℤ → ℤ → Prop) [DecidableRel r]

/-- The loop of `min` and `max` from `i` on, with `k` rounds left. -/
def indexFrom (s : Block ℤ) : ℕ → ℕ → ℕ → Option ℕ
  | 0, _, index => some index
  | k + 1, i, index => do
      let x ← s.load i
      let y ← s.load index
      indexFrom s k (i + 1) (if r x y then i else index)

end Index

def min (s : Block ℤ) (n : ℕ) : Option ℕ := indexFrom (· < ·) s (n - 1) 1 0

def max (s : Block ℤ) (n : ℕ) : Option ℕ := indexFrom (· > ·) s (n - 1) 1 0

/-- `tm[i] = s[i];` from `i` on, `k` times. -/
def firstTimes (s : Block ℤ) : ℕ → ℕ → Block ℤ → Option (Block ℤ)
  | 0, _, tm => some tm
  | k + 1, i, tm => do
      let v ← s.load i
      let tm ← tm.store i v
      firstTimes s k (i + 1) tm

/-- `tm[min(tm, m)] += s[i];` from `i` on, `k` times. -/
def otherTimes (m : ℕ) (s : Block ℤ) : ℕ → ℕ → Block ℤ → Option (Block ℤ)
  | 0, _, tm => some tm
  | k + 1, i, tm => do
      let index ← min tm m
      let load ← tm.load index
      let v ← s.load i
      let sum ← checkedInt (load + v)
      let tm ← tm.store index sum
      otherTimes m s k (i + 1) tm

/-- The result, and the array afterwards. -/
def caculate (m n : ℕ) (s : Block ℤ) : Option (ℤ × Block ℤ) := do
  let tm : Block ℤ := ⟨128, fun _ => 0⟩
  let s ← sort s n
  if m ≥ n then
    -- without a time, `s[n - 1]` is in front of the array
    if n = 0 then none
    else do
      let ret ← s.load (n - 1)
      some (ret, s)
  else do
    let tm ← firstTimes s m 0 tm
    let tm ← otherTimes m s (n - m) m tm
    let index ← max tm m
    let ret ← tm.load index
    some (ret, s)

/-! ### The functions -/

section Index

variable {r : ℤ → ℤ → Prop} [DecidableRel r] [IsStrictOrder ℤ r] {s : Block ℤ}

/-- No cell seen so far is better than the one found. -/
theorem indexFrom_eq {k i index : ℕ} (hsize : i + k ≤ s.size) (hindex : index < i)
    (hbest : ∀ j < i, ¬ r (s.cell j) (s.cell index)) :
    ∃ best, indexFrom r s k i index = some best ∧ best < i + k ∧
      ∀ j < i + k, ¬ r (s.cell j) (s.cell best) := by
  induction k generalizing i index with
  | zero => exact ⟨index, rfl, hindex, hbest⟩
  | succ k ih =>
      have hnext : i + (k + 1) = i + 1 + k := by omega
      rw [indexFrom, load_eq (by omega), load_eq (by omega), hnext]
      show ∃ best, indexFrom r s k (i + 1) (if r (s.cell i) (s.cell index) then i else index) =
        some best ∧ _
      split
      · rename_i hbetter
        refine ih (by omega) i.lt_succ_self fun j hj hji => ?_
        rcases Nat.lt_succ_iff_lt_or_eq.mp hj with hlt | rfl
        · exact hbest j hlt (trans_of r hji hbetter)
        · exact irrefl_of r _ hji
      · rename_i hworse
        refine ih (by omega) (by omega) fun j hj => ?_
        rcases Nat.lt_succ_iff_lt_or_eq.mp hj with hlt | rfl
        · exact hbest j hlt
        · exact hworse

theorem index_eq {n : ℕ} (hn : 1 ≤ n) (hsize : n ≤ s.size) :
    ∃ best, indexFrom r s (n - 1) 1 0 = some best ∧ best < n ∧
      ∀ j < n, ¬ r (s.cell j) (s.cell best) := by
  have hend : 1 + (n - 1) = n := by omega
  have hrun := indexFrom_eq (r := r) (k := n - 1) (hend.trans_le hsize) one_pos fun j hj => by
    rw [Nat.lt_one_iff.mp hj]
    exact irrefl_of r _
  rw [hend] at hrun
  exact hrun

end Index

/-! ### The loops -/

section Loops

variable {m n k i : ℕ} {s tm : Block ℤ}

/-- What the processors have to do. -/
def loads (m : ℕ) (tm : Block ℤ) : Fin m → ℤ := fun j => tm.cell j

theorem loads_set (tm : Block ℤ) (i : Fin m) (v : ℤ) :
    loads m (tm.set i v) = Function.update (loads m tm) i v := by
  funext j
  rw [loads, set_cell, Function.update_apply]
  simp only [Fin.val_inj]
  rfl

/-- **The first times** go to processors that are free. -/
theorem firstTimes_eq (hm : m ≤ tm.size) (hk : i + k ≤ m) (hsize : m ≤ s.size)
    (hnonneg : ∀ i < m, 0 ≤ s.cell i) (hgreedy : Greedy m s.cell i (loads m tm))
    (hfree : ∀ j, i ≤ j → tm.cell j = 0) :
    ∃ tm', firstTimes s k i tm = some tm' ∧ tm'.size = tm.size ∧
      Greedy m s.cell (i + k) (loads m tm') := by
  induction k generalizing i tm with
  | zero => exact ⟨tm, rfl, rfl, hgreedy⟩
  | succ k ih =>
      have hnext : i + (k + 1) = i + 1 + k := by omega
      have hfree_i := hfree i le_rfl
      rw [firstTimes, load_eq (by omega), hnext]
      show ∃ tm', (tm.store i (s.cell i) >>= _) = some tm' ∧ _
      rw [store_eq (by omega)]
      have hsize' : m ≤ (tm.set i (s.cell i)).size := hm
      apply ih hsize' (by omega)
      · -- no load is less than none
        have hload : loads m tm ⟨i, by omega⟩ = 0 := hfree_i
        have hassign := hgreedy.assign ⟨i, by omega⟩ fun j => by
          rw [hload]
          exact hgreedy.nonneg (fun i hi => hnonneg i (by omega)) j
        rw [hload, zero_add, ← loads_set] at hassign
        exact hassign
      · intro j hj
        rw [set_cell, if_neg (by omega)]
        exact hfree j (by omega)

/-- **The other times** go to the processor that `min` finds. -/
theorem otherTimes_eq (hm : 1 ≤ m) (htm : m ≤ tm.size) (hk : i + k ≤ n) (hsize : n ≤ s.size)
    (hnonneg : ∀ i < n, 0 ≤ s.cell i) (hsum : ∑ i ∈ Finset.range n, s.cell i < 2 ^ 31)
    (hgreedy : Greedy m s.cell i (loads m tm)) :
    ∃ tm', otherTimes m s k i tm = some tm' ∧ tm'.size = tm.size ∧
      Greedy m s.cell (i + k) (loads m tm') := by
  induction k generalizing i tm with
  | zero => exact ⟨tm, rfl, rfl, hgreedy⟩
  | succ k ih =>
      have hnext : i + (k + 1) = i + 1 + k := by omega
      obtain ⟨best, hmin, hbest, hleast⟩ := index_eq (r := (· < ·)) hm htm
      have hassign := hgreedy.assign ⟨best, hbest⟩ fun j => not_lt.mp (hleast j j.isLt)
      have hload : loads m tm ⟨best, hbest⟩ = tm.cell best := rfl
      rw [hload] at hassign
      -- the new load is part of the work up to `i`
      have hbound : tm.cell best + s.cell i < 2 ^ 31 := by
        have hle := hassign.load_le (fun j hj => hnonneg j (by omega)) ⟨best, hbest⟩
        rw [Function.update_self] at hle
        have hmono : ∑ j ∈ Finset.range (i + 1), s.cell j ≤ ∑ j ∈ Finset.range n, s.cell j := by
          apply Finset.sum_le_sum_of_subset_of_nonneg
          · exact Finset.range_mono (by omega)
          · exact fun j hj _ => hnonneg j (Finset.mem_range.mp hj)
        exact (hle.trans hmono).trans_lt hsum
      have hpos : 0 ≤ tm.cell best + s.cell i := by
        have hbefore := hgreedy.nonneg (fun j hj => hnonneg j (by omega)) ⟨best, hbest⟩
        exact add_nonneg hbefore (hnonneg i (by omega))
      rw [otherTimes, min, hmin, hnext]
      show ∃ tm', (tm.load best >>= _) = some tm' ∧ _
      rw [load_eq (by omega), load_eq (by omega)]
      show ∃ tm', (checkedInt (tm.cell best + s.cell i) >>= _) = some tm' ∧ _
      rw [checkedInt_eq (by omega) hbound]
      show ∃ tm', (tm.store best (tm.cell best + s.cell i) >>= _) = some tm' ∧ _
      rw [store_eq (by omega)]
      rw [← loads_set] at hassign
      have hsize' : m ≤ (tm.set best (tm.cell best + s.cell i)).size := htm
      exact ih hsize' (by omega) hassign

end Loops

/-! ### The result -/

theorem sum_cells (s : Block ℤ) (n : ℕ) :
    ∑ i ∈ Finset.range n, s.cell i = (s.cells 0 n).sum := by
  induction n with
  | zero => rfl
  | succ n ih =>
      rw [Finset.sum_range_succ, ih, cells_succ, List.sum_append, List.sum_singleton, zero_add]

/-- The total time for an array that is sorted. -/
theorem caculate_eq {m n : ℕ} {s s' : Block ℤ} (hm : 1 ≤ m) (hm' : m ≤ 128) (hn : 1 ≤ n)
    (hsort : sort s n = some s') (hsize : n ≤ s'.size)
    (hmono : ∀ i, i + 1 < n → s'.cell i ≤ s'.cell (i + 1)) (hnonneg : ∀ i < n, 0 ≤ s'.cell i)
    (hsum : ∑ i ∈ Finset.range n, s'.cell i < 2 ^ 31) :
    caculate m n s = some (turns m s'.cell (n - 1 + m), s') := by
  rw [caculate, hsort]
  show (if m ≥ n then _ else _) = _
  split
  · -- with a processor for each time the last turn is the last time
    rename_i hmn
    rw [if_neg (by omega), load_eq (by omega), turns_add hm, turns_of_lt (by omega), zero_add]
    rfl
  · rename_i hmn
    have hstart : Greedy m s'.cell 0 (loads m ⟨128, fun _ => 0⟩) := .start
    obtain ⟨tm, hfirst, htm, hgreedy⟩ := firstTimes_eq (k := m) hm' (by omega) (by omega)
      (fun i hi => hnonneg i (by omega)) hstart fun _ _ => rfl
    rw [zero_add] at hgreedy
    have htm : m ≤ tm.size := hm'.trans htm.ge
    obtain ⟨tm', hother, htm', hgreedy⟩ := otherTimes_eq (k := n - m) hm htm (by omega) hsize
      hnonneg hsum hgreedy
    have hall : m + (n - m) = n := by omega
    rw [hall] at hgreedy
    have htm' : m ≤ tm'.size := htm.trans htm'.ge
    obtain ⟨best, hmax, hbest, hgreatest⟩ := index_eq (r := (· > ·)) hm htm'
    rw [hfirst]
    show (otherTimes m s' (n - m) m tm >>= _) = _
    rw [hother]
    show (max tm' m >>= _) = _
    rw [max, hmax]
    show (tm'.load best >>= _) = _
    rw [load_eq (by omega)]
    -- the cell that `max` finds and the last turn are both the largest load
    have htotal : IsGreatest (Set.range (loads m tm')) (tm'.cell best) := by
      refine ⟨⟨⟨best, hbest⟩, rfl⟩, ?_⟩
      rintro _ ⟨j, rfl⟩
      exact not_lt.mp (hgreatest j j.isLt)
    rw [← (hgreedy.isGreatest hm hmono hnonneg hn).unique htotal]
    rfl

/-- **The total time is exact.**  `t` is the array in ascending order.  The time
is the sum of the last of `t` and every `m`th one before it, and it is the largest
finishing time of any run that takes the shortest job first and gives it to a
processor that is free first. -/
theorem caculate_exact {m n : ℕ} {s : Block ℤ} {t : List ℤ} (hm : 1 ≤ m) (hm' : m ≤ 128)
    (hn : 1 ≤ n) (hsize : n ≤ s.size) (hnonneg : ∀ i < n, 0 ≤ s.cell i)
    (hsum : (s.cells 0 n).sum < 2 ^ 31) (hperm : t.Perm (s.cells 0 n))
    (hsorted : t.Pairwise (· ≤ ·)) :
    ∃ total s', caculate m n s = some (total, s') ∧ s'.cells 0 n = t ∧
      total = ∑ k ∈ Finset.range ((n - 1) / m + 1), t.getD (n - 1 - k * m) 0 ∧
      (∃ loads : Fin m → ℤ, Greedy m (fun i => t.getD i 0) n loads) ∧
      ∀ loads : Fin m → ℤ, Greedy m (fun i => t.getD i 0) n loads →
        IsGreatest (Set.range loads) total := by
  obtain ⟨s', hsort, hmoved, hascending⟩ := Sorting.insertSort_first hsize
  obtain rfl : t = s'.cells 0 n :=
    (hperm.trans (hmoved.cells_perm fun _ hi => hi).symm).eq_of_pairwise' hsorted
      (cells_pairwise hascending)
  have hcell : ∀ i < n, (s'.cells 0 n).getD i 0 = s'.cell i := by
    intro i hi
    rw [← cell_eq_getD rfl hi 0, zero_add]
  have hnonneg' := hmoved.forall_cell fun i hi => hnonneg i hi
  have hmono : ∀ i, i + 1 < n → s'.cell i ≤ s'.cell (i + 1) := fun i hi =>
    hascending (Set.mem_Iio.mpr (by omega)) (Set.mem_Iio.mpr hi) i.le_succ
  rw [← (hmoved.cells_perm fun _ hi => hi).sum_eq, ← sum_cells] at hsum
  have hrun := caculate_eq hm hm' hn hsort (hmoved.size_eq.symm ▸ hsize) hmono hnonneg' hsum
  have : NeZero m := ⟨by omega⟩
  obtain ⟨loads, hgreedy⟩ := Greedy.exists_run (m := m) (fun i => (s'.cells 0 n).getD i 0) n
  refine ⟨_, s', hrun, rfl, ?_, ⟨loads, hgreedy⟩, fun loads hgreedy => ?_⟩
  · rw [turns_last hm]
    apply Finset.sum_congr rfl
    intro k _
    exact (hcell _ (by omega)).symm
  · exact (hgreedy.congr hcell).isGreatest hm hmono hnonneg' hn

/-- The five jobs of test.txt on three processors. -/
def testTimes : Block ℤ := ⟨5, fun i => [8, 4, 3, 1, 10].getD i 0⟩

/-- `caculate_exact` for them: 10 + 3. -/
theorem caculate_exact_testTimes : ∃ s', caculate 3 5 testTimes = some (13, s') := by
  obtain ⟨total, s', hrun, -, htotal, -⟩ :=
    caculate_exact (m := 3) (n := 5) (s := testTimes) (t := [1, 3, 4, 8, 10]) (by decide)
      (by decide) (by decide) (by decide) (by decide) (by decide) (by decide) (by decide)
  obtain rfl : total = 13 := htotal
  exact ⟨s', hrun⟩

end ProcessTask

end CodeSnippet
