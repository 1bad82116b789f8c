/-
CodeSnippet/QuickSort.lean

`quick_sort` of src/algorithm/sort/sort.c.  `partition` takes the pivot out of
the array and lets the hole wander between the two scans; `Parted` is what holds
wherever the hole is.

Every access is checked and every loop has fuel, so that a result means that the
indices were in bounds and the loops came to their ends.  `partition` is written for
any `IntArray`, so that the accesses can be traced as well.

Main results:
  * `partition_eq` — what `partition` does to a part of an array.
  * `qsort_eq` — what `qsort` does to it.
  * `quickSort_sorts` — the whole array.
-/
import CodeSnippet.Rearrangement

namespace CodeSnippet

open Memory Block

namespace Sorting

/-! ### Source -/

/-- `arr[i]` for an `int` -/
def get (arr : Block ℤ) (i : ℤ) : Option ℤ := if 0 ≤ i then arr.load i.toNat else none

/-- `arr[i] = v` -/
def put (arr : Block ℤ) (i v : ℤ) : Option (Block ℤ) :=
  if 0 ≤ i then arr.store i.toNat v else none

/-- An array that is read and written cell by cell; what is kept besides the cells
may change with every access. -/
class IntArray (A : Type) where
  load : A → ℤ → Option (ℤ × A)
  store : A → ℤ → ℤ → Option A

instance : IntArray (Block ℤ) where
  load arr i := (get arr i).map fun v => (v, arr)
  store := put

section Partition

variable {A : Type} [IntArray A]

open IntArray

/-- `while (low < high && arr[high] >= pivotkey) high--;` -/
def scanDown (pivotkey low : ℤ) : ℕ → A → ℤ → Option (A × ℤ)
  | 0, _, _ => none
  | fuel + 1, arr, high =>
      if low < high then do
        let (v, arr) ← load arr high
        if v ≥ pivotkey then scanDown pivotkey low fuel arr (high - 1) else some (arr, high)
      else some (arr, high)

/-- `while (low < high && arr[low] <= pivotkey) low++;` -/
def scanUp (pivotkey high : ℤ) : ℕ → A → ℤ → Option (A × ℤ)
  | 0, _, _ => none
  | fuel + 1, arr, low =>
      if low < high then do
        let (v, arr) ← load arr low
        if v ≤ pivotkey then scanUp pivotkey high fuel arr (low + 1) else some (arr, low)
      else some (arr, low)

/-- `if (low < high) arr[low++] = arr[high];` -/
def moveDown (arr : A) (low high : ℤ) : Option (A × ℤ) :=
  if low < high then do
    let (v, arr) ← load arr high
    let arr ← store arr low v
    some (arr, low + 1)
  else some (arr, low)

/-- `if (low < high) arr[high--] = arr[low];` -/
def moveUp (arr : A) (low high : ℤ) : Option (A × ℤ) :=
  if low < high then do
    let (v, arr) ← load arr low
    let arr ← store arr high v
    some (arr, high - 1)
  else some (arr, high)

/-- The outer loop of `partition`, up to the last store. -/
def partitionLoop (pivotkey : ℤ) : ℕ → A → ℤ → ℤ → Option (A × ℤ)
  | 0, _, _, _ => none
  | fuel + 1, arr, low, high =>
      if low < high then do
        let (arr, high) ← scanDown pivotkey low (fuel + 1) arr high
        let (arr, low) ← moveDown arr low high
        let (arr, low) ← scanUp pivotkey high (fuel + 1) arr low
        let (arr, high) ← moveUp arr low high
        partitionLoop pivotkey fuel arr low high
      else do
        let arr ← store arr low pivotkey
        some (arr, low)

def partition (fuel : ℕ) (arr : A) (low high : ℤ) : Option (A × ℤ) :=
  if low ≥ high then some (arr, -1)
  else do
    let (pivotkey, arr) ← load arr low
    partitionLoop pivotkey fuel arr low high

end Partition

def qsort : ℕ → Block ℤ → ℤ → ℤ → Option (Block ℤ)
  | 0, _, _, _ => none
  | fuel + 1, arr, low, high =>
      if low ≥ high then some arr
      else do
        let (arr, pivot) ← partition (fuel + 1) arr low high
        let arr ← qsort fuel arr low (pivot - 1)
        qsort fuel arr (pivot + 1) high

def quickSort (fuel : ℕ) (arr : Block ℤ) (n : ℕ) : Option (Block ℤ) :=
  qsort fuel arr 0 (n - 1)

/-! ### Accesses -/

theorem get_natCast {arr : Block ℤ} {i : ℕ} (h : i < arr.size) :
    get arr i = some (arr.cell i) := by
  rw [get, if_pos (Int.natCast_nonneg i), Int.toNat_natCast, load_eq h]

theorem put_natCast {arr : Block ℤ} {i : ℕ} (h : i < arr.size) (v : ℤ) :
    put arr i v = some (arr.set i v) := by
  rw [put, if_pos (Int.natCast_nonneg i), Int.toNat_natCast, store_eq h]

theorem load_natCast {arr : Block ℤ} {i : ℕ} (h : i < arr.size) :
    IntArray.load arr (i : ℤ) = some (arr.cell i, arr) := by
  show (get arr i).map _ = _
  rw [get_natCast h]
  rfl

theorem store_natCast {arr : Block ℤ} {i : ℕ} (h : i < arr.size) (v : ℤ) :
    IntArray.store arr (i : ℤ) v = some (arr.set i v) :=
  put_natCast h v

/-! ### The scans -/

/-- **The scan from above** stops at `low` or at a smaller cell. -/
theorem scanDown_eq {arr : Block ℤ} {low high fuel : ℕ} (hle : low ≤ high)
    (hsize : high < arr.size) (hfuel : high - low < fuel) (pivotkey : ℤ) :
    ∃ high' : ℕ, scanDown pivotkey low fuel arr high = some (arr, (high' : ℤ)) ∧ low ≤ high' ∧
      high' ≤ high ∧ (∀ k, high' < k → k ≤ high → pivotkey ≤ arr.cell k) ∧
      (low < high' → arr.cell high' < pivotkey) := by
  induction fuel generalizing high with
  | zero => exact absurd hfuel (Nat.not_lt_zero _)
  | succ fuel ih =>
      rw [scanDown]
      rcases Nat.eq_or_lt_of_le hle with rfl | hlt
      · rw [if_neg (lt_irrefl _)]
        exact ⟨low, rfl, le_rfl, le_rfl, fun k hk hk' => by omega, fun h => by omega⟩
      · rw [if_pos (Int.ofNat_lt.mpr hlt), load_natCast hsize]
        show ∃ high' : ℕ, (if arr.cell high ≥ pivotkey then _ else _) = _ ∧ _
        by_cases hge : arr.cell high ≥ pivotkey
        · obtain ⟨h, rfl⟩ := Nat.exists_eq_add_one_of_ne_zero (Nat.ne_zero_of_lt hlt)
          obtain ⟨high', hscan, hlow, hhigh, habove, hstop⟩ :=
            ih (by omega : low ≤ h) (by omega) (by omega)
          refine ⟨high', ?_, hlow, by omega, fun k hk hk' => ?_, hstop⟩
          · rw [if_pos hge, Nat.cast_succ, add_sub_cancel_right]
            exact hscan
          · rcases Nat.eq_or_lt_of_le hk' with rfl | hk'
            · exact hge
            · exact habove k hk (by omega)
        · rw [if_neg hge]
          exact ⟨high, rfl, hle, le_rfl, fun k hk hk' => by omega, fun _ => not_le.mp hge⟩

/-- **The scan from below** stops at `high` or at a larger cell. -/
theorem scanUp_eq {arr : Block ℤ} {low high fuel : ℕ} (hle : low ≤ high)
    (hsize : high < arr.size) (hfuel : high - low < fuel) (pivotkey : ℤ) :
    ∃ low' : ℕ, scanUp pivotkey high fuel arr low = some (arr, (low' : ℤ)) ∧ low ≤ low' ∧
      low' ≤ high ∧ (∀ k, low ≤ k → k < low' → arr.cell k ≤ pivotkey) ∧
      (low' < high → pivotkey < arr.cell low') := by
  induction fuel generalizing low with
  | zero => exact absurd hfuel (Nat.not_lt_zero _)
  | succ fuel ih =>
      rw [scanUp]
      rcases Nat.eq_or_lt_of_le hle with rfl | hlt
      · rw [if_neg (lt_irrefl _)]
        exact ⟨low, rfl, le_rfl, le_rfl, fun k hk hk' => by omega, fun h => by omega⟩
      · rw [if_pos (Int.ofNat_lt.mpr hlt), load_natCast (by omega)]
        show ∃ low' : ℕ, (if arr.cell low ≤ pivotkey then _ else _) = _ ∧ _
        by_cases hge : arr.cell low ≤ pivotkey
        · obtain ⟨low', hscan, hlow, hhigh, hbelow, hstop⟩ :=
            ih (by omega : low + 1 ≤ high) (by omega)
          refine ⟨low', ?_, by omega, hhigh, fun k hk hk' => ?_, hstop⟩
          · rw [if_pos hge]
            exact hscan
          · rcases Nat.eq_or_lt_of_le hk with rfl | hk
            · exact hge
            · exact hbelow k hk hk'
        · rw [if_neg hge]
          exact ⟨low, rfl, le_rfl, hle, fun k hk hk' => by omega, fun _ => not_le.mp hge⟩

/-! ### The moves -/

theorem moveDown_eq {arr : Block ℤ} {low high : ℕ} (hlt : low < high) (hsize : high < arr.size) :
    moveDown arr low high = some (arr.set low (arr.cell high), ((low + 1 : ℕ) : ℤ)) := by
  rw [moveDown, if_pos (Int.ofNat_lt.mpr hlt), load_natCast hsize]
  show (IntArray.store arr (low : ℤ) (arr.cell high) >>= _) = _
  rw [store_natCast (hlt.trans hsize)]
  rfl

theorem moveUp_eq {arr : Block ℤ} {low high : ℕ} (hlt : low < high) (hsize : high < arr.size) :
    moveUp arr low high = some (arr.set high (arr.cell low), ((high - 1 : ℕ) : ℤ)) := by
  rw [moveUp, if_pos (Int.ofNat_lt.mpr hlt), load_natCast (hlt.trans hsize)]
  show (IntArray.store arr (high : ℤ) (arr.cell low) >>= _) = _
  rw [store_natCast hsize, Nat.cast_pred (Nat.zero_lt_of_lt hlt)]
  rfl

theorem moveDown_self (arr : Block ℤ) (low : ℤ) : moveDown arr low low = some (arr, low) :=
  if_neg (lt_irrefl low)

theorem moveUp_self (arr : Block ℤ) (high : ℤ) : moveUp arr high high = some (arr, high) :=
  if_neg (lt_irrefl high)

/-! ### The partition -/

/-- The part from `lo` to below `hi` of `orig` while it is being partitioned:
smaller cells below `low`, larger ones above `high`, and a rearrangement once
the hole is filled with the pivot. -/
structure Parted (orig : Block ℤ) (pivotkey : ℤ) (lo hi hole low high : ℕ) (arr : Block ℤ) :
    Prop where
  lo_le : lo ≤ low
  low_le : low ≤ high
  lt_hi : high < hi
  below : ∀ k, lo ≤ k → k < low → arr.cell k ≤ pivotkey
  above : ∀ k, high < k → k < hi → pivotkey ≤ arr.cell k
  filled : Rearranged (Set.Ico lo hi) orig (arr.set hole pivotkey)

namespace Parted

variable {orig arr : Block ℤ} {pivotkey : ℤ} {lo hi hole low high fuel : ℕ}

theorem high_lt (h : Parted orig pivotkey lo hi hole low high arr) (hsize : hi ≤ orig.size) :
    high < arr.size := by
  have hhi := h.lt_hi
  have hsame : arr.size = orig.size := h.filled.size_eq
  omega

/-- Larger cells have been passed from above. -/
theorem scanDown (h : Parted orig pivotkey lo hi hole low high arr) {high' : ℕ}
    (hlow : low ≤ high') (hle : high' ≤ high)
    (hpassed : ∀ k, high' < k → k ≤ high → pivotkey ≤ arr.cell k) :
    Parted orig pivotkey lo hi hole low high' arr where
  lo_le := h.lo_le
  low_le := hlow
  lt_hi := hle.trans_lt h.lt_hi
  below := h.below
  above k hk hk' := by
    rcases Nat.lt_or_ge high k with hgt | hle'
    · exact h.above k hgt hk'
    · exact hpassed k hk hle'
  filled := h.filled

/-- Smaller cells have been passed from below. -/
theorem scanUp (h : Parted orig pivotkey lo hi hole low high arr) {low' : ℕ}
    (hle : low ≤ low') (hhigh : low' ≤ high)
    (hpassed : ∀ k, low ≤ k → k < low' → arr.cell k ≤ pivotkey) :
    Parted orig pivotkey lo hi hole low' high arr where
  lo_le := h.lo_le.trans hle
  low_le := hhigh
  lt_hi := h.lt_hi
  below k hk hk' := by
    rcases Nat.lt_or_ge k low with hlt | hge
    · exact h.below k hk hlt
    · exact hpassed k hge hk'
  above := h.above
  filled := h.filled

/-- A smaller cell goes down into the hole, which is at `high` then. -/
theorem moveDown (h : Parted orig pivotkey lo hi low low high arr) (hlt : low < high)
    (hstop : arr.cell high < pivotkey) :
    Parted orig pivotkey lo hi high (low + 1) high (arr.set low (arr.cell high)) where
  lo_le := h.lo_le.trans (Nat.le_succ low)
  low_le := hlt
  lt_hi := h.lt_hi
  below k hk hk' := by
    rw [set_cell]
    split_ifs with hkl
    · exact hstop.le
    · exact h.below k hk (by omega)
  above k hk hk' := by
    rw [set_cell, if_neg (by omega)]
    exact h.above k hk hk'
  filled := h.filled.moveHole ⟨h.lo_le, hlt.trans h.lt_hi⟩ ⟨h.lo_le.trans hlt.le, h.lt_hi⟩ hlt.ne

/-- A larger cell goes up into the hole, which is at `low` then. -/
theorem moveUp (h : Parted orig pivotkey lo hi high low high arr) (hlt : low < high)
    (hstop : pivotkey < arr.cell low) :
    Parted orig pivotkey lo hi low low (high - 1) (arr.set high (arr.cell low)) where
  lo_le := h.lo_le
  low_le := Nat.le_pred_of_lt hlt
  lt_hi := (Nat.sub_le ..).trans_lt h.lt_hi
  below k hk hk' := by
    rw [set_cell, if_neg (by omega)]
    exact h.below k hk hk'
  above k hk hk' := by
    rw [set_cell]
    split_ifs with hkh
    · exact hstop.le
    · exact h.above k (by omega) hk'
  filled :=
    h.filled.moveHole ⟨h.lo_le.trans hlt.le, h.lt_hi⟩ ⟨h.lo_le, hlt.trans h.lt_hi⟩ hlt.ne'

/-- **One round** of the outer loop brings the hole back to `low`. -/
theorem round (h : Parted orig pivotkey lo hi low low high arr) (hsize : hi ≤ orig.size)
    (hlt : low < high) (hfuel : high - low < fuel + 1) :
    ∃ (arr' : Block ℤ) (low' high' : ℕ), partitionLoop pivotkey (fuel + 1) arr low high =
        partitionLoop pivotkey fuel arr' low' high' ∧
      Parted orig pivotkey lo hi low' low' high' arr' ∧ high' - low' < high - low := by
  obtain ⟨high₁, hdown, hlow₁, hhigh₁, habove, hstop₁⟩ :=
    scanDown_eq hlt.le (h.high_lt hsize) hfuel pivotkey
  have h₁ := h.scanDown hlow₁ hhigh₁ habove
  rw [partitionLoop, if_pos (Int.ofNat_lt.mpr hlt), hdown]
  show ∃ (arr' : Block ℤ) (low' high' : ℕ), (Sorting.moveDown arr low high₁ >>= _) = _ ∧ _
  rcases Nat.eq_or_lt_of_le hlow₁ with rfl | hlt₁
  · -- no smaller cell was found, and the hole stays where it is
    obtain ⟨low₂, hup, hlow₂, hhigh₂, -⟩ :=
      scanUp_eq le_rfl (h₁.high_lt hsize) (by omega : low - low < fuel + 1) pivotkey
    obtain rfl := Nat.le_antisymm hlow₂ hhigh₂
    refine ⟨arr, low, low, ?_, h₁, by omega⟩
    rw [moveDown_self]
    show (Sorting.scanUp pivotkey low (fuel + 1) arr low >>= _) = _
    rw [hup]
    show (Sorting.moveUp arr low low >>= _) = _
    rw [moveUp_self]
    rfl
  · have h₂ := h₁.moveDown hlt₁ (hstop₁ hlt₁)
    obtain ⟨low₂, hup, hlow₂, hhigh₂, hbelow, hstop₂⟩ :=
      scanUp_eq h₂.low_le (h₂.high_lt hsize) (by omega : high₁ - (low + 1) < fuel + 1) pivotkey
    have h₃ := h₂.scanUp hlow₂ hhigh₂ hbelow
    rw [moveDown_eq hlt₁ (h₁.high_lt hsize)]
    show ∃ (arr' : Block ℤ) (low' high' : ℕ),
      (Sorting.scanUp pivotkey high₁ (fuel + 1) (arr.set low (arr.cell high₁)) (low + 1 : ℕ) >>= _) =
        _ ∧ _
    rw [hup]
    show ∃ (arr' : Block ℤ) (low' high' : ℕ), (Sorting.moveUp _ low₂ high₁ >>= _) = _ ∧ _
    rcases Nat.eq_or_lt_of_le hhigh₂ with rfl | hlt₂
    · -- the scans have met at the hole
      rw [moveUp_self]
      exact ⟨_, low₂, low₂, rfl, h₃, by omega⟩
    · rw [moveUp_eq hlt₂ (h₃.high_lt hsize)]
      exact ⟨_, low₂, high₁ - 1, rfl, h₃.moveUp hlt₂ (hstop₂ hlt₂), by omega⟩

/-- **All rounds.** -/
theorem partitionLoop_eq (h : Parted orig pivotkey lo hi low low high arr) (hsize : hi ≤ orig.size)
    (hfuel : high - low < fuel) :
    ∃ (arr' : Block ℤ) (p : ℕ), partitionLoop pivotkey fuel arr low high = some (arr', (p : ℤ)) ∧
      Parted orig pivotkey lo hi p p p arr' ∧ arr'.cell p = pivotkey := by
  induction fuel generalizing arr low high with
  | zero => exact absurd hfuel (Nat.not_lt_zero _)
  | succ fuel ih =>
      rcases Nat.eq_or_lt_of_le h.low_le with rfl | hlt
      · refine ⟨arr.set low pivotkey, low, ?_, ⟨h.lo_le, le_rfl, h.lt_hi, ?_, ?_, ?_⟩, if_pos rfl⟩
        · rw [partitionLoop, if_neg (lt_irrefl _), store_natCast (h.high_lt hsize)]
          rfl
        · intro k hk hk'
          rw [set_cell, if_neg hk'.ne]
          exact h.below k hk hk'
        · intro k hk hk'
          rw [set_cell, if_neg hk.ne']
          exact h.above k hk hk'
        · have hfilled := set_self (arr.set low pivotkey) low
          rw [set_cell, if_pos rfl] at hfilled
          rw [hfilled]
          exact h.filled
      · obtain ⟨arr', low', high', hround, h', hless⟩ := h.round hsize hlt hfuel
        rw [hround]
        exact ih h' (by omega)

end Parted

variable {arr : Block ℤ} {lo hi fuel : ℕ}

/-- The whole run of `partition` on the cells from `lo` to below `hi`. -/
theorem partition_parted (hlt : lo + 1 < hi) (hsize : hi ≤ arr.size) (hfuel : hi - lo ≤ fuel) :
    ∃ (arr' : Block ℤ) (p : ℕ), partition fuel arr lo (hi - 1) = some (arr', (p : ℤ)) ∧
      Parted arr (arr.cell lo) lo hi p p p arr' ∧ arr'.cell p = arr.cell lo := by
  have hhigh : (hi : ℤ) - 1 = ((hi - 1 : ℕ) : ℤ) := by omega
  have hstart : Parted arr (arr.cell lo) lo hi lo lo (hi - 1) arr := by
    refine ⟨le_rfl, by omega, by omega, fun k hk hk' => ?_, fun k hk hk' => ?_, ?_⟩
    · exact absurd hk' (not_lt.mpr hk)
    · omega
    · rw [set_self]
      exact Rearranged.refl _ arr
  obtain ⟨arr', p, hloop, h, hpivot⟩ := hstart.partitionLoop_eq hsize (by omega : _ < fuel)
  refine ⟨arr', p, ?_, h, hpivot⟩
  rw [partition, if_neg (by omega), load_natCast (by omega), hhigh]
  exact hloop

/-- **What `partition` does** to the cells from `lo` to below `hi`. -/
theorem partition_eq (hlt : lo + 1 < hi) (hsize : hi ≤ arr.size) (hfuel : hi - lo ≤ fuel) :
    ∃ (arr' : Block ℤ) (p : ℕ), partition fuel arr lo (hi - 1) = some (arr', (p : ℤ)) ∧
      lo ≤ p ∧ p < hi ∧ Rearranged (Set.Ico lo hi) arr arr' ∧
      (∀ k ∈ Set.Ico lo p, arr'.cell k ≤ arr'.cell p) ∧
      ∀ k ∈ Set.Ico (p + 1) hi, arr'.cell p ≤ arr'.cell k := by
  obtain ⟨arr', p, hrun, h, hpivot⟩ := partition_parted hlt hsize hfuel
  have hfilled := h.filled
  rw [← hpivot, set_self] at hfilled
  refine ⟨arr', p, hrun, h.lo_le, h.lt_hi, hfilled, fun k hk => ?_, fun k hk => ?_⟩
  · rw [hpivot]
    exact h.below k hk.1 hk.2
  · rw [hpivot]
    exact h.above k hk.1 hk.2

/-- **What `qsort` does** to the cells from `lo` to below `hi`, by induction on
the fuel. -/
theorem qsort_eq (hsize : hi ≤ arr.size) (hfuel : hi - lo < fuel) :
    ∃ arr', qsort fuel arr lo (hi - 1) = some arr' ∧ Rearranged (Set.Ico lo hi) arr arr' ∧
      MonotoneOn arr'.cell (Set.Ico lo hi) := by
  induction fuel generalizing arr lo hi with
  | zero => exact absurd hfuel (Nat.not_lt_zero _)
  | succ fuel ih =>
      rw [qsort]
      rcases Nat.lt_or_ge (lo + 1) hi with hlt | hge
      · obtain ⟨arr₁, p, hpartition, hlo, hhi, hmoved, hle, hge⟩ :=
          partition_eq hlt hsize (by omega : _ ≤ fuel + 1)
        have hsize₁ : hi ≤ arr₁.size := hmoved.size_eq.symm ▸ hsize
        obtain ⟨arr₂, hlow, hmoved₂, hsorted₂⟩ :=
          ih (by omega : p ≤ arr₁.size) (by omega : p - lo < fuel)
        have hsize₂ : hi ≤ arr₂.size := hmoved₂.size_eq.symm ▸ hsize₁
        obtain ⟨arr₃, hhigh, hmoved₃, hsorted₃⟩ :=
          ih hsize₂ (by omega : hi - (p + 1) < fuel)
        -- the left part is left alone by the second call, the pivot by both
        have hleft : ∀ k, k ≤ p → arr₃.cell k = arr₂.cell k :=
          fun k hk => hmoved₃.cell_eq fun hmem => absurd hmem.1 (by omega)
        have hright : ∀ k, p ≤ k → arr₂.cell k = arr₁.cell k :=
          fun k hk => hmoved₂.cell_eq fun hmem => absurd hmem.2 (by omega)
        have hpivot : arr₃.cell p = arr₁.cell p := (hleft p le_rfl).trans (hright p le_rfl)
        refine ⟨arr₃, ?_, ?_, monotoneOn_of_parts (p := p) ?_ hsorted₃ ?_ ?_⟩
        · rw [if_neg (by omega), hpartition]
          show (qsort fuel arr₁ lo (p - 1) >>= _) = _
          rw [hlow]
          exact hhigh
        · have hinto₂ : Set.Ico lo p ⊆ Set.Ico lo hi := Set.Ico_subset_Ico_right hhi.le
          have hinto₃ : Set.Ico (p + 1) hi ⊆ Set.Ico lo hi := Set.Ico_subset_Ico_left (by omega)
          exact hmoved.trans ((hmoved₂.mono hinto₂).trans (hmoved₃.mono hinto₃))
        · intro i hi j hj hij
          rw [hleft i hi.2.le, hleft j hj.2.le]
          exact hsorted₂ hi hj hij
        · intro k hk
          rw [hpivot, hleft k hk.2.le]
          exact hmoved₂.forall_cell (P := fun v => v ≤ arr₁.cell p) hle k hk
        · rw [hpivot]
          apply hmoved₃.forall_cell (P := fun v => arr₁.cell p ≤ v)
          intro k hk
          rw [hright k (Nat.le_of_succ_le hk.1)]
          exact hge k hk
      · rw [if_pos (by omega)]
        refine ⟨arr, rfl, Rearranged.refl _ arr, ?_⟩
        rintro i ⟨hi₁, hi₂⟩ j ⟨hj₁, hj₂⟩ -
        obtain rfl : i = j := by omega
        exact le_rfl

/-- The whole array. -/
theorem quickSort_eq (hfuel : arr.size < fuel) :
    ∃ arr', quickSort fuel arr arr.size = some arr' ∧ Rearranged (Set.Iio arr.size) arr arr' ∧
      MonotoneOn arr'.cell (Set.Iio arr.size) := by
  have hbot : Set.Ico 0 arr.size = Set.Iio arr.size := Set.Ico_bot
  rw [← hbot]
  exact qsort_eq le_rfl hfuel

/-- **`quick_sort` sorts**: it comes to its end without leaving the array, which
holds its old contents in ascending order then. -/
theorem quickSort_sorts (arr : Block ℤ) (fuel : ℕ) (hfuel : arr.size < fuel) :
    ∃ arr', quickSort fuel arr arr.size = some arr' ∧ arr'.size = arr.size ∧
      (arr'.cells 0 arr.size).Pairwise (· ≤ ·) ∧
      (arr'.cells 0 arr.size).Perm (arr.cells 0 arr.size) := by
  obtain ⟨arr', hsort, hmoved, hsorted⟩ := quickSort_eq hfuel
  exact ⟨arr', hsort, hmoved.size_eq, cells_pairwise hsorted, hmoved.cells_perm fun _ hi => hi⟩

/-- The array of the test program. -/
def testArr : Block ℤ := ⟨9, fun i => [1, 3, 5, 3, 5, 1, 2, 9, 3].getD i 0⟩

theorem quickSort_sorts_testArr :
    ∃ arr', quickSort 10 testArr testArr.size = some arr' ∧ arr'.size = testArr.size ∧
      (arr'.cells 0 testArr.size).Pairwise (· ≤ ·) ∧
      (arr'.cells 0 testArr.size).Perm (testArr.cells 0 testArr.size) :=
  quickSort_sorts testArr 10 (Nat.lt_succ_self 9)

end Sorting

end CodeSnippet
