/-
CodeSnippet/DuplicateInArray.lean

`duplicate` of src/exam/point_to_offer/0301_duplicateInArray.c, for an array of n
numbers that are all below n.  The inner loop carries numbers to the places that
they name until the right one comes to place `i`, or until a number finds its
place taken by an equal one.

Main results:
  * `swapLoop_eq` — the inner loop; each round puts one more number in its place.
  * `duplicate_finds` — the whole function.
-/
import CodeSnippet.QuickSort

namespace CodeSnippet

open Memory Block

namespace DuplicateInArray

open Sorting (get put get_natCast put_natCast)

/-! ### Source -/

/-- `while (arr[i] != i)`: the array, and the value if the function returns from
inside. -/
def swapLoop (i : ℤ) : ℕ → Block ℤ → Option (Block ℤ × Option ℤ)
  | 0, _ => none
  | fuel + 1, arr => do
      let a ← get arr i
      if a ≠ i then do
        let v ← get arr a
        if a = v then some (arr, some a)
        else do
          let tmp := a
          let arr ← put arr i v
          let arr ← put arr tmp tmp
          swapLoop i fuel arr
      else some (arr, none)

/-- The outer loop from `i` on, with `m` rounds left: the array and what is
returned. -/
def duplicateFrom (fuel : ℕ) : ℕ → ℤ → Block ℤ → Option (Block ℤ × ℤ)
  | 0, _, arr => some (arr, -1)
  | m + 1, i, arr => do
      let (arr, ret) ← swapLoop i fuel arr
      match ret with
      | some v => some (arr, v)
      | none => duplicateFrom fuel m (i + 1) arr

def duplicate (fuel : ℕ) (arr : Block ℤ) (n : ℕ) : Option (Block ℤ × ℤ) :=
  duplicateFrom fuel n 0 arr

/-! ### Values that occur twice -/

/-- Two cells of the array hold `v`. -/
def Twice (arr : Block ℤ) (v : ℤ) : Prop :=
  ∃ j k, j < k ∧ k < arr.size ∧ arr.cell j = v ∧ arr.cell k = v

theorem two_le_count_of_twice {arr : Block ℤ} {v : ℤ} (h : Twice arr v) :
    2 ≤ (arr.cells 0 arr.size).count v := by
  obtain ⟨j, k, hjk, hk, hj, hv⟩ := h
  have hlen : (arr.cells 0 arr.size).length = arr.size := cells_length arr 0 arr.size
  rw [← List.duplicate_iff_two_le_count, List.duplicate_iff_exists_distinct_get]
  refine ⟨⟨j, by omega⟩, ⟨k, by omega⟩, hjk, ?_, ?_⟩
  · rw [List.get_eq_getElem, cells_getElem, Nat.zero_add, hj]
  · rw [List.get_eq_getElem, cells_getElem, Nat.zero_add, hv]

/-- Numbers in their own places are distinct. -/
theorem nodup_of_placed {arr : Block ℤ} {n : ℕ} (h : ∀ k < n, arr.cell k = k) :
    (arr.cells 0 n).Nodup := by
  have hcells : arr.cells 0 n = (List.range n).map Nat.cast := by
    apply List.map_congr_left
    intro k hk
    rw [Nat.zero_add]
    exact h k (List.mem_range.mp hk)
  rw [hcells]
  exact List.nodup_range.map Nat.cast_injective

/-! ### The inner loop -/

/-- How many numbers are not in their places. -/
def unplaced (arr : Block ℤ) : ℕ := ((Finset.range arr.size).filter fun k => arr.cell k ≠ k).card

theorem unplaced_le (arr : Block ℤ) : unplaced arr ≤ arr.size :=
  (Finset.card_filter_le _ _).trans_eq (Finset.card_range _)

/-- **An exchange** that carries a number to its place. -/
theorem unplaced_exchange_lt {arr : Block ℤ} {i t : ℕ} (ht : t < arr.size)
    (hcell : arr.cell i = t) (hne : arr.cell t ≠ t) :
    unplaced (arr.exchange i t) < unplaced arr := by
  have hit : i ≠ t := by
    rintro rfl
    exact hne hcell
  have hexchange : ∀ k, (arr.exchange i t).cell k =
      if k = t then arr.cell i else if k = i then arr.cell t else arr.cell k := fun _ => rfl
  apply Finset.card_lt_card
  rw [Finset.ssubset_iff_of_subset]
  · -- the number `t` is in its place now
    refine ⟨t, Finset.mem_filter.mpr ⟨Finset.mem_range.mpr ht, hne⟩, fun hmem => ?_⟩
    apply (Finset.mem_filter.mp hmem).2
    rw [hexchange, if_pos rfl, hcell]
  · -- and no other number has left its own
    intro k hk
    obtain ⟨hrange, hk⟩ := Finset.mem_filter.mp hk
    refine Finset.mem_filter.mpr ⟨hrange, fun hplaced => hk ?_⟩
    rw [hexchange]
    split_ifs with hkt hki
    · rw [hcell, hkt]
    · rw [hki, hcell] at hplaced
      exact absurd (Nat.cast_injective hplaced).symm hit
    · exact hplaced

/-- The array is rearranged, and the numbers below `i` are in their places. -/
structure Placed (orig : Block ℤ) (i : ℕ) (arr : Block ℤ) : Prop where
  moved : Rearranged (Set.Iio orig.size) orig arr
  placed : ∀ k < i, arr.cell k = k

variable {orig arr : Block ℤ} {i fuel : ℕ}

/-- Every number names a place. -/
theorem Placed.exists_cell (h : Placed orig i arr)
    (hrange : ∀ k < orig.size, 0 ≤ orig.cell k ∧ orig.cell k < orig.size) {k : ℕ}
    (hk : k < orig.size) : ∃ t : ℕ, arr.cell k = t ∧ t < orig.size := by
  obtain ⟨hnonneg, hlt⟩ :=
    h.moved.forall_cell (P := fun v => 0 ≤ v ∧ v < orig.size) (fun k hk => hrange k hk) k hk
  obtain ⟨t, ht⟩ := Int.eq_ofNat_of_zero_le hnonneg
  rw [ht] at hlt
  exact ⟨t, ht, Int.ofNat_lt.mp hlt⟩

/-- One round, where the place named by the number at `i` holds another one. -/
theorem Placed.exchange (h : Placed orig i arr) (hi : i < orig.size) {t : ℕ} (ht : t < orig.size)
    (hcell : arr.cell i = t) (hne : arr.cell t ≠ t) : Placed orig i (arr.exchange i t) := by
  refine ⟨h.moved.trans (Rearranged.exchange arr hi ht), fun k hk => ?_⟩
  have hkt : k ≠ t := by
    rintro rfl
    exact hne (h.placed k hk)
  rw [Block.exchange, set_cell, if_neg hkt, set_cell, if_neg hk.ne]
  exact h.placed k hk

/-- One round, on the number `t` at `i`. -/
theorem swapLoop_succ {t : ℕ} (hi : i < arr.size) (ht : t < arr.size) (hcell : arr.cell i = t) :
    swapLoop i (fuel + 1) arr =
      if t = i then some (arr, none)
      else if arr.cell t = t then some (arr, some (t : ℤ))
      else swapLoop i fuel (arr.exchange i t) := by
  rw [swapLoop, get_natCast hi, hcell]
  show (if (t : ℤ) ≠ i then _ else some (arr, none)) = _
  by_cases hti : t = i
  · rw [if_pos hti, if_neg (by rw [hti]; exact not_not.mpr rfl)]
  · rw [if_neg hti, if_pos (Nat.cast_injective.ne hti), get_natCast ht]
    show (if (t : ℤ) = arr.cell t then _ else put arr i (arr.cell t) >>= _) = _
    by_cases hplaced : arr.cell t = t
    · rw [if_pos hplaced, if_pos hplaced.symm]
    · rw [if_neg hplaced, if_neg fun e => hplaced e.symm, put_natCast hi]
      show (put (arr.set i (arr.cell t)) t t >>= _) = _
      rw [put_natCast (show t < (arr.set i (arr.cell t)).size from ht), Block.exchange, hcell]
      rfl

/-- **The inner loop**, by induction on the fuel: it puts the right number in
place `i`, or has found one that occurs twice. -/
theorem swapLoop_eq (h : Placed orig i arr)
    (hrange : ∀ k < orig.size, 0 ≤ orig.cell k ∧ orig.cell k < orig.size) (hi : i < orig.size)
    (hfuel : unplaced arr < fuel) :
    (∃ arr', swapLoop i fuel arr = some (arr', none) ∧ Placed orig (i + 1) arr') ∨
      ∃ arr' v, swapLoop i fuel arr = some (arr', some v) ∧
        Rearranged (Set.Iio orig.size) orig arr' ∧ 0 ≤ v ∧ Twice arr' v := by
  induction fuel generalizing arr with
  | zero => exact absurd hfuel (Nat.not_lt_zero _)
  | succ fuel ih =>
      have hsize : arr.size = orig.size := h.moved.size_eq
      obtain ⟨t, hcell, ht⟩ := h.exists_cell hrange hi
      rw [swapLoop_succ (by omega) (by omega) hcell]
      by_cases hti : t = i
      · rw [if_pos hti]
        refine .inl ⟨arr, rfl, h.moved, fun k hk => ?_⟩
        rcases Nat.eq_or_lt_of_le (Nat.le_of_lt_succ hk) with rfl | hlt
        · rw [hcell, hti]
        · exact h.placed k hlt
      rw [if_neg hti]
      by_cases hplaced : arr.cell t = t
      · -- the place is taken by an equal number, not at its place
        rw [if_pos hplaced]
        refine .inr ⟨arr, t, rfl, h.moved, Int.natCast_nonneg t, ?_⟩
        rcases Nat.lt_or_gt_of_ne hti with hlt | hlt
        · exact ⟨t, i, hlt, by omega, hplaced, hcell⟩
        · exact ⟨i, t, hlt, by omega, hcell, hplaced⟩
      · rw [if_neg hplaced]
        have hless := unplaced_exchange_lt (by omega) hcell hplaced
        exact ih (h.exchange hi ht hcell hplaced) (by omega)

/-! ### The outer loop -/

/-- **The outer loop** from `i` on. -/
theorem duplicateFrom_eq {m : ℕ} (h : Placed orig i arr)
    (hrange : ∀ k < orig.size, 0 ≤ orig.cell k ∧ orig.cell k < orig.size)
    (hm : i + m = orig.size) (hfuel : orig.size < fuel) :
    ∃ arr' ret, duplicateFrom fuel m i arr = some (arr', ret) ∧
      Rearranged (Set.Iio orig.size) orig arr' ∧
      (ret = -1 ∧ (∀ k < orig.size, arr'.cell k = k) ∨ 0 ≤ ret ∧ Twice arr' ret) := by
  induction m generalizing i arr with
  | zero =>
      obtain rfl : i = orig.size := hm
      exact ⟨arr, -1, rfl, h.moved, .inl ⟨rfl, h.placed⟩⟩
  | succ m ih =>
      have hless : unplaced arr < fuel := by
        have hle := unplaced_le arr
        have hsize : arr.size = orig.size := h.moved.size_eq
        omega
      rw [duplicateFrom]
      rcases swapLoop_eq h hrange (by omega) hless with
        ⟨arr₁, hrun, h₁⟩ | ⟨arr₁, v, hrun, hmoved, hnonneg, htwice⟩
      · rw [hrun]
        exact ih h₁ (by omega : i + 1 + m = orig.size)
      · rw [hrun]
        exact ⟨arr₁, v, rfl, hmoved, .inr ⟨hnonneg, htwice⟩⟩

/-- **`duplicate` finds a number that occurs twice**, if there is one. -/
theorem duplicate_finds (arr : Block ℤ) (fuel : ℕ)
    (hrange : ∀ k < arr.size, 0 ≤ arr.cell k ∧ arr.cell k < arr.size)
    (hfuel : arr.size < fuel) :
    ∃ arr' ret, duplicate fuel arr arr.size = some (arr', ret) ∧ arr'.size = arr.size ∧
      (arr'.cells 0 arr.size).Perm (arr.cells 0 arr.size) ∧
      ((∃ v, 2 ≤ (arr.cells 0 arr.size).count v) → 2 ≤ (arr.cells 0 arr.size).count ret) ∧
      (ret = -1 ↔ (arr.cells 0 arr.size).Nodup) := by
  have hstart : Placed arr 0 arr := ⟨Rearranged.refl _ arr, fun k hk => absurd hk k.not_lt_zero⟩
  obtain ⟨arr', ret, hrun, hmoved, hret⟩ := duplicateFrom_eq hstart hrange (Nat.zero_add _) hfuel
  have hperm : (arr'.cells 0 arr.size).Perm (arr.cells 0 arr.size) :=
    hmoved.cells_perm fun _ hk => hk
  refine ⟨arr', ret, hrun, hmoved.size_eq, hperm, ?_⟩
  rcases hret with ⟨rfl, hplaced⟩ | ⟨hnonneg, htwice⟩
  · -- all numbers are in their places
    have hnodup := hperm.nodup_iff.mp (nodup_of_placed hplaced)
    refine ⟨fun ⟨v, hv⟩ => ?_, iff_of_true rfl hnodup⟩
    exact absurd hnodup (List.duplicate_iff_two_le_count.mpr hv).not_nodup
  · have hcount := two_le_count_of_twice htwice
    rw [hmoved.size_eq, hperm.count_eq] at hcount
    refine ⟨fun _ => hcount, iff_of_false ?_ ?_⟩
    · rintro rfl
      exact absurd hnonneg (by decide)
    · exact (List.duplicate_iff_two_le_count.mpr hcount).not_nodup

/-- An array in which two numbers occur twice. -/
def twoTwice : Block ℤ := ⟨7, fun i => [2, 3, 1, 0, 2, 5, 3].getD i 0⟩

theorem duplicate_finds_twoTwice :
    ∃ arr' ret, duplicate 8 twoTwice twoTwice.size = some (arr', ret) ∧
      arr'.size = twoTwice.size ∧
      (arr'.cells 0 twoTwice.size).Perm (twoTwice.cells 0 twoTwice.size) ∧
      ((∃ v, 2 ≤ (twoTwice.cells 0 twoTwice.size).count v) →
        2 ≤ (twoTwice.cells 0 twoTwice.size).count ret) ∧
      (ret = -1 ↔ (twoTwice.cells 0 twoTwice.size).Nodup) :=
  duplicate_finds twoTwice 8 (by decide) (by decide)

end DuplicateInArray

end CodeSnippet
