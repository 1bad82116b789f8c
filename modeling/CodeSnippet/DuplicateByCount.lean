/-
CodeSnippet/DuplicateByCount.lean

`duplicate` of src/exam/point_to_offer/0302_duplicateInArray.c, a binary search
over values: when more elements than there are values lie in a range, this is so
in one of its halves.  The array is only read.

Main results:
  * `searchLoop_eq` — the loop on any range of values.
  * `duplicate_counts` — the whole function.
-/
import CodeSnippet.Block

namespace CodeSnippet

open Memory Block

namespace DuplicateByCount

/-! ### Source -/

/-- The loop of `countRange` from `i` on, with `m` rounds left. -/
def countFrom (arr : Block ℤ) (start last : ℤ) : ℕ → ℕ → ℤ → Option ℤ
  | 0, _, count => some count
  | m + 1, i, count => do
      let v ← arr.load i
      countFrom arr start last m (i + 1) (if v ≥ start ∧ v ≤ last then count + 1 else count)

/-- The parameter `end` is `last`. -/
def countRange (arr : Block ℤ) (n : ℕ) (start last : ℤ) : Option ℤ :=
  countFrom arr start last n 0 0

/-- `while (end >= start)`, up to the `return`. -/
def searchLoop (arr : Block ℤ) (n : ℕ) : ℕ → ℤ → ℤ → Option ℤ
  | 0, _, _ => none
  | fuel + 1, start, last =>
      if last ≥ start then do
        let mid := ((last - start) >>> (1 : ℕ)) + start
        let count ← countRange arr n start mid
        if start = last then
          if count > 1 then some start else some (-1)
        else if count > mid - start + 1 then searchLoop arr n fuel start mid
        else searchLoop arr n fuel (mid + 1) last
      else some (-1)

def duplicate (fuel : ℕ) (arr : Block ℤ) (n : ℕ) : Option ℤ := searchLoop arr n fuel 1 (n - 1)

/-! ### Counting in ranges -/

/-- How many elements lie between `a` and `b`. -/
def inRange (l : List ℤ) (a b : ℤ) : ℕ := l.countP fun v => a ≤ v ∧ v ≤ b

theorem inRange_cons (v : ℤ) (l : List ℤ) (a b : ℤ) :
    inRange (v :: l) a b = inRange l a b + if a ≤ v ∧ v ≤ b then 1 else 0 := by
  rw [inRange, List.countP_cons]
  simp only [decide_eq_true_eq]
  rfl

/-- A range splits at any value. -/
theorem inRange_add (l : List ℤ) {a b c : ℤ} (hab : a ≤ b + 1) (hbc : b ≤ c) :
    inRange l a b + inRange l (b + 1) c = inRange l a c := by
  induction l with
  | nil => rfl
  | cons v l ih =>
      rw [inRange_cons, inRange_cons, inRange_cons, ← ih]
      split_ifs <;> omega

theorem inRange_self (l : List ℤ) (a : ℤ) : inRange l a a = l.count a := by
  apply List.countP_congr
  intro v _
  rw [decide_eq_true_iff, beq_iff_eq, ← le_antisymm_iff, eq_comm]

theorem inRange_eq_length {l : List ℤ} {a b : ℤ} (h : ∀ v ∈ l, a ≤ v ∧ v ≤ b) :
    inRange l a b = l.length :=
  List.countP_eq_length.mpr fun v hv => decide_eq_true (h v hv)

theorem countFrom_eq {arr : Block ℤ} {m i : ℕ} (h : i + m ≤ arr.size) (start last count : ℤ) :
    countFrom arr start last m i count = some (count + inRange (arr.cells i m) start last) := by
  induction m generalizing i count with
  | zero => rw [countFrom, cells_zero, inRange, List.countP_nil, Nat.cast_zero, add_zero]
  | succ m ih =>
      have hcells : arr.cells i (m + 1) = arr.cell i :: arr.cells (i + 1) m := by
        rw [Nat.add_comm, cells_add, cells_succ, cells_zero]
        rfl
      rw [countFrom, load_eq (by omega), hcells, inRange_cons]
      refine (ih (by omega) _).trans (congrArg some ?_)
      split_ifs <;> push_cast <;> omega

theorem countRange_eq (arr : Block ℤ) (start last : ℤ) :
    countRange arr arr.size start last = some (inRange (arr.cells 0 arr.size) start last : ℤ) := by
  rw [countRange, countFrom_eq (Nat.zero_add _).le, zero_add]

/-! ### The search -/

variable {arr : Block ℤ} {fuel : ℕ} {start last : ℤ}

/-- One round on a range that is not empty. -/
theorem searchLoop_succ (h : start ≤ last) :
    ∃ mid, start ≤ mid ∧ mid ≤ last ∧ (start < last → mid < last) ∧
      searchLoop arr arr.size (fuel + 1) start last =
        if start = last then
          if (inRange (arr.cells 0 arr.size) start mid : ℤ) > 1 then some start else some (-1)
        else if (inRange (arr.cells 0 arr.size) start mid : ℤ) > mid - start + 1 then
          searchLoop arr arr.size fuel start mid
        else searchLoop arr arr.size fuel (mid + 1) last := by
  have hhalf : (last - start) >>> (1 : ℕ) = (last - start) / 2 := Int.shiftRight_eq_div_pow _ 1
  refine ⟨(last - start) >>> (1 : ℕ) + start, by omega, by omega, by omega, ?_⟩
  rw [searchLoop, if_pos h]
  show (countRange arr arr.size start _ >>= _) = _
  rw [countRange_eq]
  rfl

/-- **The search**, by induction on the fuel.  What it finds occurs twice, and it
finds something where more elements than values are in the range. -/
theorem searchLoop_eq (hfuel : (last - start + 1).toNat < fuel) :
    ∃ v, searchLoop arr arr.size fuel start last = some v ∧
      (v ≠ -1 → 2 ≤ (arr.cells 0 arr.size).count v) ∧
      (0 ≤ start → start ≤ last → last - start + 1 < inRange (arr.cells 0 arr.size) start last →
        v ≠ -1) := by
  induction fuel generalizing start last with
  | zero => exact absurd hfuel (Nat.not_lt_zero _)
  | succ fuel ih =>
      by_cases hle : start ≤ last
      · obtain ⟨mid, hlow, hhigh, hlt, hround⟩ := @searchLoop_succ arr fuel _ _ hle
        rw [hround]
        rcases hle.eq_or_lt with rfl | hless
        · -- a single value, which is counted itself
          obtain rfl : mid = start := le_antisymm hhigh hlow
          rw [if_pos rfl, inRange_self]
          by_cases hcount : ((arr.cells 0 arr.size).count mid : ℤ) > 1
          · rw [if_pos hcount]
            exact ⟨mid, rfl, fun _ => by omega, fun h _ _ => by omega⟩
          · rw [if_neg hcount]
            exact ⟨-1, rfl, fun h => absurd rfl h, fun _ _ h => absurd h (by omega)⟩
        have hmid := hlt hless
        rw [if_neg hless.ne]
        -- elements and values are counted in both halves
        have hsplit := inRange_add (arr.cells 0 arr.size) (by omega : start ≤ mid + 1) hhigh
        by_cases hmore : (inRange (arr.cells 0 arr.size) start mid : ℤ) > mid - start + 1
        · rw [if_pos hmore]
          obtain ⟨v, hrun, hsound, hfound⟩ := ih (by omega : (mid - start + 1).toNat < fuel)
          exact ⟨v, hrun, hsound, fun h _ _ => hfound h hlow hmore⟩
        · rw [if_neg hmore]
          obtain ⟨v, hrun, hsound, hfound⟩ := ih (by omega : (last - (mid + 1) + 1).toNat < fuel)
          exact ⟨v, hrun, hsound, fun h _ hcount => hfound (by omega) hmid (by omega)⟩
      · rw [searchLoop, if_neg hle]
        exact ⟨-1, rfl, fun h => absurd rfl h, fun _ h => absurd h hle⟩

/-- **What `duplicate` returns** for any array occurs twice, unless it is -1, and
for `n` elements between 1 and `n - 1` it is not. -/
theorem duplicate_counts (arr : Block ℤ) (fuel : ℕ) (hfuel : arr.size < fuel) :
    ∃ v, duplicate fuel arr arr.size = some v ∧
      (v ≠ -1 → 2 ≤ (arr.cells 0 arr.size).count v) ∧
      (2 ≤ arr.size → (∀ k < arr.size, 1 ≤ arr.cell k ∧ arr.cell k ≤ arr.size - 1) →
        v ≠ -1) := by
  obtain ⟨v, hrun, hsound, hfound⟩ :=
    @searchLoop_eq arr fuel 1 (arr.size - 1) (by omega)
  refine ⟨v, hrun, hsound, fun hn hrange => hfound (by decide) (by omega) ?_⟩
  rw [inRange_eq_length, cells_length]
  · omega
  · intro w hw
    obtain ⟨k, hk, rfl⟩ := List.mem_map.mp hw
    rw [Nat.zero_add]
    exact hrange k (List.mem_range.mp hk)

theorem duplicate_counts_eight :
    ∃ v, duplicate 9 ⟨8, fun i => [2, 3, 5, 4, 3, 2, 6, 7].getD i 0⟩ 8 = some v ∧
      (v ≠ -1 → 2 ≤ [2, 3, 5, 4, 3, 2, 6, 7].count v) ∧
      (2 ≤ 8 → (∀ k < 8, 1 ≤ [2, 3, 5, 4, 3, 2, 6, 7].getD k (0 : ℤ) ∧
        [2, 3, 5, 4, 3, 2, 6, 7].getD k (0 : ℤ) ≤ ((8 : ℕ) : ℤ) - 1) → v ≠ -1) :=
  duplicate_counts ⟨8, fun i => [2, 3, 5, 4, 3, 2, 6, 7].getD i 0⟩ 9 (by decide)

end DuplicateByCount

end CodeSnippet
