/-
CodeSnippet/PartitionSplits.lean

Which cells `partition` of src/algorithm/sort/sort.c accesses.  On an array with a
trace the function has the result that it has on the array alone, and it touches
nothing outside the part that it is called on.

Main result:
  * `partition_splits` — what `partition` does, with the cells it touches.
-/
import CodeSnippet.AccessTrace
import CodeSnippet.QuickSort

namespace CodeSnippet

open Memory Block Sorting

namespace PartitionSplits

/-! ### The same run with a trace -/

instance : IntArray (Traced ℤ) := ⟨Traced.load, Traced.store⟩

variable {s : Set ℕ} {lo hi fuel : ℕ} {pivotkey low high r : ℤ} {b b' : Block ℤ}
variable {trace : List Access}

/-- The traced run has this result, and everything that it touched is in `s`. -/
def Follows (s : Set ℕ) (run : Option (Traced ℤ × ℤ)) (b : Block ℤ) (r : ℤ) : Prop :=
  ∃ trace, run = some (⟨b, trace⟩, r) ∧ Touches s trace

theorem toNat_mem_Icc {i : ℤ} (hlo : lo ≤ i) (hhi : i ≤ hi) : i.toNat ∈ Set.Icc lo hi :=
  ⟨by omega, by omega⟩

theorem load_traced {i v : ℤ} (h : IntArray.load b i = some (v, b')) (hi : i.toNat ∈ s)
    (ht : Touches s trace) :
    b' = b ∧ ∃ trace', IntArray.load (⟨b, trace⟩ : Traced ℤ) i = some (v, ⟨b, trace'⟩) ∧
      Touches s trace' := by
  obtain ⟨w, hget, hpair⟩ := Option.map_eq_some_iff.mp h
  obtain ⟨rfl, rfl⟩ := Prod.mk.inj hpair
  obtain ⟨hnonneg, hload⟩ := Option.ite_none_right_eq_some.mp hget
  refine ⟨rfl, .read i.toNat :: trace, ?_, ht.cons hi⟩
  show Traced.load _ i = _
  rw [Traced.load, if_pos hnonneg, hload]
  rfl

theorem store_traced {i v : ℤ} (h : IntArray.store b i v = some b') (hi : i.toNat ∈ s)
    (ht : Touches s trace) :
    ∃ trace', IntArray.store (⟨b, trace⟩ : Traced ℤ) i v = some ⟨b', trace'⟩ ∧
      Touches s trace' := by
  obtain ⟨hnonneg, hstore⟩ := Option.ite_none_right_eq_some.mp h
  refine ⟨.write i.toNat :: trace, ?_, ht.cons hi⟩
  show Traced.store _ i v = _
  rw [Traced.store, if_pos hnonneg, hstore]
  rfl

theorem scanDown_follows (hlo : lo ≤ low) (hle : low ≤ high) (hhi : high ≤ hi)
    (ht : Touches (Set.Icc lo hi) trace)
    (h : scanDown pivotkey low fuel b high = some (b', r)) :
    Follows (Set.Icc lo hi) (scanDown pivotkey low fuel (⟨b, trace⟩ : Traced ℤ) high) b' r ∧
      low ≤ r ∧ r ≤ high := by
  induction fuel generalizing high trace with
  | zero => cases h
  | succ fuel ih =>
      rw [scanDown] at h ⊢
      by_cases hlt : low < high
      · rw [if_pos hlt] at h ⊢
        obtain ⟨⟨v, arr⟩, hv, hrest⟩ := Option.bind_eq_some_iff.mp h
        obtain ⟨rfl, trace', hload, ht'⟩ :=
          load_traced hv (toNat_mem_Icc (hlo.trans hle) hhi) ht
        rw [hload]
        show Follows _ (if v ≥ pivotkey then _ else _) b' r ∧ _
        by_cases hge : v ≥ pivotkey
        · rw [if_pos hge]
          obtain ⟨hrun, hlow, hhigh⟩ := ih (by omega) (by omega) ht' ((if_pos hge).symm.trans hrest)
          exact ⟨hrun, hlow, by omega⟩
        · rw [if_neg hge]
          cases (if_neg hge).symm.trans hrest
          exact ⟨⟨trace', rfl, ht'⟩, hle, le_rfl⟩
      · rw [if_neg hlt] at h ⊢
        cases h
        exact ⟨⟨trace, rfl, ht⟩, hle, le_rfl⟩

theorem scanUp_follows (hlo : lo ≤ low) (hle : low ≤ high) (hhi : high ≤ hi)
    (ht : Touches (Set.Icc lo hi) trace)
    (h : scanUp pivotkey high fuel b low = some (b', r)) :
    Follows (Set.Icc lo hi) (scanUp pivotkey high fuel (⟨b, trace⟩ : Traced ℤ) low) b' r ∧
      low ≤ r ∧ r ≤ high := by
  induction fuel generalizing low trace with
  | zero => cases h
  | succ fuel ih =>
      rw [scanUp] at h ⊢
      by_cases hlt : low < high
      · rw [if_pos hlt] at h ⊢
        obtain ⟨⟨v, arr⟩, hv, hrest⟩ := Option.bind_eq_some_iff.mp h
        obtain ⟨rfl, trace', hload, ht'⟩ :=
          load_traced hv (toNat_mem_Icc hlo (hle.trans hhi)) ht
        rw [hload]
        show Follows _ (if v ≤ pivotkey then _ else _) b' r ∧ _
        by_cases hge : v ≤ pivotkey
        · rw [if_pos hge]
          obtain ⟨hrun, hlow, hhigh⟩ := ih (by omega) (by omega) ht' ((if_pos hge).symm.trans hrest)
          exact ⟨hrun, by omega, hhigh⟩
        · rw [if_neg hge]
          cases (if_neg hge).symm.trans hrest
          exact ⟨⟨trace', rfl, ht'⟩, le_rfl, hle⟩
      · rw [if_neg hlt] at h ⊢
        cases h
        exact ⟨⟨trace, rfl, ht⟩, le_rfl, hle⟩

/-- A cell is copied to another one. -/
theorem copy_follows {src dst v : ℤ} {arr : Block ℤ} (hload : IntArray.load b src = some (v, arr))
    (hstore : IntArray.store arr dst v = some b') (hsrc : src.toNat ∈ s) (hdst : dst.toNat ∈ s)
    (ht : Touches s trace) (r : ℤ) :
    Follows s (do
      let (v, arr) ← IntArray.load (⟨b, trace⟩ : Traced ℤ) src
      let arr ← IntArray.store arr dst v
      some (arr, r)) b' r := by
  obtain ⟨rfl, trace₁, hload, ht₁⟩ := load_traced hload hsrc ht
  obtain ⟨trace₂, hstore, ht₂⟩ := store_traced hstore hdst ht₁
  rw [hload]
  show Follows s (IntArray.store (⟨arr, trace₁⟩ : Traced ℤ) dst v >>= _) b' r
  rw [hstore]
  exact ⟨trace₂, rfl, ht₂⟩

theorem moveDown_follows (hlo : lo ≤ low) (hle : low ≤ high) (hhi : high ≤ hi)
    (ht : Touches (Set.Icc lo hi) trace) (h : moveDown b low high = some (b', r)) :
    Follows (Set.Icc lo hi) (moveDown (⟨b, trace⟩ : Traced ℤ) low high) b' r ∧
      low ≤ r ∧ r ≤ high := by
  have hlow := toNat_mem_Icc hlo (hle.trans hhi)
  have hhigh := toNat_mem_Icc (hlo.trans hle) hhi
  rw [moveDown] at h ⊢
  by_cases hlt : low < high
  · rw [if_pos hlt] at h ⊢
    obtain ⟨⟨v, arr⟩, hv, h⟩ := Option.bind_eq_some_iff.mp h
    obtain ⟨arr', hput, h⟩ := Option.bind_eq_some_iff.mp h
    cases h
    exact ⟨copy_follows hv hput hhigh hlow ht (low + 1), by omega, by omega⟩
  · rw [if_neg hlt] at h ⊢
    cases h
    exact ⟨⟨trace, rfl, ht⟩, le_rfl, hle⟩

theorem moveUp_follows (hlo : lo ≤ low) (hle : low ≤ high) (hhi : high ≤ hi)
    (ht : Touches (Set.Icc lo hi) trace) (h : moveUp b low high = some (b', r)) :
    Follows (Set.Icc lo hi) (moveUp (⟨b, trace⟩ : Traced ℤ) low high) b' r ∧
      low ≤ r ∧ r ≤ high := by
  have hlow := toNat_mem_Icc hlo (hle.trans hhi)
  have hhigh := toNat_mem_Icc (hlo.trans hle) hhi
  rw [moveUp] at h ⊢
  by_cases hlt : low < high
  · rw [if_pos hlt] at h ⊢
    obtain ⟨⟨v, arr⟩, hv, h⟩ := Option.bind_eq_some_iff.mp h
    obtain ⟨arr', hput, h⟩ := Option.bind_eq_some_iff.mp h
    cases h
    exact ⟨copy_follows hv hput hlow hhigh ht (high - 1), by omega, by omega⟩
  · rw [if_neg hlt] at h ⊢
    cases h
    exact ⟨⟨trace, rfl, ht⟩, hle, le_rfl⟩

/-- **All rounds**, by induction on the fuel. -/
theorem partitionLoop_follows (hlo : lo ≤ low) (hle : low ≤ high) (hhi : high ≤ hi)
    (ht : Touches (Set.Icc lo hi) trace)
    (h : partitionLoop pivotkey fuel b low high = some (b', r)) :
    Follows (Set.Icc lo hi) (partitionLoop pivotkey fuel (⟨b, trace⟩ : Traced ℤ) low high) b' r := by
  induction fuel generalizing b low high trace with
  | zero => cases h
  | succ fuel ih =>
      rw [partitionLoop] at h ⊢
      by_cases hlt : low < high
      · rw [if_pos hlt] at h ⊢
        obtain ⟨⟨arr₁, high₁⟩, h₁, h⟩ := Option.bind_eq_some_iff.mp h
        obtain ⟨⟨arr₂, low₂⟩, h₂, h⟩ := Option.bind_eq_some_iff.mp h
        obtain ⟨⟨arr₃, low₃⟩, h₃, h⟩ := Option.bind_eq_some_iff.mp h
        obtain ⟨⟨arr₄, high₄⟩, h₄, h⟩ := Option.bind_eq_some_iff.mp h
        -- all four stay between `low` and `high`, which only come closer
        obtain ⟨⟨trace₁, hrun₁, ht₁⟩, hlow₁, hhigh₁⟩ := scanDown_follows hlo hle hhi ht h₁
        obtain ⟨⟨trace₂, hrun₂, ht₂⟩, hlow₂, hhigh₂⟩ :=
          moveDown_follows hlo hlow₁ (hhigh₁.trans hhi) ht₁ h₂
        obtain ⟨⟨trace₃, hrun₃, ht₃⟩, hlow₃, hhigh₃⟩ :=
          scanUp_follows (hlo.trans hlow₂) hhigh₂ (hhigh₁.trans hhi) ht₂ h₃
        obtain ⟨⟨trace₄, hrun₄, ht₄⟩, hlow₄, hhigh₄⟩ :=
          moveUp_follows (by omega) hhigh₃ (hhigh₁.trans hhi) ht₃ h₄
        rw [hrun₁]
        show Follows _ (moveDown (⟨arr₁, trace₁⟩ : Traced ℤ) low high₁ >>= _) b' r
        rw [hrun₂]
        show Follows _ (scanUp pivotkey high₁ (fuel + 1) (⟨arr₂, trace₂⟩ : Traced ℤ) low₂ >>= _) b' r
        rw [hrun₃]
        show Follows _ (moveUp (⟨arr₃, trace₃⟩ : Traced ℤ) low₃ high₁ >>= _) b' r
        rw [hrun₄]
        exact ih (by omega) hlow₄ (by omega) ht₄ h
      · -- the last store puts the pivot at `low`
        rw [if_neg hlt] at h ⊢
        obtain ⟨arr, hput, h⟩ := Option.bind_eq_some_iff.mp h
        obtain ⟨trace', hstore, ht'⟩ := store_traced hput (toNat_mem_Icc hlo (hle.trans hhi)) ht
        cases h
        rw [hstore]
        exact ⟨trace', rfl, ht'⟩

/-- **`partition` touches only the part it is called on.** -/
theorem partition_follows {lo hi : ℕ} (hle : lo ≤ hi)
    (h : partition fuel b lo hi = some (b', r)) :
    Follows (Set.Icc lo hi) (partition fuel (Traced.start b) lo hi) b' r := by
  rw [partition] at h ⊢
  by_cases hge : (lo : ℤ) ≥ hi
  · rw [if_pos hge] at h ⊢
    cases h
    exact ⟨[], rfl, touches_nil _⟩
  · rw [if_neg hge] at h ⊢
    obtain ⟨⟨v, arr⟩, hv, hrest⟩ := Option.bind_eq_some_iff.mp h
    have hle' : (lo : ℤ) ≤ hi := Int.ofNat_le.mpr hle
    obtain ⟨rfl, trace, hload, ht⟩ := load_traced hv (toNat_mem_Icc le_rfl hle') (touches_nil _)
    rw [Traced.start, hload]
    exact partitionLoop_follows le_rfl hle' le_rfl ht hrest

/-! ### The result -/

/-- A rearranged part is a permutation of what it was. -/
theorem cells_perm_part {lo n : ℕ} (h : Rearranged (Set.Ico lo (lo + n)) b b') :
    (b'.cells lo n).Perm (b.cells lo n) := by
  have hall : (b'.cells 0 (lo + n)).Perm (b.cells 0 (lo + n)) := h.cells_perm fun i hi => hi.2
  have hbelow : b'.cells 0 lo = b.cells 0 lo := by
    apply cells_congr
    intro k hk
    exact h.cell_eq fun hmem => absurd hmem.1 (by omega)
  rw [cells_add, cells_add, hbelow, Nat.zero_add, List.perm_append_left_iff] at hall
  exact hall

/-- **`partition` splits its part** around the first cell, and touches no other
part. -/
theorem partition_splits (arr : Block ℤ) (low high fuel : ℕ) (hlt : low < high)
    (hhigh : high < arr.size) (hfuel : high - low < fuel) :
    ∃ (arr' : Block ℤ) (p : ℕ) (trace : List Access),
      partition fuel (Traced.start arr) low high = some (⟨arr', trace⟩, (p : ℤ)) ∧
      partition fuel arr low high = some (arr', (p : ℤ)) ∧
      Touches (Set.Icc low high) trace ∧
      low ≤ p ∧ p ≤ high ∧ arr'.cell p = arr.cell low ∧
      (∀ k ∈ Set.Ico low p, arr'.cell k ≤ arr'.cell p) ∧
      (∀ k ∈ Set.Ioc p high, arr'.cell p ≤ arr'.cell k) ∧
      (arr'.cells low (high - low + 1)).Perm (arr.cells low (high - low + 1)) ∧
      ∀ k ∉ Set.Icc low high, arr'.cell k = arr.cell k := by
  obtain ⟨arr', p, hrun, h, hpivot⟩ :=
    partition_parted (by omega : low + 1 < high + 1) hhigh (by omega : _ ≤ fuel)
  rw [Nat.cast_succ, add_sub_cancel_right] at hrun
  have hfilled := h.filled
  rw [← hpivot, set_self] at hfilled
  obtain ⟨trace, htraced, htouches⟩ := partition_follows hlt.le hrun
  refine ⟨arr', p, trace, htraced, hrun, htouches, h.lo_le, Nat.lt_succ_iff.mp h.lt_hi, hpivot,
    fun k hk => ?_, fun k hk => ?_, cells_perm_part ?_, fun k hk => ?_⟩
  · rw [hpivot]
    exact h.below k hk.1 hk.2
  · rw [hpivot]
    exact h.above k hk.1 (Nat.lt_succ_of_le hk.2)
  · apply hfilled.mono
    exact Set.Ico_subset_Ico_right (by omega)
  · exact hfilled.cell_eq fun hmem => hk ⟨hmem.1, Nat.lt_succ_iff.mp hmem.2⟩

theorem partition_splits_testArr :
    ∃ (arr' : Block ℤ) (p : ℕ) (trace : List Access),
      partition 8 (Traced.start testArr) (1 : ℕ) (7 : ℕ) =
        some (⟨arr', trace⟩, (p : ℤ)) ∧
      partition 8 testArr (1 : ℕ) (7 : ℕ) = some (arr', (p : ℤ)) ∧
      Touches (Set.Icc 1 7) trace ∧
      1 ≤ p ∧ p ≤ 7 ∧ arr'.cell p = testArr.cell 1 ∧
      (∀ k ∈ Set.Ico 1 p, arr'.cell k ≤ arr'.cell p) ∧
      (∀ k ∈ Set.Ioc p 7, arr'.cell p ≤ arr'.cell k) ∧
      (arr'.cells 1 (7 - 1 + 1)).Perm (testArr.cells 1 (7 - 1 + 1)) ∧
      ∀ k ∉ Set.Icc 1 7, arr'.cell k = testArr.cell k :=
  partition_splits testArr 1 7 8 (by decide) (by decide) (by decide)

end PartitionSplits

end CodeSnippet
