/-
CodeSnippet/Rearrangement.lean

Sorting in place.  `Rearranged s b b'` says that `b'` has the cells of `b` in
another order, and that only cells in `s` have moved.

A program that moves cells through a variable leaves a hole, whose cell is the
one to be overwritten next.  Such a block is not a rearrangement, but it becomes
one when the hole is filled with the variable; moving a cell into the hole
exchanges two cells of the block so filled (`Rearranged.moveHole`).

Main results:
  * `Rearranged.forall_cell` — what holds of all cells in `s` holds afterwards.
  * `Rearranged.cells_perm` — the first cells are a permutation of what they were.
  * `cells_eq_of_sorted` — two sorted rearrangements of a block are equal.
-/
import CodeSnippet.Block

namespace Memory

namespace Block

variable {α : Type}

/-! ### Rearrangements -/

/-- The cells of `b` in another order, where those outside `s` stay. -/
structure Rearranged (s : Set ℕ) (b b' : Block α) : Prop where
  size_eq : b'.size = b.size
  order : ∃ σ : Equiv.Perm ℕ, (∀ i ∉ s, σ i = i) ∧ ∀ i, b'.cell i = b.cell (σ i)

/-- Two cells change places. -/
def exchange (b : Block α) (i j : ℕ) : Block α := (b.set i (b.cell j)).set j (b.cell i)

/-- A cell is filled with what it holds. -/
theorem set_self (b : Block α) (i : ℕ) : b.set i (b.cell i) = b := by
  refine congrArg (Block.mk b.size) (funext fun k => ?_)
  show (if k = i then b.cell i else b.cell k) = b.cell k
  split_ifs with hk
  · rw [hk]
  · rfl

namespace Rearranged

variable {s t : Set ℕ} {b b' b'' c : Block α} {i j n : ℕ}

theorem refl (s : Set ℕ) (b : Block α) : Rearranged s b b :=
  ⟨rfl, 1, fun _ _ => rfl, fun _ => rfl⟩

theorem trans (h : Rearranged s b b') (h' : Rearranged s b' b'') : Rearranged s b b'' := by
  obtain ⟨hsize, σ, hσ, hcell⟩ := h
  obtain ⟨hsize', σ', hσ', hcell'⟩ := h'
  refine ⟨hsize'.trans hsize, σ'.trans σ, fun i hi => ?_, fun i => ?_⟩
  · rw [Equiv.trans_apply, hσ' i hi, hσ i hi]
  · rw [Equiv.trans_apply, hcell', hcell]

theorem mono (h : Rearranged s b b') (hst : s ⊆ t) : Rearranged t b b' := by
  obtain ⟨hsize, σ, hσ, hcell⟩ := h
  exact ⟨hsize, σ, fun i hi => hσ i fun his => hi (hst his), hcell⟩

/-- The cells outside `s` are the same. -/
theorem cell_eq (h : Rearranged s b b') (hi : i ∉ s) : b'.cell i = b.cell i := by
  obtain ⟨-, σ, hσ, hcell⟩ := h
  rw [hcell, hσ i hi]

theorem exchange (b : Block α) (hi : i ∈ s) (hj : j ∈ s) : Rearranged s b (b.exchange i j) := by
  refine ⟨rfl, Equiv.swap i j, fun k hk => ?_, fun k => ?_⟩
  · exact Equiv.swap_apply_of_ne_of_ne (fun e => hk (e ▸ hi)) (fun e => hk (e ▸ hj))
  · rw [Block.exchange, set_cell, set_cell, Equiv.swap_apply_def]
    split_ifs with hkj hki hki
    · rw [← hki, hkj]
    · rfl
    · rfl
    · rfl

/-- **Moving a cell into the hole.**  The hole goes from `i` to `j`. -/
theorem moveHole {x : α} (h : Rearranged s b (c.set i x)) (hi : i ∈ s) (hj : j ∈ s)
    (hne : i ≠ j) : Rearranged s b ((c.set i (c.cell j)).set j x) := by
  have hexchange : (c.set i (c.cell j)).set j x = (c.set i x).exchange i j := by
    refine congrArg (Block.mk c.size) (funext fun k => ?_)
    simp only [set_cell, if_neg hne.symm, if_true]
    split_ifs <;> rfl
  rw [hexchange]
  exact h.trans (exchange _ hi hj)

/-- **What holds of the cells in `s`** holds of them afterwards. -/
theorem forall_cell (h : Rearranged s b b') {P : α → Prop} (hP : ∀ i ∈ s, P (b.cell i)) :
    ∀ i ∈ s, P (b'.cell i) := by
  obtain ⟨-, σ, hσ, hcell⟩ := h
  intro i hi
  rw [hcell]
  apply hP
  by_contra hout
  -- `σ` would map both `i` and `σ i` to `σ i`
  rw [σ.injective (hσ _ hout)] at hout
  exact hout hi

/-- **The first cells** are a permutation of what they were. -/
theorem cells_perm (h : Rearranged s b b') (hs : ∀ i ∈ s, i < n) :
    (b'.cells 0 n).Perm (b.cells 0 n) := by
  obtain ⟨-, σ, hσ, hcell⟩ := h
  have hrange : ((List.range n).map σ).Perm (List.range n) := by
    rw [List.perm_ext_iff_of_nodup (List.nodup_range.map σ.injective) List.nodup_range]
    intro k
    rw [List.mem_map, List.mem_range]
    constructor
    · rintro ⟨i, hi, rfl⟩
      rw [List.mem_range] at hi
      by_contra hk
      have hfixed := hσ _ fun hmem => hk (hs _ hmem)
      rw [σ.injective hfixed] at hk
      exact hk hi
    · intro hk
      refine ⟨σ.symm k, List.mem_range.mpr ?_, σ.apply_symm_apply k⟩
      by_contra hi
      have hfixed := hσ _ fun hmem => hi (hs _ hmem)
      rw [σ.apply_symm_apply] at hfixed
      exact hi (hfixed ▸ hk)
  have hcells : b'.cells 0 n = ((List.range n).map σ).map b.cell := by
    rw [cells, List.map_map]
    apply List.map_congr_left
    intro i _
    rw [Nat.zero_add, hcell]
    rfl
  have hcells' : b.cells 0 n = (List.range n).map b.cell := by
    rw [cells]
    simp only [Nat.zero_add]
  rw [hcells, hcells']
  exact hrange.map b.cell

end Rearranged

/-! ### Sorted blocks -/

variable [LinearOrder α] {s : Set ℕ} {b c d : Block α} {n : ℕ}

theorem cells_pairwise (h : MonotoneOn b.cell (Set.Iio n)) :
    (b.cells 0 n).Pairwise (· ≤ ·) := by
  rw [cells, List.pairwise_map]
  refine List.Pairwise.imp_of_mem ?_ (List.pairwise_lt_range (n := n))
  intro i j hi hj hlt
  rw [Nat.zero_add, Nat.zero_add]
  exact h (List.mem_range.mp hi) (List.mem_range.mp hj) hlt.le

/-- Neighbours in order make a block sorted. -/
theorem monotoneOn_of_le_succ {lo hi : ℕ}
    (h : ∀ k, lo ≤ k → k < hi → b.cell k ≤ b.cell (k + 1)) :
    MonotoneOn b.cell (Set.Icc lo hi) := by
  rintro i ⟨hlo, -⟩ j ⟨-, hhi⟩ hij
  induction j, hij using Nat.le_induction with
  | base => exact le_rfl
  | succ j hij ih => exact (ih (by omega)).trans (h j (hlo.trans hij) hhi)

/-- Two sorted parts with a cell between them that separates them. -/
theorem monotoneOn_of_parts {lo p hi : ℕ} (hlow : MonotoneOn b.cell (Set.Ico lo p))
    (hhigh : MonotoneOn b.cell (Set.Ico (p + 1) hi))
    (hle : ∀ k ∈ Set.Ico lo p, b.cell k ≤ b.cell p)
    (hge : ∀ k ∈ Set.Ico (p + 1) hi, b.cell p ≤ b.cell k) :
    MonotoneOn b.cell (Set.Ico lo hi) := by
  have hupto : ∀ k, lo ≤ k → k ≤ p → b.cell k ≤ b.cell p := by
    intro k hk hkp
    rcases Nat.eq_or_lt_of_le hkp with rfl | hlt
    · exact le_rfl
    · exact hle k ⟨hk, hlt⟩
  rintro i ⟨hlo, -⟩ j ⟨-, hhi⟩ hij
  rcases Nat.lt_or_ge p j with hpj | hjp
  · have hj : j ∈ Set.Ico (p + 1) hi := ⟨hpj, hhi⟩
    rcases Nat.lt_or_ge p i with hpi | hip
    · exact hhigh ⟨hpi, hij.trans_lt hhi⟩ hj hij
    · exact (hupto i hlo hip).trans (hge j hj)
  · rcases Nat.eq_or_lt_of_le hjp with rfl | hlt
    · exact hupto i hlo hij
    · exact hlow ⟨hlo, hij.trans_lt hlt⟩ ⟨hlo.trans hij, hlt⟩ hij

/-- **Sorting has one result.** -/
theorem cells_eq_of_sorted (hc : Rearranged s b c) (hd : Rearranged s b d)
    (hs : ∀ i ∈ s, i < n) (hcsorted : MonotoneOn c.cell (Set.Iio n))
    (hdsorted : MonotoneOn d.cell (Set.Iio n)) : c.cells 0 n = d.cells 0 n :=
  ((hc.cells_perm hs).trans (hd.cells_perm hs).symm).eq_of_pairwise'
    (cells_pairwise hcsorted) (cells_pairwise hdsorted)

end Block

end Memory
