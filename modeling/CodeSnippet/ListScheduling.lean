/-
CodeSnippet/ListScheduling.lean

Jobs on identical machines.  The jobs are taken in order, and each one goes to a
machine whose load is least; among several such machines any may be taken.

When the jobs are in ascending order the machines take turns: the loads after
`n` jobs are those of `turns` at `n`, …, `n + m - 1`, where the machine of a job
has also had every `m`th job before it.

Main results:
  * `Greedy.loads_eq` — the loads, up to the order of the machines.
  * `Greedy.isGreatest` — the largest finishing time.
-/
import Mathlib

namespace Scheduling

variable {α : Type*} [AddCommMonoid α] [LinearOrder α]
variable {m n k : ℕ} {t : ℕ → α} {loads : Fin m → α}

/-- `Greedy m t n loads`: the machines may have these loads after the first `n`
of the jobs `t`. -/
inductive Greedy (m : ℕ) (t : ℕ → α) : ℕ → (Fin m → α) → Prop
  | start : Greedy m t 0 fun _ => 0
  | assign {n : ℕ} {loads : Fin m → α} (i : Fin m) (h : Greedy m t n loads)
      (hleast : ∀ j, loads i ≤ loads j) :
      Greedy m t (n + 1) (Function.update loads i (loads i + t n))

/-- The jobs `k - m`, `k - 2 * m`, … together. -/
def turns (m : ℕ) (t : ℕ → α) (k : ℕ) : α := ∑ j ∈ Finset.range (k / m), t (k - (j + 1) * m)

/-! ### Any greedy run -/

namespace Greedy

/-- There always is a least load. -/
theorem exists_run [NeZero m] (t : ℕ → α) (n : ℕ) : ∃ loads : Fin m → α, Greedy m t n loads := by
  induction n with
  | zero => exact ⟨_, start⟩
  | succ n ih =>
      obtain ⟨loads, h⟩ := ih
      obtain ⟨i, hleast⟩ := Finite.exists_min loads
      exact ⟨_, h.assign i hleast⟩

/-- Only the jobs that were taken matter. -/
theorem congr {t' : ℕ → α} (h : Greedy m t n loads) (hsame : ∀ i < n, t i = t' i) :
    Greedy m t' n loads := by
  induction h with
  | start => exact start
  | @assign n loads i _ hleast ih =>
      have hbefore := ih fun i hi => hsame i (hi.trans n.lt_succ_self)
      rw [hsame n n.lt_succ_self]
      exact hbefore.assign i hleast

/-- No job is lost. -/
theorem sum_loads (h : Greedy m t n loads) : ∑ j, loads j = ∑ i ∈ Finset.range n, t i := by
  induction h with
  | start => rw [Finset.sum_const_zero, Finset.sum_range_zero]
  | @assign n loads i _ _ ih =>
      have hrest := Finset.add_sum_erase Finset.univ loads (Finset.mem_univ i)
      rw [Finset.sum_update_of_mem (Finset.mem_univ i), Finset.sdiff_singleton_eq_erase,
        Finset.sum_range_succ, ← ih, ← hrest]
      abel

variable [IsOrderedAddMonoid α]

theorem nonneg (h : Greedy m t n loads) (ht : ∀ i < n, 0 ≤ t i) : ∀ j, 0 ≤ loads j := by
  induction h with
  | start => exact fun _ => le_rfl
  | @assign n loads i _ _ ih =>
      have hbefore := ih fun i hi => ht i (hi.trans n.lt_succ_self)
      intro j
      rcases eq_or_ne j i with rfl | hne
      · rw [Function.update_self]
        exact add_nonneg (hbefore j) (ht n n.lt_succ_self)
      · rw [Function.update_of_ne hne]
        exact hbefore j

/-- A load is part of the whole work. -/
theorem load_le (h : Greedy m t n loads) (ht : ∀ i < n, 0 ≤ t i) (j : Fin m) :
    loads j ≤ ∑ i ∈ Finset.range n, t i := by
  rw [← h.sum_loads]
  exact Finset.single_le_sum (fun j _ => h.nonneg ht j) (Finset.mem_univ j)

end Greedy

/-! ### Turns -/

omit [LinearOrder α] in
theorem turns_of_lt (h : k < m) : turns m t k = 0 := by
  rw [turns, Nat.div_eq_of_lt h, Finset.sum_range_zero]

omit [LinearOrder α] in
/-- The job `k`, and every `m`th one before it. -/
theorem turns_last (hm : 0 < m) (k : ℕ) :
    turns m t (k + m) = ∑ j ∈ Finset.range (k / m + 1), t (k - j * m) := by
  rw [turns, Nat.add_div_right k hm]
  apply Finset.sum_congr rfl
  intro j _
  rw [Nat.succ_mul, Nat.add_sub_add_right]

omit [LinearOrder α] in
theorem turns_add (hm : 0 < m) (k : ℕ) : turns m t (k + m) = turns m t k + t k := by
  rw [turns_last hm, Finset.sum_range_succ', zero_mul, Nat.sub_zero]
  rfl

omit [LinearOrder α] in
/-- A load is one of the turns of the window, and the other way round. -/
theorem exists_load_iff {x : α}
    (hloads : Finset.univ.val.map loads = (Finset.Ico k (k + m)).val.map (turns m t)) :
    (∃ j, loads j = x) ↔ ∃ i, (k ≤ i ∧ i < k + m) ∧ turns m t i = x := by
  have hmem : x ∈ Finset.univ.val.map loads ↔ x ∈ (Finset.Ico k (k + m)).val.map (turns m t) := by
    rw [hloads]
  rw [Multiset.mem_map, Multiset.mem_map] at hmem
  simpa only [Finset.mem_val, Finset.mem_univ, true_and, Finset.mem_Ico] using hmem

section Ascending

variable [IsOrderedAddMonoid α] (hm : 0 < m) (hmono : ∀ i, i + 1 < n → t i ≤ t (i + 1))
  (hnonneg : ∀ i < n, 0 ≤ t i)
include hm hmono hnonneg

theorem turns_le_succ (hk : k + 1 < n + m) : turns m t k ≤ turns m t (k + 1) := by
  induction k using Nat.strong_induction_on with
  | _ k ih =>
      rcases Nat.lt_or_ge k m with hlt | hge
      · rw [turns_of_lt hlt]
        rcases Nat.lt_or_ge (k + 1) m with hnext | hnext
        · rw [turns_of_lt hnext]
        · obtain rfl : k + 1 = m := by omega
          -- the first job
          have hfirst := turns_add (t := t) hm 0
          rw [zero_add, turns_of_lt hm, zero_add] at hfirst
          rw [hfirst]
          exact hnonneg 0 (by omega)
      · obtain ⟨j, rfl⟩ := Nat.exists_eq_add_of_le' hge
        rw [Nat.add_right_comm, turns_add hm, turns_add hm]
        exact add_le_add (ih j (by omega) (by omega)) (hmono j (by omega))

/-- **Later turns are longer.** -/
theorem turns_mono {j : ℕ} (hkj : k ≤ j) (hj : j < n + m) : turns m t k ≤ turns m t j := by
  induction j, hkj using Nat.le_induction with
  | base => exact le_rfl
  | succ j _ ih => exact (ih (by omega)).trans (turns_le_succ hm hmono hnonneg hj)

/-- The least load is the oldest turn. -/
theorem least_eq {i : Fin m} (hk : k < n) (hleast : ∀ j, loads i ≤ loads j)
    (hloads : Finset.univ.val.map loads = (Finset.Ico k (k + m)).val.map (turns m t)) :
    loads i = turns m t k := by
  apply le_antisymm
  · obtain ⟨j, hj⟩ := (exists_load_iff hloads).mpr ⟨k, by omega, rfl⟩
    rw [← hj]
    exact hleast j
  · obtain ⟨j, hj, hi⟩ := (exists_load_iff hloads).mp ⟨i, rfl⟩
    rw [← hi]
    exact turns_mono hm hmono hnonneg hj.1 (by omega)

/-- **The machines take turns.** -/
theorem Greedy.loads_eq (h : Greedy m t k loads) (hk : k ≤ n) :
    Finset.univ.val.map loads = (Finset.Ico k (k + m)).val.map (turns m t) := by
  induction h with
  | start =>
      have hzero : (Finset.Ico 0 (0 + m)).val.map (turns m t) =
          (Finset.Ico 0 (0 + m)).val.map fun _ => 0 := by
        apply Multiset.map_congr rfl
        intro j hj
        have hlt := (Finset.mem_Ico.mp (Finset.mem_val.mp hj)).2
        rw [zero_add] at hlt
        exact turns_of_lt hlt
      rw [hzero, Multiset.map_const', Multiset.map_const']
      congr 1
      show (Finset.univ : Finset (Fin m)).card = (Finset.Ico 0 (0 + m)).card
      rw [Finset.card_fin, Nat.card_Ico, zero_add, Nat.sub_zero]
  | @assign k loads i h hleast ih =>
      have hloads := ih (by omega)
      have hi := least_eq hm hmono hnonneg hk hleast hloads
      -- the oldest turn is taken out of the window, and a new one put in
      have hfront : (Finset.Ico k (k + m)).val = k ::ₘ (Finset.Ico (k + 1) (k + m)).val := by
        rw [← Finset.insert_Ico_add_one_left_eq_Ico (by omega : k < k + m),
          Finset.insert_val_of_notMem (by simp)]
      have hback : (Finset.Ico (k + 1) (k + 1 + m)).val =
          (k + m) ::ₘ (Finset.Ico (k + 1) (k + m)).val := by
        rw [Nat.add_right_comm, ← Finset.insert_Ico_right_eq_Ico_add_one (by omega),
          Finset.insert_val_of_notMem (by simp)]
      have huniv : (Finset.univ : Finset (Fin m)).val = i ::ₘ (Finset.univ.erase i).val := by
        rw [← Finset.insert_val_of_notMem (Finset.notMem_erase i _),
          Finset.insert_erase (Finset.mem_univ i)]
      rw [huniv, Multiset.map_cons, hfront, Multiset.map_cons, hi] at hloads
      have hothers := (Multiset.cons_inj_right _).mp hloads
      have hsame : (Finset.univ.erase i).val.map (Function.update loads i (loads i + t k)) =
          (Finset.univ.erase i).val.map loads := by
        apply Multiset.map_congr rfl
        intro j hj
        exact Function.update_of_ne (Finset.ne_of_mem_erase (Finset.mem_val.mp hj)) ..
      rw [huniv, Multiset.map_cons, Function.update_self, hsame, hothers, hback,
        Multiset.map_cons, turns_add hm, hi]

/-- **The largest finishing time** is that of the last job. -/
theorem Greedy.isGreatest (h : Greedy m t n loads) (hn : 0 < n) :
    IsGreatest (Set.range loads) (turns m t (n - 1 + m)) := by
  have hloads := h.loads_eq hm hmono hnonneg le_rfl
  constructor
  · exact (exists_load_iff hloads).mpr ⟨n - 1 + m, by omega, rfl⟩
  · rintro x hx
    obtain ⟨i, hi, rfl⟩ := (exists_load_iff hloads).mp hx
    exact turns_mono hm hmono hnonneg (by omega) (by omega)

end Ascending

end Scheduling
