/-
CodeSnippet/MergeArray.lean

`mergeArray` of src/exam/point_to_offer/05_mergeArray.c, which merges two sorted
arrays from the back into the first of them.

The model leaves open what the elements are; only a key is compared.  The source
is the case where the key is the element itself.  With other elements one sees
which of two equal keys comes first.

Main results:
  * `rest_eq` — a run with the remaining cells of both arrays.
  * `mergeArray_merges` — the whole function, on arrays that an `int` can index.
-/
import CodeSnippet.AccessTrace
import CodeSnippet.CInt

namespace CodeSnippet

open Memory Block

namespace MergeArray

variable {α : Type}

/-! ### Source -/

/-- The arrays and the local variables. -/
structure State (α : Type) where
  arr1 : Traced α
  arr2 : Traced α
  i : ℤ
  j : ℤ
  k : ℤ

/-- `arr1[k--] = arr1[i--];` -/
def takeFirst (s : State α) : Option (State α) := do
  let (x, arr1) ← s.arr1.load s.i
  let arr1 ← arr1.store s.k x
  some { s with arr1 := arr1, i := s.i - 1, k := s.k - 1 }

/-- `arr1[k--] = arr2[j--];` -/
def takeSecond (s : State α) : Option (State α) := do
  let (y, arr2) ← s.arr2.load s.j
  let arr1 ← s.arr1.store s.k y
  some { s with arr1 := arr1, arr2 := arr2, j := s.j - 1, k := s.k - 1 }

/-- `while (i >= 0 && j >= 0)` -/
def mergeLoop (key : α → ℤ) : ℕ → State α → Option (State α)
  | 0, _ => none
  | fuel + 1, s =>
      if s.i ≥ 0 ∧ s.j ≥ 0 then do
        let (x, arr1) ← s.arr1.load s.i
        let (y, arr2) ← s.arr2.load s.j
        let s := { s with arr1 := arr1, arr2 := arr2 }
        let s ← (if key x > key y then takeFirst s else takeSecond s)
        mergeLoop key fuel s
      else some s

/-- `while (k >= 0)` -/
def tailLoop : ℕ → State α → Option (State α)
  | 0, _ => none
  | fuel + 1, s =>
      if s.k ≥ 0 then do
        let s ← takeSecond s
        tailLoop fuel s
      else some s

/-- What follows the first loop. -/
def finish (fuel : ℕ) (s : State α) : Option (Traced α × Traced α) :=
  if s.i < 0 then do
    let s ← tailLoop fuel s
    some (s.arr1, s.arr2)
  else some (s.arr1, s.arr2)

/-- Both arrays afterwards. -/
def mergeArray (key : α → ℤ) (fuel : ℕ) (arr1 : Traced α) (n1 : ℤ) (arr2 : Traced α) (n2 : ℤ) :
    Option (Traced α × Traced α) := do
  let i ← checkedInt (n1 - 1)
  let j ← checkedInt (n2 - 1)
  let n ← checkedInt (n1 + n2)
  let k ← checkedInt (n - 1)
  let s ← mergeLoop key fuel ⟨arr1, arr2, i, j, k⟩
  finish fuel s

/-! ### Merging from the back -/

variable {key : α → ℤ}

/-- Among equal keys, those of the second list come first in the result, which
is read from the back. -/
def mergeBack (key : α → ℤ) (ys xs : List α) : List α :=
  ys.merge xs fun y x => decide (key x ≤ key y)

theorem mergeBack_nil (ys : List α) : mergeBack key ys [] = ys := List.merge_right ys

theorem nil_mergeBack (xs : List α) : mergeBack key [] xs = xs := List.nil_merge xs

theorem mergeBack_cons_of_lt {x y : α} (h : key y < key x) (ys xs : List α) :
    mergeBack key (y :: ys) (x :: xs) = x :: mergeBack key (y :: ys) xs :=
  List.cons_merge_cons_neg _ _ _ (by rw [decide_eq_true_iff]; exact not_le.mpr h)

theorem mergeBack_cons_of_le {x y : α} (h : key x ≤ key y) (ys xs : List α) :
    mergeBack key (y :: ys) (x :: xs) = y :: mergeBack key ys (x :: xs) :=
  List.cons_merge_cons_pos _ _ _ (decide_eq_true h)

theorem mergeBack_perm (ys xs : List α) : (mergeBack key ys xs).Perm (ys ++ xs) :=
  List.merge_perm_append _

theorem mergeBack_pairwise {ys xs : List α} (hys : ys.Pairwise fun a b => key b ≤ key a)
    (hxs : xs.Pairwise fun a b => key b ≤ key a) :
    (mergeBack key ys xs).Pairwise fun a b => key b ≤ key a := by
  have hmerge := @List.pairwise_merge _ (fun y x => decide (key x ≤ key y)) ?_ ?_ ys xs
  · simp only [decide_eq_true_eq] at hmerge
    exact hmerge hys hxs
  · intro a b c hab hbc
    rw [decide_eq_true_iff] at hab hbc ⊢
    exact hbc.trans hab
  · intro a b
    rw [Bool.or_eq_true, decide_eq_true_iff, decide_eq_true_iff]
    exact le_total _ _

/-- The elements with key `c`. -/
def withKey (key : α → ℤ) (c : ℤ) (l : List α) : List α := l.filter fun a => key a = c

theorem withKey_cons_of_eq {c : ℤ} {a : α} (h : key a = c) (l : List α) :
    withKey key c (a :: l) = a :: withKey key c l :=
  List.filter_cons_of_pos (decide_eq_true h)

theorem withKey_cons_of_ne {c : ℤ} {a : α} (h : key a ≠ c) (l : List α) :
    withKey key c (a :: l) = withKey key c l :=
  List.filter_cons_of_neg (by rwa [decide_eq_true_iff])

/-- **Equal keys** keep their order, those of the first list in front. -/
theorem withKey_mergeBack {ys xs : List α} (hys : ys.Pairwise fun a b => key b ≤ key a) (c : ℤ) :
    withKey key c (mergeBack key ys xs) = withKey key c ys ++ withKey key c xs := by
  induction xs generalizing ys with
  | nil =>
      rw [mergeBack_nil]
      exact (List.append_nil _).symm
  | cons x xs ihx =>
      induction ys with
      | nil =>
          rw [nil_mergeBack]
          rfl
      | cons y ys ihy =>
          rcases lt_or_ge (key y) (key x) with hlt | hge
          · rw [mergeBack_cons_of_lt hlt]
            rcases eq_or_ne (key x) c with hx | hx
            · -- nothing in the first list is as large as `x`
              have hnone : withKey key c (y :: ys) = [] := by
                rw [withKey, List.filter_eq_nil_iff]
                intro a ha
                have hle : key a ≤ key y := by
                  rcases List.mem_cons.mp ha with rfl | ha
                  · exact le_rfl
                  · exact List.rel_of_pairwise_cons hys ha
                rw [decide_eq_true_iff, ← hx]
                exact (hle.trans_lt hlt).ne
              rw [withKey_cons_of_eq hx, withKey_cons_of_eq hx, ihx hys, hnone]
              rfl
            · rw [withKey_cons_of_ne hx, withKey_cons_of_ne hx, ihx hys]
          · rw [mergeBack_cons_of_le hge]
            rcases eq_or_ne (key y) c with hy | hy
            · rw [withKey_cons_of_eq hy, withKey_cons_of_eq hy, ihy hys.of_cons]
              rfl
            · rw [withKey_cons_of_ne hy, withKey_cons_of_ne hy, ihy hys.of_cons]

/-! ### One round -/

/-- `a` cells of the first array and `b` of the second are left to be moved. -/
structure Left (n1 a b : ℕ) (s : State α) : Prop where
  i_eq : s.i = a - 1
  j_eq : s.j = b - 1
  k_eq : s.k = a + b - 1
  room : a + b ≤ s.arr1.block.size
  bound : b ≤ s.arr2.block.size
  passed : ∀ p, a ≤ p → p < n1 → .read p ∈ s.arr1.trace
  readFirst : ReadFirst (Set.Iio n1) s.arr1.trace

/-- The cells left in `s` have been merged into the first array. -/
structure Merged (key : α → ℤ) (n1 a b : ℕ) (s : State α) (arr1 arr2 : Traced α) : Prop where
  size_eq : arr1.block.size = s.arr1.block.size
  cells_eq : (arr1.block.cells 0 (a + b)).reverse =
    mergeBack key (s.arr2.block.cells 0 b).reverse (s.arr1.block.cells 0 a).reverse
  behind : ∀ p, a + b ≤ p → arr1.block.cell p = s.arr1.block.cell p
  second : arr2.block = s.arr2.block
  readFirst : ReadFirst (Set.Iio n1) arr1.trace

theorem cells_reverse_succ (b : Block α) (n : ℕ) :
    (b.cells 0 (n + 1)).reverse = b.cell n :: (b.cells 0 n).reverse := by
  rw [cells_succ, Nat.zero_add, List.reverse_append]
  rfl

/-- Cells are the same below a write. -/
theorem cells_set_of_le (c : Block α) {n p : ℕ} (h : n ≤ p) (v : α) :
    (c.set p v).cells 0 n = c.cells 0 n := by
  apply cells_congr
  intro k hk
  rw [set_cell, if_neg (by omega)]

namespace Left

variable {n1 a b : ℕ} {s : State α} {arr1 arr2 : Traced α}

/-- `arr1[k--] = arr1[i--];` -/
theorem takeFirst (h : Left n1 (a + 1) b s) (hb : 0 < b) :
    ∃ s', MergeArray.takeFirst s = some s' ∧ Left n1 a b s' ∧
      s'.arr1.block = s.arr1.block.set (a + b) (s.arr1.block.cell a) ∧
      s'.arr2.block = s.arr2.block := by
  have hi : s.i = (a : ℕ) := by rw [h.i_eq]; omega
  have hk : s.k = (a + b : ℕ) := by rw [h.k_eq]; omega
  have hroom := h.room
  have hload := s.arr1.load_eq (by omega : a < s.arr1.block.size)
  refine ⟨⟨⟨s.arr1.block.set (a + b) (s.arr1.block.cell a),
    .write (a + b) :: .read a :: s.arr1.trace⟩, s.arr2, s.i - 1, s.j, s.k - 1⟩, ?_, ?_, rfl, rfl⟩
  · rw [MergeArray.takeFirst, hi, hload]
    show (Traced.store _ s.k _ >>= _) = _
    rw [hk, Traced.store_eq (by show a + b < s.arr1.block.size; omega)]
    rfl
  · refine ⟨by show s.i - 1 = _; omega, h.j_eq, by show s.k - 1 = _; omega,
      by show a + b ≤ s.arr1.block.size; omega, h.bound, fun p hp hp' => ?_, ?_⟩
    · apply List.mem_cons_of_mem
      rcases Nat.eq_or_lt_of_le hp with rfl | hlt
      · exact List.mem_cons_self
      · exact List.mem_cons_of_mem _ (h.passed p hlt hp')
    · -- the cell lies behind all that is left of the first array
      apply (h.readFirst.read a).write
      intro hmem
      exact List.mem_cons_of_mem _ (h.passed (a + b) (by omega) hmem)

/-- `arr1[k--] = arr2[j--];` -/
theorem takeSecond (h : Left n1 a (b + 1) s) :
    ∃ s', MergeArray.takeSecond s = some s' ∧ Left n1 a b s' ∧
      s'.arr1.block = s.arr1.block.set (a + b) (s.arr2.block.cell b) ∧
      s'.arr2.block = s.arr2.block := by
  have hj : s.j = (b : ℕ) := by rw [h.j_eq]; omega
  have hk : s.k = (a + b : ℕ) := by rw [h.k_eq]; omega
  have hroom := h.room
  have hbound := h.bound
  have hload := s.arr2.load_eq (by omega : b < s.arr2.block.size)
  refine ⟨⟨⟨s.arr1.block.set (a + b) (s.arr2.block.cell b), .write (a + b) :: s.arr1.trace⟩,
    ⟨s.arr2.block, .read b :: s.arr2.trace⟩, s.i, s.j - 1, s.k - 1⟩, ?_, ?_, rfl, rfl⟩
  · rw [MergeArray.takeSecond, hj, hload]
    show (Traced.store s.arr1 s.k _ >>= _) = _
    rw [hk, Traced.store_eq (by omega)]
    rfl
  · refine ⟨h.i_eq, by show s.j - 1 = _; omega, by show s.k - 1 = _; omega,
      by show a + b ≤ s.arr1.block.size; omega, by show b ≤ s.arr2.block.size; omega,
      fun p hp hp' => ?_, ?_⟩
    · exact List.mem_cons_of_mem _ (h.passed p hp hp')
    · apply h.readFirst.write
      intro hmem
      exact h.passed (a + b) (by omega) hmem

end Left

namespace Merged

variable {n1 a b : ℕ} {s s₁ : State α} {arr1 arr2 : Traced α}

/-- Nothing is left of the second array. -/
theorem stop (h : Left n1 a 0 s) : Merged key n1 a 0 s s.arr1 s.arr2 := by
  refine ⟨rfl, ?_, fun p _ => rfl, rfl, h.readFirst⟩
  exact (nil_mergeBack _).symm

/-- One round before: `v` goes to the last cell. -/
theorem extend (h : Merged key n1 a b s₁ arr1 arr2) {a' b' : ℕ} (hsum : a' + b' = a + b + 1)
    {v : α} (hfirst : s₁.arr1.block = s.arr1.block.set (a + b) v)
    (hsecond : s₁.arr2.block = s.arr2.block)
    (hlast : mergeBack key (s.arr2.block.cells 0 b').reverse (s.arr1.block.cells 0 a').reverse =
      v :: mergeBack key (s.arr2.block.cells 0 b).reverse (s.arr1.block.cells 0 a).reverse) :
    Merged key n1 a' b' s arr1 arr2 := by
  have hcell : arr1.block.cell (a + b) = v := by
    rw [h.behind _ le_rfl, hfirst, set_cell, if_pos rfl]
  refine ⟨?_, ?_, fun p hp => ?_, h.second.trans hsecond, h.readFirst⟩
  · rw [h.size_eq, hfirst, set_size]
  · rw [hsum, cells_reverse_succ, hcell, h.cells_eq, hfirst, hsecond,
      cells_set_of_le _ (Nat.le_add_right a b), hlast]
  · rw [h.behind p (by omega), hfirst, set_cell, if_neg (by omega)]

end Merged

/-! ### Both loops -/

variable {n1 a b fuel : ℕ} {s : State α}

/-- **The second loop.**  The first array is used up. -/
theorem tailLoop_eq (h : Left n1 0 b s) (key : α → ℤ) (hfuel : b < fuel) :
    ∃ s', tailLoop fuel s = some s' ∧ Merged key n1 0 b s s'.arr1 s'.arr2 := by
  induction fuel generalizing b s with
  | zero => exact absurd hfuel (Nat.not_lt_zero _)
  | succ fuel ih =>
      have hk := h.k_eq
      rw [tailLoop]
      rcases b with _ | b
      · rw [if_neg (by omega)]
        exact ⟨s, rfl, Merged.stop h⟩
      · rw [if_pos (by omega)]
        obtain ⟨s₁, hstep, h₁, hfirst, hsecond⟩ := h.takeSecond
        obtain ⟨s', hrun, hmerged⟩ := ih h₁ (by omega)
        rw [hstep]
        refine ⟨s', hrun, hmerged.extend (by omega) hfirst hsecond ?_⟩
        rw [cells_zero, List.reverse_nil, mergeBack_nil, mergeBack_nil, cells_reverse_succ]

/-- What follows the first loop. -/
theorem finish_eq (h : Left n1 a b s) (hdone : a = 0 ∨ b = 0) (key : α → ℤ) (hfuel : b < fuel) :
    ∃ arr1 arr2, finish fuel s = some (arr1, arr2) ∧ Merged key n1 a b s arr1 arr2 := by
  have hi := h.i_eq
  rw [finish]
  rcases Nat.eq_zero_or_pos a with rfl | ha
  · obtain ⟨s', htail, hmerged⟩ := tailLoop_eq h key hfuel
    rw [if_pos (by omega), htail]
    exact ⟨s'.arr1, s'.arr2, rfl, hmerged⟩
  · obtain rfl : b = 0 := by omega
    rw [if_neg (by omega)]
    exact ⟨s.arr1, s.arr2, rfl, Merged.stop h⟩

/-- The comparison of the last cells leaves both arrays as they are. -/
theorem Left.compare (h : Left n1 a b s) (p q : ℕ) :
    Left n1 a b { s with
      arr1 := { s.arr1 with trace := .read p :: s.arr1.trace }
      arr2 := { s.arr2 with trace := .read q :: s.arr2.trace } } :=
  ⟨h.i_eq, h.j_eq, h.k_eq, h.room, h.bound,
    fun r hr hr' => List.mem_cons_of_mem _ (h.passed r hr hr'), h.readFirst.read p⟩

/-- **Both loops**, by induction on the fuel of the first. -/
theorem rest_eq (h : Left n1 a b s) (key : α → ℤ) (hfuel : a + b < fuel) {fuel' : ℕ}
    (hfuel' : b < fuel') :
    ∃ arr1 arr2, (mergeLoop key fuel s >>= finish fuel') = some (arr1, arr2) ∧
      Merged key n1 a b s arr1 arr2 := by
  induction fuel generalizing a b s with
  | zero => exact absurd hfuel (Nat.not_lt_zero _)
  | succ fuel ih =>
      have hi := h.i_eq
      have hj := h.j_eq
      rw [mergeLoop]
      -- one of the arrays is used up, or both have a last cell to compare
      rcases a with _ | a
      · rw [if_neg (by omega)]
        exact finish_eq h (.inl rfl) key hfuel'
      rcases b with _ | b
      · rw [if_neg (by omega)]
        exact finish_eq h (.inr rfl) key hfuel'
      have hroom := h.room
      have hbound := h.bound
      have hi : s.i = (a : ℕ) := by omega
      have hj : s.j = (b : ℕ) := by omega
      rw [if_pos (by omega), hi, hj, s.arr1.load_eq (by omega : a < _),
        s.arr2.load_eq (by omega : b < _)]
      have hcompared := h.compare a b
      show ∃ arr1 arr2, (((if key (s.arr1.block.cell a) > key (s.arr2.block.cell b) then _
        else _) >>= mergeLoop key fuel) >>= _) = _ ∧ _
      by_cases hgt : key (s.arr1.block.cell a) > key (s.arr2.block.cell b)
      · obtain ⟨s₁, hstep, h₁, hfirst, hsecond⟩ := hcompared.takeFirst b.succ_pos
        obtain ⟨arr1, arr2, hrun, hmerged⟩ := ih h₁ (by omega) hfuel'
        rw [if_pos hgt, ← hi, ← hj, hstep]
        refine ⟨arr1, arr2, hrun, hmerged.extend (by omega) hfirst hsecond ?_⟩
        rw [cells_reverse_succ, cells_reverse_succ]
        exact mergeBack_cons_of_lt hgt _ _
      · obtain ⟨s₁, hstep, h₁, hfirst, hsecond⟩ := hcompared.takeSecond
        obtain ⟨arr1, arr2, hrun, hmerged⟩ := ih h₁ (by omega) (by omega)
        rw [if_neg hgt, ← hi, ← hj, hstep]
        refine ⟨arr1, arr2, hrun, hmerged.extend (by omega) hfirst hsecond ?_⟩
        rw [cells_reverse_succ, cells_reverse_succ]
        exact mergeBack_cons_of_le (not_lt.mp hgt) _ _

/-! ### The function -/

/-- `l` is in ascending order and has the elements of `l₁` and `l₂`, and equal
keys stand in the order of `l₁ ++ l₂`. -/
structure IsStableMerge (key : α → ℤ) (l₁ l₂ l : List α) : Prop where
  sorted : l.Pairwise fun a b => key a ≤ key b
  perm : l.Perm (l₁ ++ l₂)
  stable : ∀ c, withKey key c l = withKey key c l₁ ++ withKey key c l₂

theorem isStableMerge_of_reverse {l₁ l₂ l : List α} (h₁ : l₁.Pairwise fun a b => key a ≤ key b)
    (h₂ : l₂.Pairwise fun a b => key a ≤ key b)
    (h : l.reverse = mergeBack key l₂.reverse l₁.reverse) : IsStableMerge key l₁ l₂ l := by
  have h₁' : l₁.reverse.Pairwise fun a b => key b ≤ key a := List.pairwise_reverse.mpr h₁
  have h₂' : l₂.reverse.Pairwise fun a b => key b ≤ key a := List.pairwise_reverse.mpr h₂
  refine ⟨?_, ?_, fun c => ?_⟩
  · rw [← List.reverse_reverse l, h, List.pairwise_reverse]
    exact mergeBack_pairwise h₂' h₁'
  · have hperm := @mergeBack_perm _ key l₂.reverse l₁.reverse
    rw [← h, ← List.reverse_append] at hperm
    exact (List.reverse_perm l).symm.trans (hperm.trans (List.reverse_perm _))
  · have hkey := @withKey_mergeBack _ key _ l₁.reverse h₂' c
    simp only [← h, withKey, List.filter_reverse, ← List.reverse_append] at hkey
    exact List.reverse_injective hkey

/-- Both loops come to their ends with the merged array in the first `n1 + n2`
cells and the others unchanged, no element of `arr1` was overwritten before it
was read, and `arr2` is unchanged. -/
def Merges (key : α → ℤ) (arr1 : Block α) (n1 : ℕ) (arr2 : Block α) : Prop :=
  ∀ fuel, n1 + arr2.size < fuel →
    ∃ arr1' arr2', mergeArray key fuel (Traced.start arr1) n1 (Traced.start arr2) arr2.size =
        some (arr1', arr2') ∧
      IsStableMerge key (arr1.cells 0 n1) (arr2.cells 0 arr2.size)
        (arr1'.block.cells 0 (n1 + arr2.size)) ∧
      arr1'.block.size = arr1.size ∧
      (∀ p, n1 + arr2.size ≤ p → arr1'.block.cell p = arr1.cell p) ∧
      ReadFirst (Set.Iio n1) arr1'.trace ∧ arr2'.block = arr2

/-- **`mergeArray` merges** two arrays into one that an `int` can index. -/
theorem mergeArray_merges (key : α → ℤ) (arr1 : Block α) (n1 : ℕ) (arr2 : Block α)
    (hroom : n1 + arr2.size ≤ arr1.size) (hint : n1 + arr2.size < 2 ^ 31)
    (h₁ : (arr1.cells 0 n1).Pairwise fun a b => key a ≤ key b)
    (h₂ : (arr2.cells 0 arr2.size).Pairwise fun a b => key a ≤ key b) :
    Merges key arr1 n1 arr2 := by
  intro fuel hfuel
  have hleft : Left n1 n1 arr2.size
      ⟨Traced.start arr1, Traced.start arr2, n1 - 1, arr2.size - 1, n1 + arr2.size - 1⟩ :=
    ⟨rfl, rfl, rfl, hroom, le_rfl, fun p hp hp' => absurd hp (not_le.mpr hp'), readFirst_nil _⟩
  obtain ⟨arr1', arr2', hrun, hmerged⟩ := rest_eq hleft key hfuel (by omega : arr2.size < fuel)
  refine ⟨arr1', arr2', ?_, isStableMerge_of_reverse h₁ h₂ hmerged.cells_eq, hmerged.size_eq,
    hmerged.behind, hmerged.readFirst, hmerged.second⟩
  have hi : checkedInt ((n1 : ℤ) - 1) = some ((n1 : ℤ) - 1) :=
    checkedInt_eq (by omega) (by omega)
  have hj : checkedInt ((arr2.size : ℤ) - 1) = some ((arr2.size : ℤ) - 1) :=
    checkedInt_eq (by omega) (by omega)
  have hn : checkedInt ((n1 : ℤ) + arr2.size) = some ((n1 : ℤ) + arr2.size) :=
    checkedInt_eq (by omega) (by omega)
  have hk : checkedInt ((n1 : ℤ) + arr2.size - 1) = some ((n1 : ℤ) + arr2.size - 1) :=
    checkedInt_eq (by omega) (by omega)
  rw [mergeArray, hi, hj, hn]
  show (checkedInt ((n1 : ℤ) + arr2.size - 1) >>= _) = _
  rw [hk]
  exact hrun

/-- Pairs that are compared by their first components. -/
theorem mergeArray_merges_pairs :
    Merges Prod.fst ⟨5, fun i => [(1, 'a'), (3, 'b'), (3, 'c')].getD i (0, ' ')⟩ 3
      ⟨2, fun i => [(3, 'd'), (4, 'e')].getD i (0, ' ')⟩ :=
  mergeArray_merges _ _ _ _ (by decide) (by decide) (by decide) (by decide)

/-- **A cell too many**: `n1 + n2` is no `int`. -/
theorem not_merges_large :
    2 ^ 31 - 1 + 1 ≤ (⟨2 ^ 31, fun _ => 0⟩ : Block ℤ).size ∧
      (((⟨2 ^ 31, fun _ => 0⟩ : Block ℤ).cells 0 (2 ^ 31 - 1)).Pairwise fun a b => a ≤ b) ∧
      (((⟨1, fun _ => 0⟩ : Block ℤ).cells 0 1).Pairwise fun a b => a ≤ b) ∧
      ¬ Merges id ⟨2 ^ 31, fun _ => 0⟩ (2 ^ 31 - 1) (⟨1, fun _ => 0⟩ : Block ℤ) := by
  refine ⟨le_rfl, List.pairwise_map.mpr (List.pairwise_of_forall fun _ _ => le_rfl),
    List.pairwise_map.mpr (List.pairwise_of_forall fun _ _ => le_rfl), fun h => ?_⟩
  obtain ⟨arr1', arr2', hrun, -⟩ := h _ (Nat.lt_succ_self _)
  have hn : checkedInt (((2 ^ 31 - 1 : ℕ) : ℤ) + ((1 : ℕ) : ℤ)) = none := rfl
  rw [mergeArray] at hrun
  obtain ⟨i, -, hrun⟩ := Option.bind_eq_some_iff.mp hrun
  obtain ⟨j, -, hrun⟩ := Option.bind_eq_some_iff.mp hrun
  obtain ⟨n, hsum, -⟩ := Option.bind_eq_some_iff.mp hrun
  rw [hn] at hsum
  cases hsum

end MergeArray

end CodeSnippet
