/-
CodeSnippet/BitreeInit.lean

The tree of src/algorithm/tree/bitree: `bitree_init` makes a node for `start` and
calls itself for `start * 2` and `start * 2 + 1`, as long as `end` is not passed.
The test is the only thing that ends it: below zero the numbers only get smaller,
zero is its own double, and near the largest `int` doubling overflows before
`end` is passed.

A call has no result when it does not come to an end or when a number overflows.

Main results:
  * `bitreeInit_numbers` — the tree, its height and what the traversals visit.
  * `terminates_iff` — the arguments for which the call has a result.
-/
import CodeSnippet.Calls
import CodeSnippet.CInt
import CodeSnippet.HeapTree

namespace CodeSnippet

open BinaryTree Calls

namespace BitreeInit

/-! ### Source -/

/-- The tree, for so many nested calls, and the number of calls of `malloc`.
`malloc i` tells whether the call with the number `i` succeeds; `last` is `end`. -/
def bitreeInit (malloc : ℕ → Bool) : ℕ → ℕ → ℤ → ℤ → Option (BinaryTree ℤ × ℕ)
  | 0, _, _, _ => none
  | fuel + 1, calls, start, last =>
      if start > last then some (nil, calls)
      else if malloc calls = false then some (nil, calls + 1)
      else do
        let twice ← checkedInt (start * 2)
        let (left, calls) ← bitreeInit malloc fuel (calls + 1) twice last
        let twice ← checkedInt (start * 2)
        let twiceAndOne ← checkedInt (twice + 1)
        let (right, calls) ← bitreeInit malloc fuel calls twiceAndOne last
        some (node start left right, calls)

/-- The return code, and what the calls of `visit` leave. -/
def bitreePreorder {σ : Type} (visit : ℤ → σ → σ) : BinaryTree ℤ → σ → ℤ × σ
  | nil, s => (-1, s)
  | node data left right, s =>
      let s := visit data s
      let (_, s) := bitreePreorder visit left s
      let (_, s) := bitreePreorder visit right s
      (0, s)

def bitreeInorder {σ : Type} (visit : ℤ → σ → σ) : BinaryTree ℤ → σ → ℤ × σ
  | nil, s => (-1, s)
  | node data left right, s =>
      let (_, s) := bitreeInorder visit left s
      let s := visit data s
      let (_, s) := bitreeInorder visit right s
      (0, s)

def bitreePostorder {σ : Type} (visit : ℤ → σ → σ) : BinaryTree ℤ → σ → ℤ × σ
  | nil, s => (-1, s)
  | node data left right, s =>
      let (_, s) := bitreePostorder visit left s
      let (_, s) := bitreePostorder visit right s
      let s := visit data s
      (0, s)

def bitreeGetlevel : BinaryTree ℤ → ℕ
  | nil => 0
  | node _ left right =>
      let leftlevel := bitreeGetlevel left
      let rightlevel := bitreeGetlevel right
      if leftlevel > rightlevel then leftlevel + 1 else rightlevel + 1

/-! ### Visiting -/

section Visits

variable {σ : Type} (visit : ℤ → σ → σ)

theorem bitreePreorder_visits (t : BinaryTree ℤ) (s : σ) :
    (bitreePreorder visit t s).2 = visitAll visit t.preorder s := by
  induction t generalizing s with
  | nil => rfl
  | node x l r ihl ihr =>
      show (bitreePreorder visit r (bitreePreorder visit l (visit x s)).2).2 = _
      rw [ihr, ihl, preorder, visitAll_cons, visitAll_append]

theorem bitreeInorder_visits (t : BinaryTree ℤ) (s : σ) :
    (bitreeInorder visit t s).2 = visitAll visit t.values s := by
  induction t generalizing s with
  | nil => rfl
  | node x l r ihl ihr =>
      show (bitreeInorder visit r (visit x (bitreeInorder visit l s).2)).2 = _
      rw [ihr, ihl, values, visitAll_append, visitAll_cons]

theorem bitreePostorder_visits (t : BinaryTree ℤ) (s : σ) :
    (bitreePostorder visit t s).2 = visitAll visit t.postorder s := by
  induction t generalizing s with
  | nil => rfl
  | node x l r ihl ihr =>
      show visit x (bitreePostorder visit r (bitreePostorder visit l s).2).2 = _
      rw [ihr, ihl, postorder, visitAll_append, visitAll_append]
      rfl

end Visits

theorem bitreeGetlevel_eq (t : BinaryTree ℤ) : bitreeGetlevel t = t.height := by
  induction t with
  | nil => rfl
  | node x l r ihl ihr =>
      rw [bitreeGetlevel, height, ihl, ihr]
      show (if l.height > r.height then l.height + 1 else r.height + 1) = _
      split
      · rename_i hgt
        rw [max_eq_left hgt.le]
      · rename_i hle
        rw [max_eq_right (not_lt.mp hle)]

/-! ### Running -/

variable {malloc : ℕ → Bool} {start last : ℤ}

/-- No number of the tree is too large to be doubled. -/
def Fits (start last : ℤ) : Prop := ∀ m, Under start m → m ≤ last → m < 2 ^ 30

theorem Fits.of_child {c : ℤ} (h : Fits start last) (hc : c / 2 = start) : Fits c last :=
  fun m hm => h m (hm.of_child hc)

/-- **The call comes to an end** where no number overflows: the distance to `end`
becomes smaller. -/
theorem bitreeInit_ends (malloc : ℕ → Bool) {fuel : ℕ} (hstart : 1 ≤ start)
    (hfits : Fits start last) (hfuel : (last + 1 - start).toNat < fuel) (calls : ℕ) :
    ∃ t calls', bitreeInit malloc fuel calls start last = some (t, calls') := by
  induction fuel generalizing start calls with
  | zero => omega
  | succ fuel ih =>
      rw [bitreeInit]
      by_cases hend : start > last
      · exact ⟨nil, calls, if_pos hend⟩
      · rw [if_neg hend]
        by_cases hnull : malloc calls = false
        · exact ⟨nil, calls + 1, if_pos hnull⟩
        · have hlt := hfits start (under_self start) (not_lt.mp hend)
          obtain ⟨left, calls₁, hleft⟩ := ih (show 1 ≤ start * 2 by omega)
            (hfits.of_child (double_div start)) (by omega) (calls + 1)
          obtain ⟨right, calls₂, hright⟩ := ih (show 1 ≤ start * 2 + 1 by omega)
            (hfits.of_child (double_add_one_div start)) (by omega) calls₁
          refine ⟨node start left right, calls₂, ?_⟩
          rw [if_neg hnull, checkedInt_eq (x := start * 2) (by omega) (by omega)]
          simp only [Option.bind_eq_bind, Option.bind_some, hleft]
          rw [checkedInt_eq (x := start * 2 + 1) (by omega) (by omega)]
          simp only [Option.bind_some, hright]

/-- **What a call returns** when all nodes can be allocated: the numbers that it
has doubled have not overflowed. -/
theorem bitreeInit_isHeap {fuel calls calls' : ℕ} {t : BinaryTree ℤ}
    (h : bitreeInit (fun _ => true) fuel calls start last = some (t, calls')) :
    IsHeap start last t ∧ ∀ m ∈ t.values, m * 2 + 1 < 2 ^ 31 := by
  induction fuel generalizing start calls calls' t with
  | zero => cases h
  | succ fuel ih =>
      rw [bitreeInit] at h
      by_cases hend : start > last
      · rw [if_pos hend] at h
        cases h
        exact ⟨hend, fun m hm => absurd hm List.not_mem_nil⟩
      · rw [if_neg hend, if_neg (by decide)] at h
        simp only [Option.bind_eq_bind, Option.bind_eq_some_iff, checkedInt_eq_some_iff] at h
        obtain ⟨twice, ⟨-, rfl⟩, ⟨left, calls₁⟩, hleft, twice, ⟨-, rfl⟩, odd, ⟨⟨-, hodd⟩, rfl⟩,
          ⟨right, calls₂⟩, hright, hret⟩ := h
        obtain ⟨rfl, rfl⟩ := Prod.mk.inj (Option.some.inj hret)
        obtain ⟨hl, hlsmall⟩ := ih hleft
        obtain ⟨hr, hrsmall⟩ := ih hright
        refine ⟨⟨rfl, not_lt.mp hend, hl, hr⟩, fun m hm => ?_⟩
        rcases mem_values_node.mp hm with hm | rfl | hm
        · exact hlsmall m hm
        · exact hodd
        · exact hrsmall m hm

/-- From zero down the call does not come to an end, or a number overflows. -/
theorem bitreeInit_none (hstart : start ≤ 0) (hle : start ≤ last) (fuel calls : ℕ) :
    bitreeInit (fun _ => true) fuel calls start last = none := by
  induction fuel generalizing start calls with
  | zero => rfl
  | succ fuel ih =>
      rw [bitreeInit, if_neg (not_lt.mpr hle), if_neg (by decide)]
      rcases htwice : checkedInt (start * 2) with _ | twice
      · rfl
      · obtain ⟨-, rfl⟩ := checkedInt_eq_some_iff.mp htwice
        have hleft := ih (show start * 2 ≤ 0 by omega) (by omega) (calls + 1)
        simp only [Option.bind_eq_bind, Option.bind_some, hleft, Option.bind_none]

/-! ### The tree -/

/-- Every number from 1 to `last` is visited exactly once. -/
def VisitsOnce (last : ℤ) (seen : List ℤ) : Prop :=
  seen.Nodup ∧ ∀ m, m ∈ seen ↔ 1 ≤ m ∧ m ≤ last

theorem IsHeap.visitsOnce {t : BinaryTree ℤ} (h : IsHeap 1 last t) {seen : List ℤ}
    (hperm : seen.Perm t.values) : VisitsOnce last seen := by
  refine ⟨hperm.nodup_iff.mpr (h.nodup le_rfl), fun m => ?_⟩
  rw [hperm.mem_iff, h.mem_values le_rfl, under_one]
  exact and_comm

/-- **The numbers of the tree**: those up to `end` that are `start`, followed by
some binary digits, each once, and numbered like a heap.  The tree that starts at
1 has a level for every binary digit of `end`, and each traversal visits the
numbers up to `end`. -/
theorem bitreeInit_numbers (start last : ℤ) (hstart : 1 ≤ start) (hlast : last < 2 ^ 30) :
    ∃ fuel t calls, bitreeInit (fun _ => true) fuel 0 start last = some (t, calls) ∧
      t.values.Nodup ∧
      (∀ m, m ∈ t.values ↔ m ≤ last ∧ ∃ k r : ℕ, r < 2 ^ k ∧ m = start * 2 ^ k + r) ∧
      (∀ x l r, Below (node x l r) t → (∀ y l' r', l = node y l' r' → y = x * 2) ∧
        ∀ y l' r', r = node y l' r' → y = x * 2 + 1) ∧
      (start = 1 → 1 ≤ last → bitreeGetlevel t = Nat.log 2 last.toNat + 1 ∧
        VisitsOnce last (bitreePreorder record t []).2 ∧
        VisitsOnce last (bitreeInorder record t []).2 ∧
        VisitsOnce last (bitreePostorder record t []).2) := by
  have hfits : Fits start last := fun m _ hm => lt_of_le_of_lt hm hlast
  obtain ⟨t, calls, hrun⟩ := bitreeInit_ends (fun _ => true) hstart hfits (Nat.lt_succ_self _) 0
  obtain ⟨hheap, -⟩ := bitreeInit_isHeap hrun
  refine ⟨_, t, calls, hrun, hheap.nodup hstart, fun m => ?_, fun x l r hbelow => ?_, ?_⟩
  · rw [hheap.mem_values hstart, under_iff]
  · exact hheap.children hbelow
  · rintro rfl hone
    obtain ⟨n, rfl⟩ := Int.eq_ofNat_of_zero_le (zero_le_one.trans hone)
    refine ⟨?_, ?_, ?_, ?_⟩
    · rw [bitreeGetlevel_eq, hheap.height_eq_log (by omega), Int.toNat_natCast]
    · rw [bitreePreorder_visits, visitAll_record]
      exact IsHeap.visitsOnce hheap (preorder_perm t)
    · rw [bitreeInorder_visits, visitAll_record]
      exact IsHeap.visitsOnce hheap (List.Perm.refl t.values)
    · rw [bitreePostorder_visits, visitAll_record]
      exact IsHeap.visitsOnce hheap (postorder_perm t)

/-- `bitreeInit_numbers` for the tree of `main`. -/
theorem bitreeInit_numbers_ten :
    ∃ fuel t calls, bitreeInit (fun _ => true) fuel 0 1 10 = some (t, calls) ∧
      bitreeGetlevel t = 4 ∧ VisitsOnce 10 (bitreePreorder record t []).2 := by
  obtain ⟨fuel, t, calls, hrun, -, -, -, hone⟩ :=
    bitreeInit_numbers 1 10 (by decide) (by decide)
  obtain ⟨hlevel, hpreorder, -⟩ := hone rfl (by decide)
  refine ⟨fuel, t, calls, hrun, ?_, hpreorder⟩
  have hlog : Nat.log 2 10 = 3 := Nat.log_eq_of_pow_le_of_lt_pow (by decide) (by decide)
  rw [hlevel]
  change Nat.log 2 10 + 1 = 4
  rw [hlog]

/-! ### Termination -/

/-- The first number below `start` that cannot be doubled. -/
def firstTooLarge (start : ℤ) : ℤ := start * 2 ^ (30 - Nat.log 2 start.toNat)

theorem firstTooLarge_ge (hstart : 1 ≤ start) : 2 ^ 30 ≤ firstTooLarge start := by
  obtain ⟨n, rfl⟩ := Int.eq_ofNat_of_zero_le (zero_le_one.trans hstart)
  have hpow : 2 ^ Nat.log 2 n ≤ n := Nat.pow_log_le_self 2 (by omega)
  have hnat : 2 ^ 30 ≤ n * 2 ^ (30 - Nat.log 2 n) := by
    calc 2 ^ 30 ≤ 2 ^ (Nat.log 2 n + (30 - Nat.log 2 n)) :=
          Nat.pow_le_pow_right (by decide) (by omega)
      _ = 2 ^ Nat.log 2 n * 2 ^ (30 - Nat.log 2 n) := pow_add ..
      _ ≤ n * 2 ^ (30 - Nat.log 2 n) := Nat.mul_le_mul_right _ hpow
  rw [firstTooLarge, Int.toNat_natCast]
  exact_mod_cast hnat

/-- Below it every number can be doubled. -/
theorem fits_of_lt (hstart : 1 ≤ start) (hlast : last < firstTooLarge start) :
    Fits start last := by
  intro m hunder hm
  obtain ⟨n, rfl⟩ := Int.eq_ofNat_of_zero_le (zero_le_one.trans hstart)
  obtain ⟨k, r, hr, rfl⟩ := under_iff.mp hunder
  have hlt : n < 2 ^ (Nat.log 2 n + 1) := Nat.lt_pow_succ_log_self one_lt_two n
  rw [firstTooLarge, Int.toNat_natCast] at hlast
  have hless : n * 2 ^ k + r < n * 2 ^ (30 - Nat.log 2 n) := by
    exact_mod_cast lt_of_le_of_lt hm hlast
  -- the level of the number is above the one that is too large
  have hk : k < 30 - Nat.log 2 n := by
    by_contra hge
    have hmono : 2 ^ (30 - Nat.log 2 n) ≤ 2 ^ k := Nat.pow_le_pow_right (by decide) (not_lt.mp hge)
    have hle := Nat.mul_le_mul_left n hmono
    omega
  have hsmall : n * 2 ^ k + r < 2 ^ 30 := by
    calc n * 2 ^ k + r < n * 2 ^ k + 2 ^ k := Nat.add_lt_add_left hr _
      _ = (n + 1) * 2 ^ k := (Nat.succ_mul n _).symm
      _ ≤ 2 ^ (Nat.log 2 n + 1) * 2 ^ k := Nat.mul_le_mul_right _ hlt
      _ = 2 ^ (Nat.log 2 n + 1 + k) := (pow_add ..).symm
      _ ≤ 2 ^ 30 := Nat.pow_le_pow_right (by decide) (by omega)
  exact_mod_cast hsmall

/-- **When `bitree_init` comes to an end without an overflow**, whatever calls of
`malloc` succeed: where `end` is passed at once, or `start` is positive and `end`
is in front of the first number below it that cannot be doubled. -/
theorem terminates_iff (start last : ℤ) :
    (∀ malloc, ∃ fuel t calls, bitreeInit malloc fuel 0 start last = some (t, calls)) ↔
      last < start ∨ (1 ≤ start ∧ last < start * 2 ^ (30 - Nat.log 2 start.toNat)) := by
  constructor
  · intro h
    obtain ⟨fuel, t, calls, hrun⟩ := h fun _ => true
    by_cases hend : last < start
    · exact .inl hend
    · right
      have hstart : 1 ≤ start := by
        by_contra hzero
        rw [bitreeInit_none (by omega) (not_lt.mp hend)] at hrun
        cases hrun
      refine ⟨hstart, not_le.mp fun hle => ?_⟩
      -- the number that is too large is in the tree
      obtain ⟨hheap, hsmall⟩ := bitreeInit_isHeap hrun
      have hmem := (hheap.mem_values hstart).mpr ⟨hle, under_mul_pow start _⟩
      have hlarge := firstTooLarge_ge hstart
      have hless := hsmall _ hmem
      rw [firstTooLarge] at hlarge
      omega
  · rintro (hend | ⟨hstart, hlast⟩) malloc
    · exact ⟨1, nil, 0, if_pos hend⟩
    · obtain ⟨t, calls, hrun⟩ :=
        bitreeInit_ends malloc hstart (fits_of_lt hstart hlast) (Nat.lt_succ_self _) 0
      exact ⟨_, t, calls, hrun⟩

/-- Zero is its own double, and the doubles of 1 overflow. -/
theorem not_terminates :
    ¬ (∀ start last : ℤ, -2 ^ 31 ≤ start → start < 2 ^ 31 → -2 ^ 31 ≤ last → last < 2 ^ 31 →
      ∀ malloc, ∃ fuel t calls, bitreeInit malloc fuel 0 start last = some (t, calls)) ∧
    ∀ fuel, bitreeInit (fun _ => true) fuel 0 0 0 = none := by
  have hzero : ∀ fuel, bitreeInit (fun _ => true) fuel 0 0 0 = none :=
    fun fuel => bitreeInit_none le_rfl le_rfl fuel 0
  refine ⟨fun hevery => ?_, hzero⟩
  obtain ⟨fuel, t, calls, hrun⟩ :=
    hevery 0 0 (by decide) (by decide) (by decide) (by decide) fun _ => true
  rw [hzero fuel] at hrun
  cases hrun

end BitreeInit

end CodeSnippet
