/-
CodeSnippet/HeapTree.lean

Binary trees numbered like a heap: the children of the node `m` are `2 * m` and
`2 * m + 1`.  `IsHeap s e t` says that `t` has the root `s` and goes on as long as
the numbers do not exceed `e`.

The numbers below `s` are those that are `s` when some of their binary digits are
cut off (`Under`), so that for positive `s` the two subtrees have none in common.

Main results:
  * `IsHeap.mem_values`, `IsHeap.nodup` — the numbers of such a tree, each once.
  * `IsHeap.lt_height` — its height.
-/
import CodeSnippet.SearchTree

namespace BinaryTree

variable {α : Type*}

/-! ### Traversals -/

/-- The values, every node behind its subtrees. -/
def postorder : BinaryTree α → List α
  | nil => []
  | node x l r => l.postorder ++ r.postorder ++ [x]

theorem preorder_perm (t : BinaryTree α) : t.preorder.Perm t.values := by
  induction t with
  | nil => exact .nil
  | node x l r ihl ihr => exact ((ihl.append ihr).cons x).trans List.perm_middle.symm

theorem postorder_perm (t : BinaryTree α) : t.postorder.Perm t.values := by
  induction t with
  | nil => exact .nil
  | node x l r ihl ihr =>
      have hroot : (l.values ++ r.values ++ [x]).Perm (x :: (l.values ++ r.values)) :=
        List.perm_append_singleton x _
      exact ((ihl.append ihr).append_right [x]).trans (hroot.trans List.perm_middle.symm)

/-! ### Numbers below a node -/

/-- `m` is `s`, followed by some binary digits. -/
def Under (s m : ℤ) : Prop := ∃ k : ℕ, m / 2 ^ k = s

variable {s e m : ℤ}

theorem under_iff : Under s m ↔ ∃ k r : ℕ, r < 2 ^ k ∧ m = s * 2 ^ k + r := by
  constructor
  · rintro ⟨k, rfl⟩
    have hpos : (0 : ℤ) < 2 ^ k := by positivity
    obtain ⟨r, hr⟩ := Int.eq_ofNat_of_zero_le (Int.emod_nonneg m hpos.ne')
    have hlt := Int.emod_lt_of_pos m hpos
    refine ⟨k, r, ?_, ?_⟩
    · rw [hr] at hlt
      exact_mod_cast hlt
    · rw [← hr, mul_comm]
      exact (Int.mul_ediv_add_emod m (2 ^ k)).symm
  · rintro ⟨k, r, hr, rfl⟩
    have hpos : (0 : ℤ) < 2 ^ k := by positivity
    have hr : (r : ℤ) < 2 ^ k := by exact_mod_cast hr
    refine ⟨k, ?_⟩
    rw [add_comm, Int.add_mul_ediv_right _ _ hpos.ne',
      Int.ediv_eq_zero_of_lt (Int.natCast_nonneg r) hr, zero_add]

theorem under_self (s : ℤ) : Under s s := ⟨0, by simp⟩

/-- The first number on a level. -/
theorem under_mul_pow (s : ℤ) (k : ℕ) : Under s (s * 2 ^ k) :=
  under_iff.mpr ⟨k, 0, Nat.two_pow_pos k, by simp⟩

/-- What is below a child is below its parent. -/
theorem Under.of_child {c : ℤ} (hc : c / 2 = s) (h : Under c m) : Under s m := by
  obtain ⟨k, rfl⟩ := h
  refine ⟨k + 1, ?_⟩
  rw [pow_succ, ← hc, Int.ediv_ediv_of_nonneg (by positivity)]

theorem double_div (s : ℤ) : s * 2 / 2 = s := Int.mul_ediv_cancel s two_ne_zero

theorem double_add_one_div (s : ℤ) : (s * 2 + 1) / 2 = s := by omega

/-- **Below a node** there are its own number and those below its children. -/
theorem under_step : Under s m ↔ m = s ∨ Under (s * 2) m ∨ Under (s * 2 + 1) m := by
  constructor
  · rintro ⟨k, hk⟩
    rcases k with _ | k
    · exact .inl (by simpa using hk)
    · right
      rw [pow_succ, ← Int.ediv_ediv_of_nonneg (by positivity)] at hk
      -- the digit that was cut off last
      rcases Int.emod_two_eq_zero_or_one (m / 2 ^ k) with hdigit | hdigit
      · exact .inl ⟨k, by omega⟩
      · exact .inr ⟨k, by omega⟩
  · rintro (rfl | h | h)
    · exact under_self m
    · exact h.of_child (double_div s)
    · exact h.of_child (double_add_one_div s)

/-- No number is smaller than one that it is below. -/
theorem Under.le (h : Under s m) (hs : 0 ≤ s) : s ≤ m := by
  obtain ⟨k, r, -, rfl⟩ := under_iff.mp h
  have hone : (1 : ℤ) ≤ 2 ^ k := one_le_pow₀ one_le_two
  nlinarith [Int.natCast_nonneg r]

/-- Two numbers that another one is below: one of them is below the other. -/
theorem Under.total {c d : ℤ} (hc : Under c m) (hd : Under d m) : Under d c ∨ Under c d := by
  obtain ⟨j, rfl⟩ := hc
  obtain ⟨k, rfl⟩ := hd
  rcases Nat.le_total j k with hle | hle
  · refine .inl ⟨k - j, ?_⟩
    rw [Int.ediv_ediv_of_nonneg (by positivity), ← pow_add, Nat.add_sub_cancel' hle]
  · refine .inr ⟨j - k, ?_⟩
    rw [Int.ediv_ediv_of_nonneg (by positivity), ← pow_add, Nat.add_sub_cancel' hle]

/-- A number is below at most one of two children. -/
theorem not_under_both (hs : 1 ≤ s) (hl : Under (s * 2) m) (hr : Under (s * 2 + 1) m) : False := by
  rcases hl.total hr with h | h
  · have hle := h.le (by omega)
    omega
  · -- the right child is too small to be below the left one
    rcases under_step.mp h with heq | h | h
    · omega
    · have hle := h.le (by omega)
      omega
    · have hle := h.le (by omega)
      omega

/-! ### Numbered trees -/

/-- The tree with the root `s` and all numbers below it up to `e`. -/
def IsHeap : ℤ → ℤ → BinaryTree ℤ → Prop
  | s, e, nil => e < s
  | s, e, node x l r => x = s ∧ s ≤ e ∧ IsHeap (s * 2) e l ∧ IsHeap (s * 2 + 1) e r

/-- **The numbers of the tree.** -/
theorem IsHeap.mem_values {t : BinaryTree ℤ} (h : IsHeap s e t) (hs : 1 ≤ s) :
    m ∈ t.values ↔ m ≤ e ∧ Under s m := by
  induction t generalizing s with
  | nil =>
      have hlt : e < s := h
      constructor
      · exact fun hm => absurd hm List.not_mem_nil
      · rintro ⟨hle, hunder⟩
        have hsm := hunder.le (by omega)
        omega
  | node x l r ihl ihr =>
      obtain ⟨rfl, hle, hl, hr⟩ := h
      rw [mem_values_node, ihl hl (by omega), ihr hr (by omega), under_step (s := x)]
      constructor
      · rintro (⟨hm, hunder⟩ | rfl | ⟨hm, hunder⟩)
        · exact ⟨hm, .inr (.inl hunder)⟩
        · exact ⟨hle, .inl rfl⟩
        · exact ⟨hm, .inr (.inr hunder)⟩
      · rintro ⟨hm, rfl | hunder | hunder⟩
        · exact .inr (.inl rfl)
        · exact .inl ⟨hm, hunder⟩
        · exact .inr (.inr ⟨hm, hunder⟩)

/-- **No number comes twice.** -/
theorem IsHeap.nodup {t : BinaryTree ℤ} (h : IsHeap s e t) (hs : 1 ≤ s) : t.values.Nodup := by
  induction t generalizing s with
  | nil => exact List.nodup_nil
  | node x l r ihl ihr =>
      obtain ⟨rfl, -, hl, hr⟩ := h
      have hleft : ∀ y ∈ l.values, Under (x * 2) y :=
        fun y hy => ((hl.mem_values (by omega)).mp hy).2
      have hright : ∀ y ∈ r.values, Under (x * 2 + 1) y :=
        fun y hy => ((hr.mem_values (by omega)).mp hy).2
      rw [values, List.nodup_append, List.nodup_cons]
      refine ⟨ihl hl (by omega), ⟨fun hmem => ?_, ihr hr (by omega)⟩, ?_⟩
      · have hle := (hright x hmem).le (by omega)
        omega
      · rintro y hy z hz rfl
        rcases List.mem_cons.mp hz with rfl | hz
        · have hle := (hleft y hy).le (by omega)
          omega
        · exact not_under_both hs (hleft y hy) (hright y hz)

/-- **The children of a node**, where it has any. -/
theorem IsHeap.children {t : BinaryTree ℤ} (h : IsHeap s e t) {x : ℤ} {l r : BinaryTree ℤ}
    (hbelow : Below (node x l r) t) :
    (∀ y l' r', l = node y l' r' → y = x * 2) ∧ ∀ y l' r', r = node y l' r' → y = x * 2 + 1 := by
  induction hbelow generalizing s with
  | here =>
      obtain ⟨rfl, -, hl, hr⟩ := h
      constructor
      · rintro y l' r' rfl
        exact hl.1
      · rintro y l' r' rfl
        exact hr.1
  | left y r' hbelow ih => exact ih h.2.2.1
  | right y l' hbelow ih => exact ih h.2.2.2

/-- **The height**: there is a level for every power of two that fits. -/
theorem IsHeap.lt_height {t : BinaryTree ℤ} (h : IsHeap s e t) (hs : 1 ≤ s) (k : ℕ) :
    k < t.height ↔ s * 2 ^ k ≤ e := by
  induction t generalizing s k with
  | nil =>
      have hlt : e < s := h
      have hsk := (under_mul_pow s k).le (by omega)
      constructor
      · exact fun hk => absurd hk (Nat.not_lt_zero k)
      · intro hle
        omega
  | node x l r ihl ihr =>
      obtain ⟨rfl, hle, hl, hr⟩ := h
      rcases k with _ | k
      · simpa [height] using hle
      · have hright : (x * 2 + 1) * 2 ^ k ≤ e → x * 2 * 2 ^ k ≤ e := by
          intro hright
          have hpos : (0 : ℤ) < 2 ^ k := by positivity
          linarith [add_mul (x * 2) 1 ((2 : ℤ) ^ k)]
        rw [height, Nat.succ_lt_succ_iff, lt_max_iff, ihl hl (by omega), ihr hr (by omega),
          or_iff_left_of_imp hright, pow_succ', mul_assoc]

/-- The tree that starts at 1 has a level for every binary digit. -/
theorem IsHeap.height_eq_log {n : ℕ} {t : BinaryTree ℤ} (h : IsHeap 1 n t) (hn : 1 ≤ n) :
    t.height = Nat.log 2 n + 1 := by
  have hlevel : ∀ k, k < t.height ↔ k < Nat.log 2 n + 1 := by
    intro k
    rw [h.lt_height le_rfl, one_mul, Nat.lt_succ_iff, Nat.le_log_iff_pow_le one_lt_two (by omega)]
    norm_cast
  apply le_antisymm
  · exact not_lt.mp fun hlt => lt_irrefl _ ((hlevel _).mp hlt)
  · exact not_lt.mp fun hlt => lt_irrefl _ ((hlevel _).mpr hlt)

/-- The numbers below 1 are all positive ones. -/
theorem under_one : Under 1 m ↔ 1 ≤ m := by
  constructor
  · exact fun h => h.le zero_le_one
  · intro hm
    obtain ⟨n, rfl⟩ := Int.eq_ofNat_of_zero_le (zero_le_one.trans hm)
    refine ⟨Nat.log 2 n, ?_⟩
    have hn : n ≠ 0 := by omega
    have hdiv : n / 2 ^ Nat.log 2 n = 1 := by
      apply Nat.div_eq_of_lt_le
      · rw [one_mul]
        exact Nat.pow_log_le_self 2 hn
      · rw [← pow_succ']
        exact Nat.lt_pow_succ_log_self one_lt_two n
    exact_mod_cast hdiv

end BinaryTree
