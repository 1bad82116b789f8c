/-
CodeSnippet/ArrayList.lean

Lists in arrays: the loops that go through the cells in use, and what they make
of the list that these cells hold.  The first `n` cells of a block `b` hold the
list `b.cells 0 n`; the cells behind them keep what was there before.

Main results:
  * `indexLoop_eq` — the first cell with a value.
  * `shiftLoop_eq` — moving cells down one by one is copying them at once.
  * `cells_append`, `cells_replace`, `cells_erase` — the lists behind a store at
    the end, a store at the first cell with a value and a shift.
-/
import CodeSnippet.Block
import CodeSnippet.Calls

namespace Memory

namespace Block

variable {α : Type}

/-! ### Loops -/

/-- `for (; n > 0; n--, i++) if (b[i] == data) break;`, and where it was left. -/
def indexLoop [DecidableEq α] (b : Block α) (data : α) : ℕ → ℕ → Option (Option ℕ)
  | 0, _ => some none
  | n + 1, i => do
      let v ← b.load i
      if v = data then some (some i) else indexLoop b data n (i + 1)

/-- `for (; n > 0; n--, j++) b[j - 1] = b[j];` -/
def shiftLoop : ℕ → ℕ → Block α → Option (Block α)
  | 0, _, b => some b
  | n + 1, j, b => do
      let v ← b.load j
      let b ← b.store (j - 1) v
      shiftLoop n (j + 1) b

/-- `for (; n > 0; n--, i++) visit(b[i]);` -/
def visitLoop {σ : Type} (visit : α → σ → σ) (b : Block α) : ℕ → ℕ → σ → Option σ
  | 0, _, s => some s
  | n + 1, i, s => do
      let v ← b.load i
      visitLoop visit b n (i + 1) (visit v s)

/-! ### What the loops do -/

/-- A range that is longer by one starts with one more cell. -/
theorem cells_cons (b : Block α) (off n : ℕ) :
    b.cells off (n + 1) = b.cell off :: b.cells (off + 1) n := by
  rw [Nat.add_comm, cells_add]
  rfl

theorem indexLoop_eq [DecidableEq α] {b : Block α} {i n : ℕ} (h : i + n ≤ b.size) (data : α) :
    (data ∉ b.cells i n ∧ indexLoop b data n i = some none) ∨
    ∃ pre post, b.cells i n = pre ++ data :: post ∧ data ∉ pre ∧
      indexLoop b data n i = some (some (i + pre.length)) := by
  induction n generalizing i with
  | zero => exact .inl ⟨List.not_mem_nil, rfl⟩
  | succ n ih =>
      have hstep : indexLoop b data (n + 1) i =
          if b.cell i = data then some (some i) else indexLoop b data n (i + 1) := by
        rw [indexLoop, load_eq (by omega)]
        rfl
      rw [hstep, cells_cons]
      by_cases hv : b.cell i = data
      · rw [if_pos hv, hv]
        exact .inr ⟨[], _, rfl, List.not_mem_nil, rfl⟩
      · rw [if_neg hv]
        rcases ih (i := i + 1) (by omega) with ⟨hmem, hloop⟩ | ⟨pre, post, hsplit, hmem, hloop⟩
        · exact .inl ⟨List.not_mem_cons_of_ne_of_not_mem (Ne.symm hv) hmem, hloop⟩
        · refine .inr ⟨b.cell i :: pre, post, ?_, ?_, ?_⟩
          · rw [hsplit, List.cons_append]
          · exact List.not_mem_cons_of_ne_of_not_mem (Ne.symm hv) hmem
          · rw [hloop, List.length_cons, Nat.add_right_comm, Nat.add_assoc]

/-- **Shifting is copying**: no cell is overwritten before it has been moved. -/
theorem shiftLoop_eq {b : Block α} {i n : ℕ} (h : i + 1 + n ≤ b.size) :
    shiftLoop n (i + 1) b = some (b.copyIn i b (i + 1) n) := by
  induction n generalizing i b with
  | zero =>
      have hnone : b.copyIn i b (i + 1) 0 = b := by
        obtain ⟨size, cell⟩ := b
        refine congrArg (Block.mk size) (funext fun j => ?_)
        exact if_neg (by omega)
      rw [shiftLoop, hnone]
  | succ n ih =>
      have hstep : shiftLoop (n + 1) (i + 1) b =
          shiftLoop n (i + 1 + 1) (b.set i (b.cell (i + 1))) := by
        rw [shiftLoop, load_eq (by omega)]
        show (b.store i (b.cell (i + 1)) >>= _) = _
        rw [store_eq (by omega)]
        rfl
      rw [hstep, ih (by rw [set_size]; omega)]
      refine congrArg (fun cell => some (Block.mk b.size cell)) (funext fun j => ?_)
      show (if _ then _ else _) = if _ then _ else _
      by_cases hj : j = i
      · subst hj
        rw [if_neg (by omega), if_pos (by omega), set_cell, if_pos rfl, Nat.sub_self, Nat.add_zero]
      · by_cases hin : i < j ∧ j < i + (n + 1)
        · rw [if_pos (by omega), if_pos (by omega), set_cell, if_neg (by omega)]
          congr 1
          omega
        · rw [if_neg (by omega), if_neg (by omega), set_cell, if_neg hj]

theorem visitLoop_eq {σ : Type} (visit : α → σ → σ) {b : Block α} {i n : ℕ}
    (h : i + n ≤ b.size) (s : σ) :
    visitLoop visit b n i s = some (Calls.visitAll visit (b.cells i n) s) := by
  induction n generalizing i s with
  | zero => rfl
  | succ n ih =>
      rw [visitLoop, load_eq (by omega), cells_cons, Calls.visitAll_cons, ← ih (by omega)]
      rfl

/-! ### The list in the cells -/

theorem cells_append (b : Block α) (n : ℕ) (data : α) :
    (b.set n data).cells 0 (n + 1) = b.cells 0 n ++ [data] := by
  have hold : (b.set n data).cells 0 n = b.cells 0 n := by
    apply cells_congr
    intro k hk
    rw [set_cell, if_neg (by omega)]
  rw [cells_succ, hold, set_cell, if_pos (Nat.zero_add n)]

/-- The cells before and behind one cell. -/
theorem cells_split {b : Block α} {n : ℕ} {pre post : List α} {x : α}
    (h : b.cells 0 n = pre ++ x :: post) :
    n = pre.length + 1 + post.length ∧ b.cells 0 pre.length = pre ∧
      b.cells (pre.length + 1) post.length = post := by
  have hn : n = pre.length + 1 + post.length := by
    rw [← cells_length b 0 n, h, List.length_append, List.length_cons]
    omega
  rw [hn, cells_add, cells_succ, List.append_assoc, List.singleton_append] at h
  obtain ⟨hpre, hrest⟩ := List.append_inj h (cells_length ..)
  rw [Nat.zero_add, Nat.zero_add] at hrest
  exact ⟨hn, hpre, (List.cons.inj hrest).2⟩

/-- **A store at the first cell with a value.** -/
theorem cells_replace [DecidableEq α] {b : Block α} {n : ℕ} {pre post : List α} {x : α}
    (h : b.cells 0 n = pre ++ x :: post) (hmem : x ∉ pre) (y : α) :
    (b.set pre.length y).cells 0 n = (b.cells 0 n).replace x y := by
  obtain ⟨hn, hpre, hpost⟩ := cells_split h
  have hpre' : (b.set pre.length y).cells 0 pre.length = pre := by
    refine Eq.trans (cells_congr fun k hk => ?_) hpre
    rw [set_cell, if_neg (by omega)]
  have hpost' : (b.set pre.length y).cells (pre.length + 1) post.length = post := by
    refine Eq.trans (cells_congr fun k hk => ?_) hpost
    rw [set_cell, if_neg (by omega)]
  rw [h, List.replace_append_right hmem, List.replace_cons_self, hn, cells_add, cells_succ,
    hpre', Nat.zero_add, Nat.zero_add, hpost', set_cell, if_pos rfl, List.append_assoc, List.singleton_append]

/-- **A shift down to the first cell with a value.** -/
theorem cells_erase [DecidableEq α] {b : Block α} {n : ℕ} {pre post : List α} {x : α}
    (h : b.cells 0 n = pre ++ x :: post) (hmem : x ∉ pre) :
    (b.copyIn pre.length b (pre.length + 1) post.length).cells 0 (n - 1) =
      (b.cells 0 n).erase x := by
  obtain ⟨hn, hpre, hpost⟩ := cells_split h
  have hpre' : (b.copyIn pre.length b (pre.length + 1) post.length).cells 0 pre.length = pre := by
    refine Eq.trans (cells_congr fun k hk => ?_) hpre
    rw [copyIn_cell, if_neg (by omega)]
  have hn' : n - 1 = pre.length + post.length := by omega
  rw [h, List.erase_append_right _ hmem, List.erase_cons_head, hn', cells_add, hpre',
    Nat.zero_add, copyIn_cells, hpost]

end Block

end Memory
