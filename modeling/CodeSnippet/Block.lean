/-
CodeSnippet/Block.lean

Checked memory blocks.  A C object that is accessed through a pointer is a
`Block`: its number of cells and the contents of the cells.  Every access goes
through an operation that returns `none` when it leaves the block, so that a
program written with them is undefined exactly where the C program reads or
writes outside the object.

Each operation has a total counterpart (`set`, `copyIn`, `fillIn`, `cells`) and
one lemma `*_eq` that turns the checked operation into the total one when the
access is in bounds.  Proofs discharge the bound once and then compute with the
cells of the total operations.

The last part is about blocks of bytes: the byte sum that checksums are made
of, and little-endian words.
-/
import Mathlib

namespace Memory

variable {α : Type*}

/-- A memory object: how many cells it has and what they hold.  The contents
beyond `size` are never looked at by a checked operation. -/
structure Block (α : Type*) where
  size : ℕ
  cell : ℕ → α

namespace Block

/-! ### Total operations -/

/-- The `n` cells from `off` on. -/
def cells (b : Block α) (off n : ℕ) : List α :=
  (List.range n).map fun k => b.cell (off + k)

/-- Overwrite one cell. -/
def set (b : Block α) (i : ℕ) (v : α) : Block α :=
  { b with cell := fun j => if j = i then v else b.cell j }

/-- Overwrite the `n` cells from `d` on with the cells of `src` from `s` on. -/
def copyIn (b : Block α) (d : ℕ) (src : Block α) (s n : ℕ) : Block α :=
  { b with cell := fun j => if d ≤ j ∧ j < d + n then src.cell (s + (j - d)) else b.cell j }

/-- Overwrite the `n` cells from `d` on with `v`. -/
def fillIn (b : Block α) (d : ℕ) (v : α) (n : ℕ) : Block α :=
  { b with cell := fun j => if d ≤ j ∧ j < d + n then v else b.cell j }

/-- The block whose first cells hold `l` and whose other cells are those of `b`:
what an external write of `l` to the start of `b` leaves behind. -/
def overlay [Inhabited α] (b : Block α) (l : List α) : Block α :=
  { b with cell := fun j => if j < l.length then l.getD j default else b.cell j }

@[simp] theorem set_size (b : Block α) (i : ℕ) (v : α) : (b.set i v).size = b.size := rfl

@[simp] theorem set_cell (b : Block α) (i j : ℕ) (v : α) :
    (b.set i v).cell j = if j = i then v else b.cell j := rfl

@[simp] theorem copyIn_size (b : Block α) (d : ℕ) (src : Block α) (s n : ℕ) :
    (b.copyIn d src s n).size = b.size := rfl

@[simp] theorem copyIn_cell (b : Block α) (d : ℕ) (src : Block α) (s n j : ℕ) :
    (b.copyIn d src s n).cell j
      = if d ≤ j ∧ j < d + n then src.cell (s + (j - d)) else b.cell j := rfl

@[simp] theorem fillIn_size (b : Block α) (d : ℕ) (v : α) (n : ℕ) :
    (b.fillIn d v n).size = b.size := rfl

@[simp] theorem fillIn_cell (b : Block α) (d : ℕ) (v : α) (n j : ℕ) :
    (b.fillIn d v n).cell j = if d ≤ j ∧ j < d + n then v else b.cell j := rfl

/-! ### Ranges of cells -/

@[simp] theorem cells_length (b : Block α) (off n : ℕ) : (b.cells off n).length = n := by
  simp [cells]

@[simp] theorem cells_zero (b : Block α) (off : ℕ) : b.cells off 0 = [] := rfl

theorem cells_getElem (b : Block α) (off n i : ℕ) (h : i < (b.cells off n).length) :
    (b.cells off n)[i] = b.cell (off + i) := by
  simp [cells]

/-- A range that is longer by one ends with one more cell. -/
theorem cells_succ (b : Block α) (off n : ℕ) :
    b.cells off (n + 1) = b.cells off n ++ [b.cell (off + n)] := by
  simp [cells, List.range_succ]

/-- A range splits at any point. -/
theorem cells_add (b : Block α) (off n m : ℕ) :
    b.cells off (n + m) = b.cells off n ++ b.cells (off + n) m := by
  induction m with
  | zero => simp
  | succ m ih => rw [← Nat.add_assoc, cells_succ, ih, cells_succ, List.append_assoc, Nat.add_assoc]

theorem cells_take (b : Block α) (off : ℕ) {m n : ℕ} (h : m ≤ n) :
    (b.cells off n).take m = b.cells off m := by
  obtain ⟨k, rfl⟩ := Nat.exists_eq_add_of_le h
  rw [cells_add, List.take_left' (cells_length ..)]

/-- Two ranges are equal when their cells are. -/
theorem cells_congr {b b' : Block α} {off off' n : ℕ}
    (h : ∀ k < n, b.cell (off + k) = b'.cell (off' + k)) :
    b.cells off n = b'.cells off' n := by
  apply List.map_congr_left
  intro k hk
  exact h k (List.mem_range.mp hk)

/-- Conversely, equal ranges have equal cells. -/
theorem cell_eq_of_cells_eq {b b' : Block α} {off off' n : ℕ}
    (h : b.cells off n = b'.cells off' n) {k : ℕ} (hk : k < n) :
    b.cell (off + k) = b'.cell (off' + k) := by
  have hget := congrArg (fun l : List α => l[k]?) h
  simpa [cells, hk] using hget

/-- Cells read off a list that a range is known to hold. -/
theorem cell_eq_getD {b : Block α} {off n : ℕ} {l : List α} (h : b.cells off n = l) {k : ℕ}
    (hk : k < n) (dflt : α) : b.cell (off + k) = l.getD k dflt := by
  subst h
  simp [List.getD_eq_getElem?_getD, cells, hk]

/-- The overwritten range holds the cells it was copied from. -/
theorem copyIn_cells (b : Block α) (d : ℕ) (src : Block α) (s n : ℕ) :
    (b.copyIn d src s n).cells d n = src.cells s n := by
  apply cells_congr
  intro k hk
  rw [copyIn_cell, if_pos (by omega), Nat.add_sub_cancel_left]

@[simp] theorem overlay_size [Inhabited α] (b : Block α) (l : List α) :
    (b.overlay l).size = b.size := rfl

theorem overlay_cell_of_le [Inhabited α] (b : Block α) {l : List α} {i : ℕ} (h : l.length ≤ i) :
    (b.overlay l).cell i = b.cell i :=
  if_neg (not_lt.mpr h)

theorem overlay_cells [Inhabited α] (b : Block α) (l : List α) :
    (b.overlay l).cells 0 l.length = l := by
  apply List.ext_getElem (by simp)
  intro i h₁ h₂
  rw [cells_getElem]
  simp [overlay, h₂, List.getD_eq_getElem?_getD]

/-! ### Checked operations -/

/-- Read one cell. -/
def load (b : Block α) (i : ℕ) : Option α :=
  if i < b.size then some (b.cell i) else none

/-- Write one cell. -/
def store (b : Block α) (i : ℕ) (v : α) : Option (Block α) :=
  if i < b.size then some (b.set i v) else none

/-- `memcpy(&b[d], &src[s], n)`. -/
def memcpy (b : Block α) (d : ℕ) (src : Block α) (s n : ℕ) : Option (Block α) :=
  if d + n ≤ b.size ∧ s + n ≤ src.size then some (b.copyIn d src s n) else none

/-- `memset(&b[d], v, n)`. -/
def memset (b : Block α) (d : ℕ) (v : α) (n : ℕ) : Option (Block α) :=
  if d + n ≤ b.size then some (b.fillIn d v n) else none

/-- The `n` cells from `off` on, as handed to a call that reads them all. -/
def read (b : Block α) (off n : ℕ) : Option (List α) :=
  if off + n ≤ b.size then some (b.cells off n) else none

/-- Have an external call write `l` to the start of `b`. -/
def receive [Inhabited α] (b : Block α) (l : List α) : Option (Block α) :=
  if l.length ≤ b.size then some (b.overlay l) else none

theorem load_eq {b : Block α} {i : ℕ} (h : i < b.size) : b.load i = some (b.cell i) :=
  if_pos h

theorem store_eq {b : Block α} {i : ℕ} (h : i < b.size) (v : α) :
    b.store i v = some (b.set i v) :=
  if_pos h

theorem memcpy_eq {b src : Block α} {d s n : ℕ} (hd : d + n ≤ b.size) (hs : s + n ≤ src.size) :
    b.memcpy d src s n = some (b.copyIn d src s n) :=
  if_pos ⟨hd, hs⟩

theorem memset_eq {b : Block α} {d n : ℕ} (h : d + n ≤ b.size) (v : α) :
    b.memset d v n = some (b.fillIn d v n) :=
  if_pos h

theorem read_eq {b : Block α} {off n : ℕ} (h : off + n ≤ b.size) :
    b.read off n = some (b.cells off n) :=
  if_pos h

theorem receive_eq [Inhabited α] {b : Block α} {l : List α} (h : l.length ≤ b.size) :
    b.receive l = some (b.overlay l) :=
  if_pos h

theorem load_eq_some_iff {b : Block α} {i : ℕ} {v : α} :
    b.load i = some v ↔ i < b.size ∧ b.cell i = v := by
  by_cases h : i < b.size <;> simp [load, h]

theorem store_eq_some_iff {b b' : Block α} {i : ℕ} {v : α} :
    b.store i v = some b' ↔ i < b.size ∧ b.set i v = b' := by
  by_cases h : i < b.size <;> simp [store, h]

theorem memcpy_eq_some_iff {b b' src : Block α} {d s n : ℕ} :
    b.memcpy d src s n = some b' ↔
      (d + n ≤ b.size ∧ s + n ≤ src.size) ∧ b.copyIn d src s n = b' := by
  by_cases h : d + n ≤ b.size ∧ s + n ≤ src.size <;> simp [memcpy, h]

theorem memset_eq_some_iff {b b' : Block α} {d n : ℕ} {v : α} :
    b.memset d v n = some b' ↔ d + n ≤ b.size ∧ b.fillIn d v n = b' := by
  by_cases h : d + n ≤ b.size <;> simp [memset, h]

theorem read_eq_some_iff {b : Block α} {off n : ℕ} {l : List α} :
    b.read off n = some l ↔ off + n ≤ b.size ∧ b.cells off n = l := by
  by_cases h : off + n ≤ b.size <;> simp [read, h]

/-! ### Sums over a block of numbers -/

/-- The loop `for (i = 0; i < len; i++) sum += b[i]`, each addend first
converted by `f` to the type of the sum. -/
def sumLoop {β : Type*} [Add β] (f : α → β) (b : Block α) (len : ℕ) (sum : β) : Option β :=
  (List.range len).foldlM (fun acc i => (b.load i).map fun v => acc + f v) sum

theorem sumLoop_eq {β : Type*} [AddCommMonoid β] (f : α → β) {b : Block α} {len : ℕ}
    (h : len ≤ b.size) (sum : β) :
    b.sumLoop f len sum = some (sum + ((b.cells 0 len).map f).sum) := by
  induction len with
  | zero => simp [sumLoop]
  | succ n ih =>
      have ih := ih (by omega)
      unfold sumLoop at ih ⊢
      rw [List.range_succ, List.foldlM_append, ih]
      simp [load_eq (show n < b.size by omega), cells_succ, add_assoc]

/-- A sum that is defined stays inside the block. -/
theorem sumLoop_le {β : Type*} [Add β] {f : α → β} {b : Block α} {len : ℕ} {sum r : β}
    (h : b.sumLoop f len sum = some r) : len ≤ b.size := by
  cases len with
  | zero => exact Nat.zero_le _
  | succ n =>
      rw [sumLoop, List.range_succ, List.foldlM_append] at h
      obtain ⟨acc, -, hlast⟩ := Option.bind_eq_some_iff.mp h
      rw [List.foldlM_cons] at hlast
      obtain ⟨acc', hload, -⟩ := Option.bind_eq_some_iff.mp hlast
      obtain ⟨v, hv, -⟩ := Option.map_eq_some_iff.mp hload
      exact (load_eq_some_iff.mp hv).1

end Block

/-! ### Little-endian words -/

/-- The number that four bytes spell, the lowest byte first. -/
def leWord (b₀ b₁ b₂ b₃ : UInt8) : ℕ :=
  b₀.toNat + b₁.toNat * 2 ^ 8 + b₂.toNat * 2 ^ 16 + b₃.toNat * 2 ^ 24

theorem leWord_lt (b₀ b₁ b₂ b₃ : UInt8) : leWord b₀ b₁ b₂ b₃ < 2 ^ 32 := by
  have h₀ := b₀.toNat_lt
  have h₁ := b₁.toNat_lt
  have h₂ := b₂.toNat_lt
  have h₃ := b₃.toNat_lt
  unfold leWord
  omega

end Memory
