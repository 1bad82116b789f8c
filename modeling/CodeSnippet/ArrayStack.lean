/-
CodeSnippet/ArrayStack.lean

Stacks in arrays.  An `ArrayStack` is a block with the index of the first free
cell, and carries the bound on that index.  `contents` lists the entries, the
newest one first, and the two elementary operations are described by what they
do to this list.

A stack that ignores what does not fit is a list of limited length: `pushTo`.
-/
import CodeSnippet.Block

namespace Memory

variable {α : Type*}

/-- A block and how many of its cells are in use. -/
structure ArrayStack (α : Type*) where
  buf : Block α
  top : ℕ
  top_le : top ≤ buf.size

namespace ArrayStack

/-- How many entries there is room for. -/
def max (stack : ArrayStack α) : ℕ := stack.buf.size

/-- `buf[top++] = data` -/
def store (stack : ArrayStack α) (data : α) (h : stack.top < stack.buf.size) : ArrayStack α where
  buf := stack.buf.set stack.top data
  top := stack.top + 1
  top_le := h

/-- `--top` -/
def drop (stack : ArrayStack α) : ArrayStack α where
  buf := stack.buf
  top := stack.top - 1
  top_le := (Nat.sub_le ..).trans stack.top_le

/-- `buf[top]` after `drop` -/
def last (stack : ArrayStack α) : α := stack.buf.cell (stack.top - 1)

/-- What is on the stack, the newest entry first. -/
def contents (stack : ArrayStack α) : List α := (stack.buf.cells 0 stack.top).reverse

@[simp] theorem contents_length (stack : ArrayStack α) : stack.contents.length = stack.top := by
  rw [contents, List.length_reverse, Block.cells_length]

theorem contents_length_le (stack : ArrayStack α) : stack.contents.length ≤ stack.max := by
  rw [contents_length]
  exact stack.top_le

theorem contents_eq_nil {stack : ArrayStack α} (h : stack.top = 0) : stack.contents = [] := by
  rw [contents, h]
  rfl

theorem store_contents {stack : ArrayStack α} (data : α) (h : stack.top < stack.buf.size) :
    (stack.store data h).contents = data :: stack.contents := by
  have hold : (stack.buf.set stack.top data).cells 0 stack.top = stack.buf.cells 0 stack.top := by
    apply Block.cells_congr
    intro k hk
    rw [Block.set_cell, if_neg (by omega)]
  show ((stack.buf.set stack.top data).cells 0 (stack.top + 1)).reverse = _
  rw [Block.cells_succ, List.reverse_append, hold, Block.set_cell, if_pos (Nat.zero_add _)]
  rfl

theorem contents_of_pos {stack : ArrayStack α} (h : 0 < stack.top) :
    stack.contents = stack.last :: stack.drop.contents := by
  obtain ⟨n, hn⟩ := Nat.exists_eq_add_of_lt h
  have htop : stack.top = stack.top - 1 + 1 := by omega
  rw [contents, htop, Block.cells_succ, List.reverse_append, Nat.zero_add]
  rfl

end ArrayStack

/-- Pushing on a list of at most `max` entries. -/
def pushTo (max : ℕ) (l : List α) (data : α) : List α :=
  if l.length < max then data :: l else l

theorem length_pushTo (max : ℕ) (l : List α) (data : α) (h : l.length ≤ max) :
    (pushTo max l data).length = min (l.length + 1) max := by
  unfold pushTo
  split
  · rw [List.length_cons]
    omega
  · omega

end Memory
