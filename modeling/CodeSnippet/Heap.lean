/-
CodeSnippet/Heap.lean

Allocated cells behind pointers.  A heap is a partial function from addresses to
cells with room left for every allocation, and every access goes through an
operation that fails when the pointer is null or its cell is not allocated.  A
successful access is its total counterpart (`load_eq`, `store_eq`, `free_eq`).
-/
import Mathlib

namespace Memory

/-- A pointer; `none` is the null pointer. -/
abbrev Ptr := Option ℕ

/-- What keeps a program from going on. -/
inductive Fault
  /-- a null pointer is followed -/
  | null
  /-- a cell is used that is not allocated -/
  | dangling
  /-- a loop has not come to its end -/
  | fuel
  deriving DecidableEq

/-- The allocated cells, finitely many. -/
structure Heap (β : Type) where
  cell : ℕ → Option β
  finite : ∃ n, ∀ a, n ≤ a → cell a = none

/-- A `malloc` that succeeds: it finds an address that is not in use. -/
structure Allocator (β : Type) where
  malloc : Heap β → ℕ
  fresh : ∀ h : Heap β, h.cell (malloc h) = none

namespace Heap

variable {β : Type}

/-- Nothing is allocated. -/
def empty : Heap β := ⟨fun _ => none, 0, fun _ _ => rfl⟩

/-- The heap with another cell at one address. -/
def set (h : Heap β) (a : ℕ) (v : Option β) : Heap β where
  cell b := if b = a then v else h.cell b
  finite := by
    obtain ⟨n, hn⟩ := h.finite
    refine ⟨max n (a + 1), fun b hb => ?_⟩
    rw [if_neg (by omega), hn b (by omega)]

/-- `*p` -/
def load (h : Heap β) : Ptr → Except Fault β
  | none => .error .null
  | some a =>
      match h.cell a with
      | some v => .ok v
      | none => .error .dangling

/-- `*p = v` -/
def store (h : Heap β) (p : Ptr) (v : β) : Except Fault (Heap β) :=
  match p with
  | none => .error .null
  | some a =>
      match h.cell a with
      | some _ => .ok (h.set a (some v))
      | none => .error .dangling

/-- `free(p)` -/
def free (h : Heap β) : Ptr → Except Fault (Heap β)
  | none => .ok h
  | some a =>
      match h.cell a with
      | some _ => .ok (h.set a none)
      | none => .error .dangling

@[simp] theorem set_cell (h : Heap β) (a b : ℕ) (v : Option β) :
    (h.set a v).cell b = if b = a then v else h.cell b := rfl

theorem set_cell_self (h : Heap β) (a : ℕ) (v : Option β) : (h.set a v).cell a = v :=
  if_pos rfl

theorem set_cell_ne {a b : ℕ} (hne : b ≠ a) (h : Heap β) (v : Option β) :
    (h.set a v).cell b = h.cell b :=
  if_neg hne

@[simp] theorem load_null (h : Heap β) : h.load none = .error .null := rfl

theorem load_eq {h : Heap β} {a : ℕ} {v : β} (hv : h.cell a = some v) :
    h.load (some a) = .ok v := by
  rw [load, hv]

theorem store_eq {h : Heap β} {a : ℕ} {v : β} (hv : h.cell a = some v) (w : β) :
    h.store (some a) w = .ok (h.set a (some w)) := by
  rw [store, hv]

theorem free_eq {h : Heap β} {a : ℕ} {v : β} (hv : h.cell a = some v) :
    h.free (some a) = .ok (h.set a none) := by
  rw [free, hv]

end Heap

/-- Some address is always free. -/
theorem Heap.exists_free {β : Type} (h : Heap β) : ∃ a, (h.cell a).isNone = true := by
  obtain ⟨n, hn⟩ := h.finite
  exact ⟨n, Option.isNone_iff_eq_none.mpr (hn n le_rfl)⟩

/-- The lowest free address. -/
def firstFree (β : Type) : Allocator β where
  malloc h := Nat.find h.exists_free
  fresh h := Option.isNone_iff_eq_none.mp (Nat.find_spec h.exists_free)

/-- What is done next to a result. -/
@[simp] theorem ok_bind {ε α α' : Type} (x : α) (f : α → Except ε α') :
    (Except.ok x >>= f) = f x := rfl

@[simp] theorem error_bind {ε α α' : Type} (e : ε) (f : α → Except ε α') :
    (Except.error e >>= f) = .error e := rfl

end Memory
