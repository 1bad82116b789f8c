/-
CodeSnippet/AccessTrace.lean

Blocks that keep a trace of all accesses in their order, the last one first.
Accesses are checked as those of `Block` are, with indices that may be negative.

A trace answers what the contents cannot: which cells were touched at all
(`Touches`), and whether a cell was read before it was overwritten (`ReadFirst`).
-/
import CodeSnippet.Block

namespace Memory

variable {α : Type*}

/-- One access to a cell. -/
inductive Access
  | read (i : ℕ)
  | write (i : ℕ)

/-- The cell that is accessed. -/
def Access.index : Access → ℕ
  | read i => i
  | write i => i

/-- A block and the accesses to it so far, the last one first. -/
structure Traced (α : Type*) where
  block : Block α
  trace : List Access

namespace Traced

variable {t : Traced α} {i : ℕ}

/-! ### Operations -/

/-- A block that was not accessed yet. -/
def start (b : Block α) : Traced α := ⟨b, []⟩

/-- Read one cell. -/
def load (t : Traced α) (i : ℤ) : Option (α × Traced α) :=
  if 0 ≤ i then
    (t.block.load i.toNat).map fun v => (v, { t with trace := .read i.toNat :: t.trace })
  else none

/-- Write one cell. -/
def store (t : Traced α) (i : ℤ) (v : α) : Option (Traced α) :=
  if 0 ≤ i then
    (t.block.store i.toNat v).map fun b => { block := b, trace := .write i.toNat :: t.trace }
  else none

theorem load_eq (h : i < t.block.size) :
    t.load i = some (t.block.cell i, { t with trace := .read i :: t.trace }) := by
  rw [load, if_pos (Int.natCast_nonneg i), Int.toNat_natCast, Block.load_eq h]
  rfl

theorem store_eq (h : i < t.block.size) (v : α) :
    t.store i v = some { block := t.block.set i v, trace := .write i :: t.trace } := by
  rw [store, if_pos (Int.natCast_nonneg i), Int.toNat_natCast, Block.store_eq h]
  rfl

end Traced

/-! ### Traces -/

variable {s : Set ℕ} {trace : List Access} {i : ℕ}

/-- Only cells in `s` were accessed. -/
def Touches (s : Set ℕ) (trace : List Access) : Prop := ∀ a ∈ trace, a.index ∈ s

theorem touches_nil (s : Set ℕ) : Touches s [] := fun _ h => absurd h List.not_mem_nil

theorem Touches.cons {a : Access} (h : Touches s trace) (ha : a.index ∈ s) :
    Touches s (a :: trace) :=
  List.forall_mem_cons.mpr ⟨ha, h⟩

/-- Before a cell in `s` is written, it is read. -/
def ReadFirst (s : Set ℕ) (trace : List Access) : Prop :=
  ∀ later i earlier, trace = later ++ .write i :: earlier → i ∈ s → .read i ∈ earlier

theorem readFirst_nil (s : Set ℕ) : ReadFirst s [] := by
  intro later i earlier h
  exact absurd h.symm (List.append_ne_nil_of_right_ne_nil later (List.cons_ne_nil _ _))

theorem ReadFirst.read (h : ReadFirst s trace) (i : ℕ) : ReadFirst s (.read i :: trace) := by
  intro later j earlier htrace
  rcases List.cons_eq_append_iff.mp htrace with ⟨-, hwrite⟩ | ⟨later, -, htrace⟩
  · cases hwrite
  · exact h later j earlier htrace

theorem ReadFirst.write (h : ReadFirst s trace) (hi : i ∈ s → .read i ∈ trace) :
    ReadFirst s (.write i :: trace) := by
  intro later j earlier htrace
  rcases List.cons_eq_append_iff.mp htrace with ⟨-, hwrite⟩ | ⟨later, -, htrace⟩
  · cases hwrite
    exact hi
  · exact h later j earlier htrace

end Memory
