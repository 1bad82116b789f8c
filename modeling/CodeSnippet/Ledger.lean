/-
CodeSnippet/Ledger.lean

Ledgers of resources.  A program that acquires and releases resources through
calls is recorded by the two lists of the calls that it made.  A resource that
may be acquired more than once, such as a counted reference, stands in the
lists as often as it was acquired or released.

Main results:
  * `balanced_iff_count` — a ledger balances when every resource stands in both
    lists equally often.
-/
import Mathlib

/-- What was acquired and what was released, in the order of the calls. -/
structure Ledger (ρ : Type*) where
  acquired : List ρ
  released : List ρ

namespace Ledger

variable {ρ : Type*}

def blank : Ledger ρ := ⟨[], []⟩

def acquire (l : Ledger ρ) (r : ρ) : Ledger ρ := { l with acquired := l.acquired ++ [r] }

def release (l : Ledger ρ) (r : ρ) : Ledger ρ := { l with released := l.released ++ [r] }

/-- Everything that was acquired has been released once, and nothing else has
been released. -/
def Balanced (l : Ledger ρ) : Prop := l.released.Perm l.acquired

@[simp] theorem acquire_acquired (l : Ledger ρ) (r : ρ) :
    (l.acquire r).acquired = l.acquired ++ [r] := rfl

@[simp] theorem acquire_released (l : Ledger ρ) (r : ρ) : (l.acquire r).released = l.released := rfl

@[simp] theorem release_acquired (l : Ledger ρ) (r : ρ) : (l.release r).acquired = l.acquired := rfl

@[simp] theorem release_released (l : Ledger ρ) (r : ρ) :
    (l.release r).released = l.released ++ [r] := rfl

theorem balanced_iff_count [BEq ρ] [LawfulBEq ρ] {l : Ledger ρ} :
    l.Balanced ↔ ∀ r, l.released.count r = l.acquired.count r :=
  List.perm_iff_count

end Ledger
