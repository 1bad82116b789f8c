/-
CodeSnippet/CInt.lean

What the C programs of the repository have in common: the signed integer types `int`
and `long`, where an overflow is undefined, and the error numbers that functions of
the kernel return.
-/
import Mathlib

namespace CodeSnippet

/-! ### Signed integers -/

/-- A result of type `int`; an overflow is undefined. -/
def checkedInt (x : ℤ) : Option ℤ := if -2 ^ 31 ≤ x ∧ x < 2 ^ 31 then some x else none

theorem checkedInt_eq {x : ℤ} (hlow : -2 ^ 31 ≤ x) (hhigh : x < 2 ^ 31) : checkedInt x = some x :=
  if_pos ⟨hlow, hhigh⟩

theorem checkedInt_eq_some_iff {x y : ℤ} :
    checkedInt x = some y ↔ (-2 ^ 31 ≤ x ∧ x < 2 ^ 31) ∧ x = y := by
  rw [checkedInt, Option.ite_none_right_eq_some, Option.some.injEq]

/-- A result of type `long`, of 64 bits. -/
def checkedLong (x : ℤ) : Option ℤ := if -2 ^ 63 ≤ x ∧ x < 2 ^ 63 then some x else none

theorem checkedLong_eq_some_iff {x y : ℤ} :
    checkedLong x = some y ↔ (-2 ^ 63 ≤ x ∧ x < 2 ^ 63) ∧ x = y := by
  rw [checkedLong, Option.ite_none_right_eq_some, Option.some.injEq]

/-! ### Error numbers -/

def eNoEnt : ℤ := 2
def eNoMem : ℤ := 12
def eFault : ℤ := 14
def eInval : ℤ := 22
def eNoBufs : ℤ := 105

end CodeSnippet
