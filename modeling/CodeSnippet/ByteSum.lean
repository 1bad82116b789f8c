/-
CodeSnippet/ByteSum.lean

Byte sums modulo 256.  Two byte strings of the same length have the same sum
exactly if the differences of their bytes, taken as numbers, sum to a multiple
of 256 (`sum_eq_iff`); a change of one byte always changes the sum
(`sum_set_ne`).
-/
import Mathlib

namespace Bytes

/-- The sum of the bytes as numbers. -/
def total (l : List UInt8) : ℤ := (l.map fun b => (b.toNat : ℤ)).sum

/-- What has to be added to the bytes of `f` to get those of `g`. -/
def differences (f g : List UInt8) : List ℤ :=
  List.zipWith (fun b b' => (b'.toNat : ℤ) - b.toNat) f g

theorem total_cons (b : UInt8) (l : List UInt8) : total (b :: l) = b.toNat + total l := by
  rw [total, List.map_cons, List.sum_cons]
  rfl

/-- The wrapping sum is what is left of the numbers. -/
theorem toNat_sum (l : List UInt8) : (l.sum.toNat : ℤ) = total l % 256 := by
  induction l with
  | nil => rfl
  | cons b l ih =>
      rw [List.sum_cons, UInt8.toNat_add, total_cons]
      push_cast
      omega

theorem sum_eq_iff_total {f g : List UInt8} : g.sum = f.sum ↔ total g ≡ total f [ZMOD 256] := by
  rw [← UInt8.toNat_inj, ← Int.natCast_inj, toNat_sum, toNat_sum]
  rfl

theorem sum_differences {f g : List UInt8} (h : g.length = f.length) :
    (differences f g).sum = total g - total f := by
  induction f generalizing g with
  | nil =>
      obtain rfl := List.length_eq_zero_iff.mp h
      rfl
  | cons b f ih =>
      cases g with
      | nil => cases h
      | cons b' g =>
          have ih := ih (Nat.succ.inj h)
          rw [differences] at ih ⊢
          rw [List.zipWith_cons_cons, List.sum_cons, ih, total_cons, total_cons]
          ring

/-- **Two byte strings have the same sum** exactly if their differences sum to a
multiple of 256. -/
theorem sum_eq_iff {f g : List UInt8} (h : g.length = f.length) :
    g.sum = f.sum ↔ (differences f g).sum ≡ 0 [ZMOD 256] := by
  rw [sum_eq_iff_total, sum_differences h]
  exact ⟨fun he => by simpa using he.sub_right (total f),
    fun he => by simpa using he.add_right (total f)⟩

theorem total_set {f : List UInt8} {i : ℕ} (hi : i < f.length) (v : UInt8) :
    total (f.set i v) - total f = v.toNat - f[i].toNat := by
  induction f generalizing i with
  | nil => cases hi
  | cons b f ih =>
      cases i with
      | zero =>
          rw [List.set_cons_zero, total_cons, total_cons, List.getElem_cons_zero]
          ring
      | succ i =>
          rw [List.set_cons_succ, total_cons, total_cons, List.getElem_cons_succ,
            ← ih (Nat.lt_of_succ_lt_succ hi)]
          ring

/-- **A change of one byte changes the sum.** -/
theorem sum_set_ne {f : List UInt8} {i : ℕ} (hi : i < f.length) {v : UInt8} (hv : v ≠ f[i]) :
    (f.set i v).sum ≠ f.sum := by
  intro h
  have hmod := sum_eq_iff_total.mp h
  have hset := total_set hi v
  have hne : v.toNat ≠ f[i].toNat := fun e => hv (UInt8.toNat_inj.mp e)
  have hv := v.toNat_lt
  have hf := f[i].toNat_lt
  rw [Int.ModEq] at hmod
  omega

end Bytes
