/-
CodeSnippet/ByteOrder.lean

Numbers of some bytes in memory, the lowest byte first, and the number whose bytes
are the same in the other order.

Main results:
  * `ofLittleEndian_littleEndian`, `littleEndian_ofLittleEndian` — numbers and their
    bytes.
  * `swapped_swapped` — changing the order twice.
-/
import Mathlib

namespace ByteOrder

/-- The lowest `k` bytes of a number. -/
def littleEndian : ℕ → ℕ → List UInt8
  | 0, _ => []
  | k + 1, n => UInt8.ofNat n :: littleEndian k (n / 256)

/-- The number that some bytes make. -/
def ofLittleEndian : List UInt8 → ℕ
  | [] => 0
  | b :: l => b.toNat + 256 * ofLittleEndian l

/-- The number with the lowest `k` bytes in the other order. -/
def swapped (k n : ℕ) : ℕ := ofLittleEndian (littleEndian k n).reverse

@[simp] theorem length_littleEndian (k n : ℕ) : (littleEndian k n).length = k := by
  induction k generalizing n with
  | zero => rfl
  | succ k ih => exact congrArg Nat.succ (ih (n / 256))

theorem ofLittleEndian_lt (l : List UInt8) : ofLittleEndian l < 256 ^ l.length := by
  induction l with
  | nil => exact Nat.one_pos
  | cons b l ih =>
      have hb := b.toNat_lt
      rw [ofLittleEndian, List.length_cons, pow_succ]
      omega

theorem ofLittleEndian_littleEndian (k n : ℕ) :
    ofLittleEndian (littleEndian k n) = n % 256 ^ k := by
  induction k generalizing n with
  | zero => exact (Nat.mod_one n).symm
  | succ k ih =>
      rw [littleEndian, ofLittleEndian, ih, pow_succ', Nat.mod_mul, UInt8.toNat_ofNat']

theorem littleEndian_ofLittleEndian (l : List UInt8) :
    littleEndian l.length (ofLittleEndian l) = l := by
  induction l with
  | nil => rfl
  | cons b l ih =>
      have hb := b.toNat_lt
      have hlow : UInt8.ofNat (b.toNat + 256 * ofLittleEndian l) = b := by
        apply UInt8.toNat_inj.mp
        rw [UInt8.toNat_ofNat']
        omega
      have hhigh : (b.toNat + 256 * ofLittleEndian l) / 256 = ofLittleEndian l := by omega
      rw [ofLittleEndian, List.length_cons, littleEndian, hlow, hhigh, ih]

theorem swapped_lt (k n : ℕ) : swapped k n < 256 ^ k := by
  have hlt := ofLittleEndian_lt (littleEndian k n).reverse
  rwa [List.length_reverse, length_littleEndian] at hlt

/-- The bytes of the other number. -/
theorem littleEndian_swapped (k n : ℕ) :
    littleEndian k (swapped k n) = (littleEndian k n).reverse := by
  have hbytes := littleEndian_ofLittleEndian (littleEndian k n).reverse
  rwa [List.length_reverse, length_littleEndian] at hbytes

theorem swapped_swapped {k n : ℕ} (hn : n < 256 ^ k) : swapped k (swapped k n) = n := by
  rw [swapped, littleEndian_swapped, List.reverse_reverse, ofLittleEndian_littleEndian,
    Nat.mod_eq_of_lt hn]

end ByteOrder
