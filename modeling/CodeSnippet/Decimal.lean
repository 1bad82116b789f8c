/-
CodeSnippet/Decimal.lean

Decimal numbers as `%d` prints them: digits without leading zeros.

Main results:
  * `decimal_numeral` — reading a printed number gives the number.
  * `length_numeral_le_iff` — how many digits are printed.
-/
import CodeSnippet.PostfixLine

namespace CodeSnippet

/-- What `%d` prints for a number that is not negative. -/
def numeral (n : ℕ) : List UInt8 := (Nat.toDigits 10 n).map Char.toUInt8

theorem bytes_toString (n : ℕ) : bytes (toString (n : ℤ)) = numeral n := by
  show (Nat.repr n).toList.map Char.toUInt8 = _
  rw [Nat.toList_repr, numeral]

theorem numeral_ne_nil (n : ℕ) : numeral n ≠ [] :=
  List.map_eq_nil_iff.not.mpr Nat.toDigits_ne_nil

theorem length_numeral_le_iff {n k : ℕ} (hk : 0 < k) : (numeral n).length ≤ k ↔ n < 10 ^ k := by
  rw [numeral, List.length_map, Nat.length_toDigits_le_iff (by decide) hk]

/-- A digit is one byte. -/
theorem toUInt8_of_isDigit {c : Char} (h : c.isDigit = true) :
    isdigit c.toUInt8 = true ∧ c.toUInt8.toNat = c.toNat := by
  obtain ⟨hlow, hhigh⟩ := Bool.and_eq_true_iff.mp h
  have hlow : 48 ≤ c.toNat := UInt32.le_iff_toNat_le.mp (of_decide_eq_true hlow)
  have hhigh : c.toNat ≤ 57 := UInt32.le_iff_toNat_le.mp (of_decide_eq_true hhigh)
  have hnat : c.toUInt8.toNat = c.toNat := by
    show c.val.toUInt8.toNat = c.toNat
    rw [UInt32.toNat_toUInt8]
    exact Nat.mod_eq_of_lt (show c.toNat < 2 ^ 8 by omega)
  refine ⟨?_, hnat⟩
  rw [isdigit, Bool.and_eq_true, decide_eq_true_iff, decide_eq_true_iff, UInt8.le_iff_toNat_le,
    UInt8.le_iff_toNat_le, hnat]
  exact ⟨hlow, hhigh⟩

theorem isdigit_numeral (n : ℕ) : ∀ c ∈ numeral n, isdigit c = true := by
  intro c hc
  obtain ⟨d, hd, rfl⟩ := List.mem_map.mp hc
  exact (toUInt8_of_isDigit (Nat.isDigit_of_mem_toDigits (by decide) (by decide) hd)).1

theorem decimal_eq_foldl {w : List UInt8} (hw : ∀ c ∈ w, isdigit c = true) :
    decimal w = w.foldl (fun n c => 10 * n + (c.toNat - (chr '0').toNat : ℤ)) 0 := by
  rw [decimal, List.takeWhile_eq_self_iff.mpr hw]

theorem foldl_digits {l : List Char} (hl : ∀ c ∈ l, c.isDigit = true) (k : ℕ) :
    (l.map Char.toUInt8).foldl (fun n c => 10 * n + (c.toNat - (chr '0').toNat : ℤ)) (k : ℤ) =
      (Nat.ofDigitChars 10 l k : ℤ) := by
  induction l generalizing k with
  | nil => rfl
  | cons c l ih =>
      obtain ⟨hc, hl⟩ := List.forall_mem_cons.mp hl
      obtain ⟨hdigit, hnat⟩ := toUInt8_of_isDigit hc
      have hle : 48 ≤ c.toNat := by
        rw [← hnat]
        exact UInt8.le_iff_toNat_le.mp (of_decide_eq_true (Bool.and_eq_true_iff.mp hdigit).1)
      have hstep : (10 * (k : ℤ) + (c.toUInt8.toNat - (chr '0').toNat : ℤ)) =
          ((10 * k + (c.toNat - '0'.toNat) : ℕ) : ℤ) := by
        rw [hnat, show (chr '0').toNat = 48 from rfl, show '0'.toNat = 48 from rfl]
        omega
      rw [List.map_cons, List.foldl_cons, hstep, ih hl, Nat.ofDigitChars_cons]

/-- **A printed number is read back.** -/
theorem decimal_numeral (n : ℕ) : decimal (numeral n) = n := by
  have hdigits : ∀ c ∈ Nat.toDigits 10 n, c.isDigit = true :=
    fun c hc => Nat.isDigit_of_mem_toDigits (by decide) (by decide) hc
  rw [decimal_eq_foldl (isdigit_numeral n), numeral]
  exact (foldl_digits hdigits 0).trans (congrArg _ Nat.ofDigitChars_ten_toDigits)

/-- The value of some digits. -/
theorem exists_decimal_eq {w : List UInt8} (hw : ∀ c ∈ w, isdigit c = true) :
    ∃ n : ℕ, decimal w = n ∧ n < 10 ^ w.length := by
  rw [decimal_eq_foldl hw]
  induction w using List.reverseRecOn with
  | nil => exact ⟨0, rfl, Nat.one_pos⟩
  | append_singleton w c ih =>
      obtain ⟨n, hn, hlt⟩ := ih fun d hd => hw d (List.mem_append_left _ hd)
      have hc := hw c (List.mem_append_right _ (List.mem_singleton_self c))
      obtain ⟨hlow, hhigh⟩ := Bool.and_eq_true_iff.mp hc
      have hlow : 48 ≤ c.toNat := UInt8.le_iff_toNat_le.mp (of_decide_eq_true hlow)
      have hhigh : c.toNat ≤ 57 := UInt8.le_iff_toNat_le.mp (of_decide_eq_true hhigh)
      refine ⟨10 * n + (c.toNat - 48), ?_, ?_⟩
      · rw [List.foldl_append, hn, List.foldl_cons, List.foldl_nil,
          show (chr '0').toNat = 48 from rfl]
        omega
      · rw [List.length_append, List.length_singleton, pow_succ]
        omega

/-- No value is negative. -/
theorem exists_decimal (w : List UInt8) : ∃ n : ℕ, decimal w = n := by
  obtain ⟨n, hn, -⟩ := exists_decimal_eq (w := w.takeWhile isdigit) fun c => List.mem_takeWhile_imp
  refine ⟨n, Eq.trans ?_ hn⟩
  rw [decimal, decimal, List.takeWhile_takeWhile]
  simp only [and_self, Bool.decide_eq_true]

/-- The value of a number is printed with at most 7 digits. -/
theorem IsNumber.exists_numeral {w : List UInt8} (h : IsNumber w) :
    ∃ n : ℕ, decimal w = n ∧ (numeral n).length ≤ 7 := by
  obtain ⟨-, hlen, hw⟩ := h
  obtain ⟨n, hn, hlt⟩ := exists_decimal_eq hw
  exact ⟨n, hn, (length_numeral_le_iff (by decide)).mpr
    (hlt.trans_le (Nat.pow_le_pow_right (by decide) hlen))⟩

end CodeSnippet
