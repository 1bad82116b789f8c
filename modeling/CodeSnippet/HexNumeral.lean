/-
CodeSnippet/HexNumeral.lean

`xtou64` of src/kernel_module/smc/utils/smc.c as the inverse of the `%lx` with
which `main` prints the results of a call.

Main results:
  * `xtou64_printLx` — a printed number is read back.
  * `xtou64_decodes` — the number that a string of digits makes.
-/
import CodeSnippet.SmcCommand

namespace CodeSnippet

namespace Smc

/-! ### Digits and numbers -/

/-- The number that digits spell. -/
def hexValue (digits : List UInt8) : ℕ := Nat.ofDigits 16 (digits.map digitValue).reverse

theorem hexValue_concat (digits : List UInt8) (c : UInt8) :
    hexValue (digits ++ [c]) = 16 * hexValue digits + digitValue c := by
  rw [hexValue, List.map_append, List.reverse_append, List.map_singleton, List.reverse_singleton,
    List.singleton_append, Nat.ofDigits_cons, hexValue, Nat.add_comm]

theorem foldl_eq_hexValue (digits : List UInt8) :
    digits.foldl (fun n c => 16 * n + digitValue c) 0 = hexValue digits := by
  induction digits using List.reverseRecOn with
  | nil => rfl
  | append_singleton digits c ih => rw [List.foldl_append, ih, hexValue_concat]; rfl

theorem toNat_xtou64_digits {digits : List UInt8} (h : ∀ c ∈ digits, isxdigit c = true) :
    (xtou64 digits).toNat = hexValue digits % 2 ^ 64 := by
  have hzero : (0 : UInt64).toNat = 0 % 2 ^ 64 := rfl
  rw [← foldl_eq_hexValue]
  exact toNat_rounds h hzero

/-! ### Upper and lower case -/

def tolower (c : UInt8) : UInt8 := if chr 'A' ≤ c && c ≤ chr 'Z' then c + 32 else c

/-- Both cases of a letter are the same digit. -/
theorem tolower_digit (c : UInt8) : isxdigit (tolower c) = isxdigit c ∧
    (isxdigit c = true → digitValue (tolower c) = digitValue c) := by
  have hall : (List.range 256).all (fun n =>
      let c := UInt8.ofNat n
      (isxdigit (tolower c) == isxdigit c) &&
        (!isxdigit c || (digitValue (tolower c) == digitValue c))) = true := by
    decide +kernel
  have hc := List.all_eq_true.mp hall c.toNat (List.mem_range.mpr c.toNat_lt)
  simp only [UInt8.ofNat_toNat, Bool.and_eq_true, beq_iff_eq, Bool.or_eq_true,
    Bool.not_eq_true'] at hc
  refine ⟨hc.1, fun h => hc.2.resolve_left ?_⟩
  rw [h]
  exact Bool.noConfusion

/-- Digits that differ only in case spell the same number. -/
theorem hexValue_tolower {digits : List UInt8} (h : ∀ c ∈ digits, isxdigit c = true) :
    hexValue (digits.map tolower) = hexValue digits := by
  rw [hexValue, List.map_map, hexValue]
  refine congrArg (fun l : List ℕ => Nat.ofDigits 16 l.reverse) (List.map_congr_left fun c hc => ?_)
  exact (tolower_digit c).2 (h c hc)

theorem isxdigit_map_tolower {digits : List UInt8} :
    (∀ c ∈ digits.map tolower, isxdigit c = true) ↔ ∀ c ∈ digits, isxdigit c = true := by
  simp only [List.forall_mem_map, (tolower_digit _).1]

/-! ### Printed numbers -/

/-- What `%lx` prints: lower-case digits without leading zeros. -/
def printLx (v : UInt64) : List UInt8 := (Nat.toDigits 16 v.toNat).map Char.toUInt8

/-- The digit that is printed for a number below 16. -/
theorem digitChar_digit {d : ℕ} (hd : d < 16) :
    isxdigit d.digitChar.toUInt8 = true ∧ digitValue d.digitChar.toUInt8 = d := by
  revert d
  decide

theorem toDigits_hexValue (n : ℕ) :
    (∀ c ∈ (Nat.toDigits 16 n).map Char.toUInt8, isxdigit c = true) ∧
      hexValue ((Nat.toDigits 16 n).map Char.toUInt8) = n := by
  induction n using Nat.strong_induction_on with
  | _ n ih =>
      rcases Nat.lt_or_ge n 16 with hlt | hge
      · obtain ⟨hdigit, hvalue⟩ := digitChar_digit hlt
        rw [Nat.toDigits_of_lt_base hlt, List.map_singleton, List.forall_mem_singleton]
        exact ⟨hdigit, hvalue⟩
      · -- the last digit is the remainder
        obtain ⟨hdigits, hvalues⟩ := ih (n / 16) (Nat.div_lt_self (by omega) (by decide))
        obtain ⟨hdigit, hvalue⟩ := digitChar_digit (Nat.mod_lt n (by decide : 0 < 16))
        rw [Nat.toDigits_of_base_le (by decide) hge, List.map_append, List.map_singleton,
          List.forall_mem_append, List.forall_mem_singleton, hexValue_concat, hvalues, hvalue]
        exact ⟨⟨hdigits, hdigit⟩, Nat.div_add_mod n 16⟩

/-- **A printed number is read back.** -/
theorem xtou64_printLx (v : UInt64) : xtou64 (printLx v) = v := by
  obtain ⟨hdigits, hvalue⟩ := toDigits_hexValue v.toNat
  rw [← UInt64.toNat_inj, printLx, toNat_xtou64_digits hdigits, hvalue]
  exact Nat.mod_eq_of_lt v.toNat_lt

/-- **What `xtou64` makes of digits**: their number modulo 2^64, in whatever case
the letters are, and the number itself of what is printed. -/
theorem xtou64_decodes (digits : List UInt8) (h : ∀ c ∈ digits, isxdigit c = true) (v : UInt64) :
    (xtou64 digits).toNat = hexValue digits % 2 ^ 64 ∧
      (∀ digits', digits'.map tolower = digits.map tolower → xtou64 digits' = xtou64 digits) ∧
      xtou64 (printLx v) = v := by
  refine ⟨toNat_xtou64_digits h, fun digits' hcase => ?_, xtou64_printLx v⟩
  have h' : ∀ c ∈ digits', isxdigit c = true := by
    rw [← isxdigit_map_tolower, hcase, isxdigit_map_tolower]
    exact h
  rw [← UInt64.toNat_inj, toNat_xtou64_digits h, toNat_xtou64_digits h', ← hexValue_tolower h',
    hcase, hexValue_tolower h]

theorem xtou64_decodes_mixed :
    (xtou64 (bytes "fE0")).toNat = hexValue (bytes "fE0") % 2 ^ 64 ∧
      (∀ digits', digits'.map tolower = (bytes "fE0").map tolower →
        xtou64 digits' = xtou64 (bytes "fE0")) ∧
      xtou64 (printLx 4064) = 4064 :=
  xtou64_decodes (bytes "fE0") (by decide +kernel) 4064

end Smc

end CodeSnippet
