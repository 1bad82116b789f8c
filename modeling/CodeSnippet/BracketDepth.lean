/-
CodeSnippet/BracketDepth.lean

Brackets and how deep they nest.  Mathlib's Dyck words are the balanced
sequences of brackets; here is what a matcher with a bounded counter makes of
any sequence.  A counter that stays at its bound loses the brackets above it,
and from then on it is as far below the height as the peak so far has been above
the bound.

Main results:
  * `exists_dyckWord_iff` — balance in terms of the height.
  * `bounded_eq` — the counter in terms of the height and the peak.
  * `bounded_iff_dyckWord` — when the counter accepts exactly the balanced
    sequences.
-/
import Mathlib

namespace Brackets

open DyckStep

/-! ### Height and peak -/

/-- How many brackets are open behind the sequence. -/
def height (l : List DyckStep) : ℤ := l.count U - l.count D

/-- The greatest height of a prefix. -/
def peak : List DyckStep → ℕ
  | [] => 0
  | U :: l => peak l + 1
  | D :: l => peak l - 1

theorem height_append (l l' : List DyckStep) : height (l ++ l') = height l + height l' := by
  rw [height, height, height, List.count_append, List.count_append]
  push_cast
  ring

theorem height_concat_U (l : List DyckStep) : height (l ++ [U]) = height l + 1 := by
  rw [height_append]
  rfl

theorem height_concat_D (l : List DyckStep) : height (l ++ [D]) = height l - 1 := by
  rw [height_append]
  rfl

theorem peak_append (l l' : List DyckStep) :
    (peak (l ++ l') : ℤ) = max (peak l : ℤ) (height l + peak l') := by
  induction l with
  | nil =>
      show (peak l' : ℤ) = max (0 : ℤ) (0 + peak l')
      omega
  | cons s l ih =>
      have hcons : height (s :: l) = height [s] + height l := height_append [s] l
      rw [hcons]
      cases s with
      | U =>
          show ((peak (l ++ l') + 1 : ℕ) : ℤ) = max ((peak l + 1 : ℕ) : ℤ) (1 + height l + peak l')
          omega
      | D =>
          show ((peak (l ++ l') - 1 : ℕ) : ℤ) = max ((peak l - 1 : ℕ) : ℤ) (-1 + height l + peak l')
          omega

theorem height_le_peak (l : List DyckStep) : height l ≤ peak l := by
  have hself := peak_append l []
  rw [List.append_nil] at hself
  omega

theorem peak_le_of_prefix {q l : List DyckStep} (h : q <+: l) : peak q ≤ peak l := by
  obtain ⟨r, rfl⟩ := h
  have happend := peak_append q r
  omega

/-! ### Balance -/

/-- **Balance in terms of the height**: it is never negative, and 0 in the end. -/
theorem exists_dyckWord_iff {l : List DyckStep} :
    (∃ w : DyckWord, w.toList = l) ↔ height l = 0 ∧ ∀ q, q <+: l → 0 ≤ height q := by
  constructor
  · rintro ⟨w, rfl⟩
    refine ⟨sub_eq_zero.mpr (congrArg Nat.cast w.count_U_eq_count_D), fun q hq => ?_⟩
    have hle := w.count_D_le_count_U q.length
    rw [← List.prefix_iff_eq_take.mp hq] at hle
    exact sub_nonneg.mpr (Nat.cast_le.mpr hle)
  · rintro ⟨hend, hfront⟩
    refine ⟨⟨l, Nat.cast_inj.mp (sub_eq_zero.mp hend), fun i => ?_⟩, rfl⟩
    exact Nat.cast_le.mp (sub_nonneg.mp (hfront _ (List.take_prefix i l)))

/-! ### A bounded counter -/

/-- The counter behind a sequence, when it starts with `c` and never counts
further than `max`; a closing bracket at 0 is an error. -/
def bounded (max : ℕ) : ℕ → List DyckStep → Option ℕ
  | c, [] => some c
  | c, U :: l => bounded max (if c < max then c + 1 else c) l
  | 0, D :: _ => none
  | c + 1, D :: l => bounded max c l

theorem bounded_append (max c : ℕ) (l l' : List DyckStep) :
    bounded max c (l ++ l') = (bounded max c l).bind fun c => bounded max c l' := by
  induction l generalizing c with
  | nil => rfl
  | cons s l ih =>
      cases s with
      | U => exact ih _
      | D =>
          cases c with
          | zero => rfl
          | succ c => exact ih c

/-- No prefix ends further below the peak so far than the counter reaches. -/
def WithinReach (max : ℕ) (l : List DyckStep) : Prop :=
  ∀ q, q <+: l → 0 ≤ height q ∧ (peak q : ℤ) ≤ height q + max

theorem withinReach_concat {max : ℕ} {l : List DyckStep} {s : DyckStep} :
    WithinReach max (l ++ [s]) ↔ WithinReach max l ∧
      0 ≤ height (l ++ [s]) ∧ (peak (l ++ [s]) : ℤ) ≤ height (l ++ [s]) + max := by
  constructor
  · exact fun h => ⟨fun q hq => h q (hq.trans (List.prefix_append l [s])), h _ List.prefix_rfl⟩
  · rintro ⟨h, hlast⟩ q hq
    rcases List.prefix_concat_iff.mp hq with rfl | hq
    · exact hlast
    · exact h q hq

/-- **The counter** is the height, less what the peak is above the bound; by
induction from the end. -/
theorem bounded_eq_some_iff {max c : ℕ} {l : List DyckStep} :
    bounded max 0 l = some c ↔
      WithinReach max l ∧ (c : ℤ) = height l - (peak l - max : ℕ) := by
  induction l using List.reverseRecOn generalizing c with
  | nil =>
      have hnil : WithinReach max [] := by
        intro q hq
        rw [List.prefix_nil.mp hq]
        exact ⟨le_rfl, by simp [height, peak]⟩
      rw [bounded, Option.some.injEq, and_iff_right hnil]
      show 0 = c ↔ (c : ℤ) = 0 - ((0 - max : ℕ) : ℤ)
      omega
  | append_singleton l s ih =>
      have hpeak := peak_append l [s]
      have hle := height_le_peak l
      rw [bounded_append, Option.bind_eq_some_iff, withinReach_concat]
      cases s with
      | U =>
          have hpeak : (peak (l ++ [U]) : ℤ) = Max.max (peak l : ℤ) (height l + 1) := hpeak
          rw [height_concat_U]
          constructor
          · rintro ⟨c', hc', hstep⟩
            obtain ⟨hreach, hcount⟩ := ih.mp hc'
            have hlast := hreach l List.prefix_rfl
            have hstep : (if c' < max then c' + 1 else c') = c := Option.some.inj hstep
            refine ⟨⟨hreach, by omega, by omega⟩, ?_⟩
            split_ifs at hstep <;> omega
          · rintro ⟨⟨hreach, hpos, hnear⟩, hcount⟩
            have hlast := hreach l List.prefix_rfl
            obtain ⟨c', hc'⟩ : ∃ c' : ℕ, height l - (peak l - max : ℕ) = c' :=
              Int.eq_ofNat_of_zero_le (by omega)
            refine ⟨c', ih.mpr ⟨hreach, hc'.symm⟩, ?_⟩
            show some (if c' < max then c' + 1 else c') = some c
            congr 1
            split_ifs <;> omega
      | D =>
          have hpeak : (peak (l ++ [D]) : ℤ) = Max.max (peak l : ℤ) (height l + 0) := hpeak
          rw [height_concat_D]
          constructor
          · rintro ⟨c', hc', hstep⟩
            obtain ⟨hreach, hcount⟩ := ih.mp hc'
            cases c' with
            | zero => cases hstep
            | succ c' =>
                obtain rfl : c' = c := Option.some.inj hstep
                refine ⟨⟨hreach, by omega, by omega⟩, by omega⟩
          · rintro ⟨⟨hreach, hpos, hnear⟩, hcount⟩
            refine ⟨c + 1, ih.mpr ⟨hreach, by omega⟩, rfl⟩

/-- **Where the bound does not matter.** -/
theorem bounded_iff_dyckWord {max : ℕ} {l : List DyckStep} (h : peak l ≤ max) :
    bounded max 0 l = some 0 ↔ ∃ w : DyckWord, w.toList = l := by
  rw [bounded_eq_some_iff, exists_dyckWord_iff, and_comm]
  have hreach : WithinReach max l ↔ ∀ q, q <+: l → 0 ≤ height q := by
    refine ⟨fun hall q hq => (hall q hq).1, fun hall q hq => ⟨hall q hq, ?_⟩⟩
    have hle := peak_le_of_prefix hq
    have hpos := hall q hq
    omega
  rw [hreach]
  refine and_congr_left fun _ => ?_
  omega

end Brackets
