/-
CodeSnippet/Loop.lean

`while` loops, run with fuel: one unit for each iteration.  Counting loops, whose
body may have no result.

Main results:
  * `Loop.halts_of_measure` — a loop halts when its body decreases a measure.
  * `Loop.not_halts_of_invariant` — it does not when its condition is kept.
  * `Loop.upTo_invariant` — a counting loop whose rounds keep an invariant.
  * `Loop.upTo_rounds` — every round of a counting loop with a result has one.
-/
import Mathlib

namespace Loop

variable {σ : Type*} {cond : σ → Bool} {body : σ → σ}

/-- `while (cond) body`, or `none` when the fuel is used up before. -/
def run (cond : σ → Bool) (body : σ → σ) : ℕ → σ → Option σ
  | fuel, s =>
      if cond s then
        match fuel with
        | 0 => none
        | fuel + 1 => run cond body fuel (body s)
      else some s

/-- The loop ends when it is started in `s`. -/
def Halts (cond : σ → Bool) (body : σ → σ) (s : σ) : Prop :=
  ∃ fuel t, run cond body fuel s = some t

theorem run_of_not {fuel : ℕ} {s : σ} (h : cond s = false) : run cond body fuel s = some s := by
  unfold run
  rw [h]
  rfl

theorem run_succ {fuel : ℕ} {s : σ} (h : cond s = true) :
    run cond body (fuel + 1) s = run cond body fuel (body s) := by
  rw [run, h, if_pos rfl]

/-- **Invariant rule.**  What the body keeps holds at the end, and the
condition does not. -/
theorem run_invariant {P : σ → Prop} (hbody : ∀ s, P s → cond s = true → P (body s))
    {fuel : ℕ} {s t : σ} (hs : P s) (h : run cond body fuel s = some t) :
    P t ∧ cond t = false := by
  induction fuel generalizing s with
  | zero =>
      rcases e : cond s with _ | _
      · rw [run_of_not e] at h
        cases h
        exact ⟨hs, e⟩
      · rw [run, e] at h
        cases h
  | succ fuel ih =>
      rcases e : cond s with _ | _
      · rw [run_of_not e] at h
        cases h
        exact ⟨hs, e⟩
      · rw [run_succ e] at h
        exact ih (hbody s hs e) h

/-- **Measure rule**, relative to an invariant. -/
theorem halts_of_measure {P : σ → Prop} (μ : σ → ℕ)
    (hbody : ∀ s, P s → cond s = true → P (body s) ∧ μ (body s) < μ s) {s : σ} (hs : P s) :
    Halts cond body s := by
  induction hμ : μ s using Nat.strong_induction_on generalizing s with
  | _ n ih =>
      rcases e : cond s with _ | _
      · exact ⟨0, s, run_of_not e⟩
      · obtain ⟨hs', hlt⟩ := hbody s hs e
        obtain ⟨fuel, t, ht⟩ := ih _ (hμ ▸ hlt) hs' rfl
        refine ⟨fuel + 1, t, ?_⟩
        rw [run_succ e]
        exact ht

/-- **Divergence rule.** -/
theorem not_halts_of_invariant {P : σ → Prop} (hbody : ∀ s, P s → cond s = true ∧ P (body s))
    {s : σ} (hs : P s) : ¬ Halts cond body s := by
  rintro ⟨fuel, t, ht⟩
  obtain ⟨hP, hcond⟩ := run_invariant (fun s hs _ => (hbody s hs).2) hs ht
  rw [(hbody t hP).1] at hcond
  cases hcond

/-! ### Counting loops -/

section UpTo

variable {next : ℕ → σ → Option σ} {n : ℕ} {s t : σ}

/-- `for (i = 0; i < n; i++) next`, or `none` when a round has no result. -/
def upTo (n : ℕ) (next : ℕ → σ → Option σ) (s : σ) : Option σ :=
  (List.range n).foldlM (fun s i => next i s) s

theorem upTo_succ (n : ℕ) (next : ℕ → σ → Option σ) (s : σ) :
    upTo (n + 1) next s = (upTo n next s).bind (next n) := by
  rw [upTo, List.range_succ, List.foldlM_append]
  simp [upTo]

/-- **Invariant rule.** -/
theorem upTo_invariant {P : ℕ → σ → Prop} (hs : P 0 s)
    (hnext : ∀ i < n, ∀ s, P i s → ∃ s', next i s = some s' ∧ P (i + 1) s') :
    ∃ t, upTo n next s = some t ∧ P n t := by
  induction n with
  | zero => exact ⟨s, rfl, hs⟩
  | succ n ih =>
      obtain ⟨t, ht, hP⟩ := ih fun i hi => hnext i (hi.trans n.lt_succ_self)
      obtain ⟨t', ht', hP'⟩ := hnext n n.lt_succ_self t hP
      refine ⟨t', ?_, hP'⟩
      rw [upTo_succ, ht]
      exact ht'

/-- **All rounds** of a loop that has a result have one. -/
theorem upTo_rounds {P : σ → Prop} (hkeeps : ∀ i < n, ∀ s s', P s → next i s = some s' → P s')
    (hs : P s) (h : upTo n next s = some t) :
    P t ∧ ∀ i < n, ∃ s s', P s ∧ next i s = some s' := by
  induction n generalizing t with
  | zero =>
      cases h
      exact ⟨hs, fun i hi => absurd hi i.not_lt_zero⟩
  | succ n ih =>
      rw [upTo_succ] at h
      obtain ⟨t', ht', hlast⟩ := Option.bind_eq_some_iff.mp h
      obtain ⟨hP, hrounds⟩ := ih (fun i hi => hkeeps i (hi.trans n.lt_succ_self)) ht'
      refine ⟨hkeeps n n.lt_succ_self t' t hP hlast, fun i hi => ?_⟩
      rcases Nat.eq_or_lt_of_le (Nat.le_of_lt_succ hi) with rfl | hlt
      · exact ⟨t', t, hP, hlast⟩
      · exact hrounds i hlt

end UpTo

end Loop
