/-
CodeSnippet/Calls.lean

Sequences of calls: the calls of a visitor with the elements of a list, and the
calls of the operations on a state, each with its answer.  Operations that
simulate others, one call at a time, give the same answers in every sequence of
calls (`outcomes_eq`, `run_eq_outcomes`, `run_matches`).
-/
import Mathlib

namespace Calls

/-! ### Visitors -/

section Visitors

variable {α σ : Type*}

/-- What the calls of `visit` with some elements leave, from the first to the
last. -/
def visitAll (visit : α → σ → σ) (l : List α) (s : σ) : σ := l.foldl (fun s x => visit x s) s

@[simp] theorem visitAll_nil (visit : α → σ → σ) (s : σ) : visitAll visit [] s = s := rfl

@[simp] theorem visitAll_cons (visit : α → σ → σ) (x : α) (l : List α) (s : σ) :
    visitAll visit (x :: l) s = visitAll visit l (visit x s) := rfl

@[simp] theorem visitAll_append (visit : α → σ → σ) (l l' : List α) (s : σ) :
    visitAll visit (l ++ l') s = visitAll visit l' (visitAll visit l s) :=
  List.foldl_append

/-- A visitor that writes down what it is called with. -/
def record (x : α) (seen : List α) : List α := seen ++ [x]

theorem visitAll_record (l seen : List α) : visitAll record l seen = seen ++ l := by
  induction l generalizing seen with
  | nil => exact (List.append_nil _).symm
  | cons x l ih => rw [visitAll_cons, ih, record, List.append_assoc, List.singleton_append]

end Visitors

/-! ### Operations -/

section Operations

variable {ε κ ρ σ τ : Type}

/-- The answers to some calls, and the state behind them. -/
def outcomes (exec : κ → σ → ρ × σ) : List κ → σ → List ρ × σ
  | [], s => ([], s)
  | c :: cs, s =>
      let (r, s) := exec c s
      let (rs, s) := outcomes exec cs s
      (r :: rs, s)

/-- The same where a call can fail. -/
def run (exec : κ → σ → Except ε (ρ × σ)) : List κ → σ → Except ε (List ρ × σ)
  | [], s => .ok ([], s)
  | c :: cs, s => do
      let (r, s) ← exec c s
      let (rs, s) ← run exec cs s
      .ok (r :: rs, s)

/-- **What every call keeps, a sequence of calls keeps.** -/
theorem outcomes_invariant {exec : κ → σ → ρ × σ} {P : σ → Prop}
    (hstep : ∀ c s, P s → P (exec c s).2) {s : σ} (hs : P s) (cs : List κ) :
    P (outcomes exec cs s).2 := by
  induction cs generalizing s with
  | nil => exact hs
  | cons c cs ih => exact ih (hstep c s hs)

/-- **Simulation.** -/
theorem outcomes_eq {exec : κ → σ → ρ × σ} {spec : κ → τ → ρ × τ} {R : σ → τ → Prop}
    (hstep : ∀ c s t, R s t → (exec c s).1 = (spec c t).1 ∧ R (exec c s).2 (spec c t).2)
    {s : σ} {t : τ} (h : R s t) (cs : List κ) :
    (outcomes exec cs s).1 = (outcomes spec cs t).1 := by
  induction cs generalizing s t with
  | nil => rfl
  | cons c cs ih =>
      obtain ⟨hanswer, hnext⟩ := hstep c s t h
      exact congrArg₂ List.cons hanswer (ih hnext)

/-- Simulation by calls that can fail, and do not. -/
theorem run_eq_outcomes {exec : κ → σ → Except ε (ρ × σ)} {κ' : Type} {call : κ → κ'}
    {spec : κ' → τ → ρ × τ} {R : σ → τ → Prop}
    (hstep : ∀ c s t, R s t →
      ∃ s', exec c s = .ok ((spec (call c) t).1, s') ∧ R s' (spec (call c) t).2)
    {s : σ} {t : τ} (h : R s t) (cs : List κ) :
    ∃ s', run exec cs s = .ok ((outcomes spec (cs.map call) t).1, s') ∧
      R s' (outcomes spec (cs.map call) t).2 := by
  induction cs generalizing s t with
  | nil => exact ⟨s, rfl, h⟩
  | cons c cs ih =>
      obtain ⟨s₁, hexec, hnext⟩ := hstep c s t h
      obtain ⟨s₂, hrun, hend⟩ := ih hnext
      refine ⟨s₂, ?_, hend⟩
      rw [run, hexec]
      show (run exec cs s₁ >>= _) = _
      rw [hrun]
      rfl

/-- Two results match: both calls fail in the same way, or they answer the same
and leave related states. -/
def Matches (R : σ → τ → Prop) : Except ε (ρ × σ) → Except ε (ρ × τ) → Prop
  | .ok (r, s), .ok (r', t) => r = r' ∧ R s t
  | .error e, .error e' => e = e'
  | _, _ => False

/-- What follows matching results matches if it does from related states. -/
theorem Matches.bind {ρ' σ' τ' : Type} {R : σ → τ → Prop} {R' : σ' → τ' → Prop}
    {x : Except ε (ρ × σ)} {y : Except ε (ρ × τ)} (h : Matches R x y)
    {f : ρ × σ → Except ε (ρ' × σ')} {g : ρ × τ → Except ε (ρ' × τ')}
    (hnext : ∀ r s t, R s t → Matches R' (f (r, s)) (g (r, t))) : Matches R' (x >>= f) (y >>= g) := by
  rcases x with e | ⟨r, s⟩ <;> rcases y with e' | ⟨r', t⟩
  · exact h
  · exact h.elim
  · exact h.elim
  · obtain ⟨rfl, hst⟩ := h
    exact hnext r s t hst

/-- Where the first does not fail, nor does the second. -/
theorem Matches.of_ok {R : σ → τ → Prop} {x : Except ε (ρ × σ)} {y : Except ε (ρ × τ)}
    (h : Matches R x y) {r : ρ} {s : σ} (hx : x = .ok (r, s)) : ∃ t, y = .ok (r, t) ∧ R s t := by
  subst hx
  rcases y with e | ⟨r', t⟩
  · exact h.elim
  · obtain ⟨rfl, hst⟩ := h
    exact ⟨t, rfl, hst⟩

theorem Matches.of_ok_right {R : σ → τ → Prop} {x : Except ε (ρ × σ)} {y : Except ε (ρ × τ)}
    (h : Matches R x y) {r : ρ} {t : τ} (hy : y = .ok (r, t)) : ∃ s, x = .ok (r, s) ∧ R s t := by
  subst hy
  rcases x with e | ⟨r', s⟩
  · exact h.elim
  · obtain ⟨rfl, hst⟩ := h
    exact ⟨s, rfl, hst⟩

/-- Simulation by calls that can fail, in the same way. -/
theorem run_matches {exec : κ → σ → Except ε (ρ × σ)} {spec : κ → τ → Except ε (ρ × τ)}
    {R : σ → τ → Prop} (hstep : ∀ c s t, R s t → Matches R (exec c s) (spec c t))
    {s : σ} {t : τ} (h : R s t) (cs : List κ) : Matches R (run exec cs s) (run spec cs t) := by
  induction cs generalizing s t with
  | nil => exact ⟨rfl, h⟩
  | cons c cs ih =>
      refine (hstep c s t h).bind fun r s₁ t₁ h₁ => ?_
      exact (ih h₁).bind fun rs s₂ t₂ h₂ => ⟨rfl, h₂⟩

end Operations

end Calls
