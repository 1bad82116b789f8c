/-
CodeSnippet/Transition.lean

Transition systems.  A system is given by the states it can start in and a step
relation.  Interleavings of several parties are systems whose step relation has
one constructor for each party's step.

Main results:
  * `Reachable.invariant` — what holds initially and is kept by every step holds
    in every reachable state.
  * `Reachable.refinement` — a mapping of states under which every step is a
    step of an abstract system, or no step, maps reachable states to reachable
    states.
  * `Fifo.conservation` — in a first-in first-out channel, what was received,
    followed by what is queued, is what was sent.
  * `EventSystem.invariant` — the invariant rule for systems whose steps are
    events, in the runs whose events all meet a condition.
-/
import Mathlib

namespace Transition

variable {σ τ : Type*}

/-- A transition system on the states `σ`. -/
structure System (σ : Type*) where
  init : σ → Prop
  step : σ → σ → Prop

/-- The states some finite run leads to. -/
inductive Reachable (S : System σ) : σ → Prop
  | init {s : σ} : S.init s → Reachable S s
  | step {s t : σ} : Reachable S s → S.step s t → Reachable S t

/-- **Invariant rule.** -/
theorem Reachable.invariant {S : System σ} {P : σ → Prop} (hinit : ∀ s, S.init s → P s)
    (hstep : ∀ s t, P s → S.step s t → P t) {s : σ} (h : Reachable S s) : P s := by
  induction h with
  | init h => exact hinit _ h
  | step _ hst ih => exact hstep _ _ ih hst

/-- **Refinement rule.** -/
theorem Reachable.refinement {S : System σ} {A : System τ} (abs : σ → τ)
    (hinit : ∀ s, S.init s → A.init (abs s))
    (hstep : ∀ s t, S.step s t → abs t = abs s ∨ A.step (abs s) (abs t))
    {s : σ} (h : Reachable S s) : Reachable A (abs s) := by
  induction h with
  | init h => exact .init (hinit _ h)
  | step _ hst ih =>
      rcases hstep _ _ hst with e | habs
      · rw [e]
        exact ih
      · exact ih.step habs

/-! ### First-in first-out channels -/

/-- A channel for items of type `α`, with what went in and what came out. -/
structure Fifo (α : Type*) where
  queue : List α
  sent : List α
  received : List α

namespace Fifo

variable {α : Type*}

/-- Some items go in at the end, or some come out at the front. -/
inductive Step : Fifo α → Fifo α → Prop
  | put (c : Fifo α) (l : List α) :
      Step c { c with queue := c.queue ++ l, sent := c.sent ++ l }
  | get (c : Fifo α) (l rest : List α) (h : c.queue = l ++ rest) :
      Step c { c with queue := rest, received := c.received ++ l }

/-- The channel that starts empty. -/
def system (α : Type*) : System (Fifo α) where
  init := fun c => c = ⟨[], [], []⟩
  step := Step

/-- **Nothing is lost, duplicated or reordered.** -/
theorem conservation {c : Fifo α} (h : Reachable (system α) c) :
    c.received ++ c.queue = c.sent := by
  refine h.invariant (P := fun c => c.received ++ c.queue = c.sent) ?_ ?_
  · rintro _ rfl
    rfl
  · intro c d ih hstep
    cases hstep with
    | put l =>
        show c.received ++ (c.queue ++ l) = c.sent ++ l
        rw [← List.append_assoc, ih]
    | get l rest hqueue =>
        show c.received ++ l ++ rest = c.sent
        rw [← ih, hqueue, List.append_assoc]

end Fifo

/-! ### Systems driven by events -/

/-- A system that takes one event after the other.  `take` is `none` where an
event cannot happen; what the state does not determine is part of the event. -/
structure EventSystem (σ ε : Type*) where
  init : σ → Prop
  take : σ → ε → Option σ

namespace EventSystem

variable {ε : Type*} (E : EventSystem σ ε)

/-- The runs in which every event meets `ok` in the state before it. -/
def under (ok : σ → ε → Prop) : System σ where
  init := E.init
  step := fun s t => ∃ e, ok s e ∧ E.take s e = some t

/-- All runs. -/
def system : System σ := E.under fun _ _ => True

/-- The events of a list, one after the other. -/
def run : σ → List ε → Option σ
  | s, [] => some s
  | s, e :: es => (E.take s e).bind fun t => run t es

/-- The same, as long as every event meets `ok`. -/
def runUnder (ok : σ → ε → Prop) [∀ s e, Decidable (ok s e)] : σ → List ε → Option σ
  | s, [] => some s
  | s, e :: es => if ok s e then (E.take s e).bind fun t => runUnder ok t es else none

variable {E}

/-- **Invariant rule** for the runs under a condition. -/
theorem invariant {ok : σ → ε → Prop} {P : σ → Prop} (hinit : ∀ s, E.init s → P s)
    (hstep : ∀ s e t, P s → ok s e → E.take s e = some t → P t) {s : σ}
    (h : Reachable (E.under ok) s) : P s := by
  apply h.invariant hinit
  intro s t hs hst
  obtain ⟨e, hok, he⟩ := hst
  exact hstep s e t hs hok he

theorem reachable_run {ok : σ → ε → Prop} {s t : σ} (hs : Reachable (E.under ok) s)
    {es : List ε} (hok : ∀ e ∈ es, ∀ u, ok u e) (h : E.run s es = some t) :
    Reachable (E.under ok) t := by
  induction es generalizing s with
  | nil =>
      cases h
      exact hs
  | cons e es ih =>
      obtain ⟨u, he, hrest⟩ := Option.bind_eq_some_iff.mp h
      rw [List.forall_mem_cons] at hok
      exact ih (hs.step ⟨e, hok.1 s, he⟩) hok.2 hrest

theorem reachable_runUnder {ok : σ → ε → Prop} [∀ s e, Decidable (ok s e)] {s t : σ}
    (hs : Reachable (E.under ok) s) {es : List ε} (h : E.runUnder ok s es = some t) :
    Reachable (E.under ok) t := by
  induction es generalizing s with
  | nil =>
      cases h
      exact hs
  | cons e es ih =>
      obtain ⟨hok, h⟩ := Option.ite_none_right_eq_some.mp h
      obtain ⟨u, he, hrest⟩ := Option.bind_eq_some_iff.mp h
      exact ih (hs.step ⟨e, hok, he⟩) hrest

theorem run_cons {s t u : σ} {e : ε} {es : List ε} (h : E.take s e = some t)
    (h' : E.run t es = some u) : E.run s (e :: es) = some u := by
  show (E.take s e).bind _ = _
  rw [h, Option.bind_some]
  exact h'

theorem run_append {s t u : σ} {es fs : List ε} (h : E.run s es = some t)
    (h' : E.run t fs = some u) : E.run s (es ++ fs) = some u := by
  induction es generalizing s with
  | nil =>
      cases h
      exact h'
  | cons e es ih =>
      obtain ⟨v, he, hrest⟩ := Option.bind_eq_some_iff.mp h
      exact run_cons he (ih hrest)

/-- A run splits at any event. -/
theorem run_append_inv {s u : σ} {es fs : List ε} (h : E.run s (es ++ fs) = some u) :
    ∃ t, E.run s es = some t ∧ E.run t fs = some u := by
  induction es generalizing s with
  | nil => exact ⟨s, rfl, h⟩
  | cons e es ih =>
      obtain ⟨v, he, hrest⟩ := Option.bind_eq_some_iff.mp h
      obtain ⟨t, hes, hfs⟩ := ih hrest
      exact ⟨t, run_cons he hes, hfs⟩

end EventSystem

end Transition
