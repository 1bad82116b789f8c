/-
CodeSnippet/CompleteUafDone.lean

The completions on the stacks of the readers in
src/kernel_module/completion/complete-uaf.c, with the fix on.

The exchanges decide who gets the pointer to the completion.  A reader that
gets it returns, and its thread finds NULL; a reader that gets NULL waits again,
until the thread has called `complete`.

Main results:
  * `complete_before_return` — `complete` is never called on the completion of
    a reader that has returned, whatever becomes of freed memory.
-/
import CodeSnippet.CompleteUaf

namespace CodeSnippet.CompleteUaf

open Transition

variable {ι : Type}

/-- What holds of a call, its thread and its `test_work` in every run with the
fix on. -/
structure ShowCall.Safe (i : ι) (c : ShowCall ι) (w : TestWork ι) : Prop where
  own : c.Owns → w.live = true ∧ (w.complete = none ∨ w.complete = some i)
  before : c.thread = .notCreated → c.done = false ∧
    (c.pc = .kzalloc ∨ c.pc = .fill ∨ c.pc = .kthreadRun ∨ c.pc = .returned)
  after : c.thread ≠ .notCreated →
    c.pc = .waiting ∨ c.pc = .xchg ∨ c.pc = .fixWait ∨ c.pc = .returned
  /-- Until the thread has exchanged the field, the reader leaves only with the pointer. -/
  first : c.thread = .killPid ∨ c.thread = .xchg → c.done = false ∧
    (c.pc = .fixWait ∨ c.pc = .returned → w.complete = none)
  /-- The pointer that the thread has got is its own reader's, and the reader waits. -/
  second : ∀ comp, c.thread = .complete comp → w.complete = none ∧
    ∀ j, comp = some j → j = i ∧ c.done = false ∧ c.pc ≠ .returned

theorem ShowCall.safe_ownOnly : OwnOnly (@ShowCall.Safe ι) := by
  intro i c w w' hown h
  refine ⟨fun h' => absurd h' hown, h.before, h.after, ?_, ?_⟩
  · intro hthread
    exact absurd (.of_first hthread) hown
  · intro comp e
    exact absurd (.complete e) hown

section Steps

variable {i : ι} {c : ShowCall ι} {w : TestWork ι}

/-- The thread is only created by `kthread_run`. -/
theorem ShowCall.Safe.notCreated (h : c.Safe i w)
    (hpc : c.pc = .kzalloc ∨ c.pc = .fill ∨ c.pc = .kthreadRun) : c.thread = .notCreated := by
  by_contra hthread
  have hafter := h.after hthread
  rcases hpc with e | e | e <;> simp [e] at hafter

theorem ShowCall.Safe.enomem (h : c.Safe i w) (hpc : c.pc = .kzalloc) :
    ShowCall.Safe i { c with pc := .returned } w := by
  have hthread := h.notCreated (.inl hpc)
  have hdone := (h.before hthread).1
  constructor <;> simp [hthread, hdone, ShowCall.Owns]

theorem ShowCall.Safe.kzalloc (h : c.Safe i w) (hpc : c.pc = .kzalloc) (a : ℕ) :
    ShowCall.Safe i { c with pc := .fill, workdata := a, allocs := c.allocs + 1 }
      ⟨true, none, none⟩ := by
  have hthread := h.notCreated (.inl hpc)
  have hdone := (h.before hthread).1
  constructor <;> simp [hthread, hdone]

theorem ShowCall.Safe.fill (h : c.Safe i w) (hpc : c.pc = .fill) :
    ShowCall.Safe i { c with pc := .kthreadRun }
      { w with complete := some i, callerPid := some i } := by
  have hthread := h.notCreated (.inr (.inl hpc))
  have hdone := (h.before hthread).1
  have hlive := (h.own (.fill hpc)).1
  constructor <;> simp [hthread, hdone, hlive]

theorem ShowCall.Safe.kthreadRun (h : c.Safe i w) (hpc : c.pc = .kthreadRun) :
    ShowCall.Safe i { c with pc := .waiting, thread := .killPid } w := by
  have hthread := h.notCreated (.inr (.inr hpc))
  have hdone := (h.before hthread).1
  have hown := h.own (.kthreadRun hpc)
  constructor <;> simp [hdone, hown]

theorem ShowCall.Safe.notRun (h : c.Safe i w) (hpc : c.pc = .kthreadRun) :
    ShowCall.Safe i { c with pc := .returned, frees := c.frees + 1 } { w with live := false } := by
  have hthread := h.notCreated (.inr (.inr hpc))
  have hdone := (h.before hthread).1
  constructor <;> simp [hthread, hdone, ShowCall.Owns]

/-- A reader whose completion is done returns. -/
theorem ShowCall.Safe.waitReturns (h : c.Safe i w) (hdone : c.done = true) :
    ShowCall.Safe i { c with pc := .returned } w := by
  have hcreated : c.thread ≠ .notCreated := by
    intro e
    have hbefore := (h.before e).1
    rw [hdone] at hbefore
    cases hbefore
  have hnotFirst : ¬ (c.thread = .killPid ∨ c.thread = .xchg) := by
    intro e
    have hfirst := (h.first e).1
    rw [hdone] at hfirst
    cases hfirst
  -- the thread has made its exchange, so nothing is asked of the field
  refine ⟨?_, fun e => absurd e hcreated, fun _ => .inr (.inr (.inr rfl)),
    fun e => absurd e hnotFirst, ?_⟩
  · intro hown
    exact h.own (hown.of_thread rfl (by simp) (by simp))
  · intro comp e
    obtain ⟨hcell, hcomp⟩ := h.second comp e
    refine ⟨hcell, ?_⟩
    intro j ej
    have hnotDone := (hcomp j ej).2.1
    rw [hdone] at hnotDone
    cases hnotDone

/-- A reader that is killed goes on to its exchange. -/
theorem ShowCall.Safe.waitKilled (h : c.Safe i w) (hpc : c.pc = .waiting) :
    ShowCall.Safe i { c with pc := .xchg } w := by
  have hcreated : c.thread ≠ .notCreated := by
    intro e
    have hbefore := (h.before e).2
    simp [hpc] at hbefore
  refine ⟨?_, fun e => absurd e hcreated, fun _ => .inr (.inl rfl), ?_, ?_⟩
  · intro hown
    exact h.own (hown.of_thread rfl (by simp) (by simp))
  · intro e
    exact ⟨(h.first e).1, by simp⟩
  · intro comp e
    obtain ⟨hcell, hcomp⟩ := h.second comp e
    refine ⟨hcell, ?_⟩
    intro j ej
    obtain ⟨hj, hdone, -⟩ := hcomp j ej
    exact ⟨hj, hdone, by simp⟩

/-- With the fix, a reader that exchanges NULL waits again. -/
theorem ShowCall.Safe.showXchg (h : c.Safe i w) (hpc : c.pc = .xchg) :
    ShowCall.Safe i
      { c.exchanged with pc := if w.complete.isNone && true then .fixWait else .returned }
      { w with complete := none } := by
  have hcreated : c.thread ≠ .notCreated := by
    intro e
    have hbefore := (h.before e).2
    simp [hpc] at hbefore
  refine ⟨?_, fun e => absurd e hcreated, ?_, ?_, ?_⟩
  · intro hown
    have hown' := h.own (hown.of_thread (c := c) rfl (by simp; split <;> simp)
      (by simp; split <;> simp))
    exact ⟨hown'.1, .inl rfl⟩
  · intro _
    show (if _ then _ else _) = _ ∨ _
    split <;> simp
  · intro e
    exact ⟨(h.first e).1, fun _ => rfl⟩
  · -- the thread has the pointer, so the reader finds NULL and waits
    intro comp e
    obtain ⟨hcell, hcomp⟩ := h.second comp e
    refine ⟨rfl, ?_⟩
    intro j ej
    obtain ⟨hj, hdone, -⟩ := hcomp j ej
    refine ⟨hj, hdone, ?_⟩
    simp [hcell]

/-- An exchange by another reader, of memory that now belongs to this call. -/
theorem ShowCall.Safe.cleared (h : c.Safe i w) : c.Safe i { w with complete := none } := by
  refine ⟨fun hown => ⟨(h.own hown).1, .inl rfl⟩, h.before, h.after, ?_, ?_⟩
  · intro e
    exact ⟨(h.first e).1, fun _ => rfl⟩
  · intro comp e
    exact ⟨rfl, (h.second comp e).2⟩

/-- The thread goes on to its exchange. -/
theorem ShowCall.Safe.killPid (h : c.Safe i w) (hthread : c.thread = .killPid) :
    ShowCall.Safe i { c with thread := .xchg } w := by
  have hafter := h.after (by rw [hthread]; simp)
  have hfirst := h.first (.inl hthread)
  have hown := h.own (.killPid hthread)
  exact ⟨fun _ => hown, by simp, fun _ => hafter, fun _ => hfirst, by simp⟩

/-- The thread gets the pointer only while its reader has not got it. -/
theorem ShowCall.Safe.threadXchg (h : c.Safe i w) (hthread : c.thread = .xchg) :
    ShowCall.Safe i { c.exchanged with thread := .complete w.complete }
      { w with complete := none } := by
  have hafter := h.after (by rw [hthread]; simp)
  obtain ⟨hdone, hleft⟩ := h.first (.inr hthread)
  obtain ⟨hlive, hcell⟩ := h.own (.threadXchg hthread)
  refine ⟨fun _ => ⟨hlive, .inl rfl⟩, by simp, fun _ => hafter, by simp, ?_⟩
  intro comp e
  refine ⟨rfl, ?_⟩
  rintro j rfl
  -- the field holds the reader's own completion or NULL
  have hj : w.complete = some j := CompletionPc.complete.inj e
  have hsome : w.complete = some i := hcell.resolve_left (by rw [hj]; simp)
  refine ⟨Option.some.inj (hj.symm.trans hsome), hdone, ?_⟩
  intro hpc
  have hnone := hleft (.inr hpc)
  rw [hj] at hnone
  cases hnone

/-- Once the thread is past `complete`, only the memory matters. -/
theorem ShowCall.Safe.kfreeNext (h : c.Safe i w) (hcreated : c.thread ≠ .notCreated)
    (hown : c.Owns) (done : Bool) : ShowCall.Safe i { c with done := done, thread := .kfree } w :=
  ⟨fun _ => h.own hown, by simp, fun _ => h.after hcreated, by simp, by simp⟩

theorem ShowCall.Safe.kfree (h : c.Safe i w) (hthread : c.thread = .kfree) :
    ShowCall.Safe i { c with thread := .exited, frees := c.frees + 1 } { w with live := false } := by
  have hafter := h.after (by rw [hthread]; simp)
  refine ⟨?_, by simp, fun _ => hafter, by simp, by simp⟩
  intro hown
  rcases hafter with e | e | e | e <;> simp [ShowCall.Owns, e] at hown

theorem ShowCall.Safe.killed (h : c.Safe i w) : ShowCall.Safe i { c with killed := true } w :=
  ⟨h.own, h.before, h.after, h.first, h.second⟩

end Steps

theorem ShowCall.safe_kept : Kept (@ShowCall.Safe ι) fun _ => True where
  ownOnly := ShowCall.safe_ownOnly
  live := fun h hown => (h.own hown).1
  enomem := fun h hpc => h.enomem hpc
  kzalloc := fun a h hpc => h.kzalloc hpc a
  fill := fun h hpc => h.fill hpc
  kthreadRun := fun h hpc => h.kthreadRun hpc
  notRun := fun h hpc => h.notRun hpc
  waitReturns := fun h _ hdone => h.waitReturns hdone
  waitKilled := fun h hpc _ => h.waitKilled hpc
  showXchg := fun h hpc => h.showXchg hpc
  stray := fun _ _ _ h => h.cleared
  killPid := fun h hthread => h.killPid hthread
  threadXchg := fun h hthread => h.threadXchg hthread
  own := fun h hthread => ((h.second _ hthread).2 _ rfl).1
  complete := fun h hthread => h.kfreeNext (by rw [hthread]; simp)
    (.complete hthread) _
  kfree := fun h hthread _ => h.kfree hthread
  killed := fun h => h.killed

variable [DecidableEq ι]

/-- **A completion is never touched after its owner has returned.**  With the
fix on, in every interleaving: when a thread is about to call `complete` on the
completion of a reader, that reader has not returned. -/
theorem complete_before_return {s : UafState ι} (h : Reachable (completeUaf ι true).system s)
    {i j : ι} (hcomp : (s.calls i).thread = .complete (some j)) : (s.calls j).pc ≠ .returned := by
  have hsafe : s.All ShowCall.Safe := by
    refine EventSystem.invariant (P := UafState.All ShowCall.Safe) ?_ ?_ h
    · intro s hinit
      refine ⟨fun i => ?_, fun i j _ hi => ?_⟩
      · obtain ⟨hpc, hthread, hdone, -⟩ := hinit i
        constructor <;> simp [hpc, hthread, hdone, ShowCall.Owns]
      · obtain ⟨hpc, hthread, -⟩ := hinit i
        simp [hpc, hthread, ShowCall.Owns] at hi
    · intro s e t hs _ ht
      exact ShowCall.safe_kept.take hs ht fun _ _ => trivial
  obtain ⟨-, hown⟩ := (hsafe.each i).second _ hcomp
  obtain ⟨rfl, -, hpc⟩ := hown j rfl
  exact hpc

/-- Every call before its first step, and no memory in use. -/
def enteredCalls : UafState ℕ :=
  ⟨fun _ => ⟨.kzalloc, .notCreated, 0, false, false, 0, 0, false⟩, fun _ => ⟨false, none, none⟩⟩

theorem enteredCalls_init : ∀ i, (enteredCalls.calls i).entered :=
  fun _ => ⟨rfl, rfl, rfl, rfl, rfl, rfl⟩

/-- A reader that is killed while its thread holds the pointer. -/
theorem complete_before_return_killed :
    ∃ s, (completeUaf ℕ true).run enteredCalls
        [.kzalloc 0 (some 8), .fill 0, .kthreadRun 0 true, .killPid 0, .threadXchg 0, .waitKilled 0,
          .showXchg 0] = some s ∧
      (s.calls 0).thread = .complete (some 0) ∧ (s.calls 0).pc ≠ .returned := by
  have hrun : (completeUaf ℕ true).run enteredCalls
      [.kzalloc 0 (some 8), .fill 0, .kthreadRun 0 true, .killPid 0, .threadXchg 0, .waitKilled 0,
        .showXchg 0] = some _ := rfl
  refine ⟨_, hrun, rfl, ?_⟩
  apply complete_before_return (EventSystem.reachable_run (.init enteredCalls_init) _ hrun) (i := 0)
  · rfl
  · intro _ _ _
    trivial

end CodeSnippet.CompleteUaf
