/-
CodeSnippet/CompleteUafFree.lean

The memory of a `test_work` in src/kernel_module/completion/complete-uaf.c.

The thread frees it whatever the reader does.  A reader that a signal has let
out of `wait_for_completion_killable` has still to exchange the field, and
nothing keeps the thread from being faster.

Main results:
  * `freedOnce_exact` — every `test_work` is freed once and left alone
    afterwards exactly as long as no thread frees it under such a reader.
-/
import CodeSnippet.CompleteUafDone

namespace CodeSnippet.CompleteUaf

open Transition

variable {ι : Type}

/-- The `test_work` of a call is freed at most once, never used afterwards, and
freed when the reader and the thread are through. -/
structure ShowCall.FreedOnce (c : ShowCall ι) : Prop where
  single : c.allocs ≤ 1
  once : c.frees ≤ c.allocs
  untouched : c.late = false
  freed : c.pc = .returned → c.thread = .notCreated ∨ c.thread = .exited → c.frees = c.allocs

/-- A thread does not free the `test_work` while its reader is about to
exchange the field. -/
def UafState.FreesLast (s : UafState ι) : UafEvent ι → Prop
  | .kfree i => (s.calls i).pc ≠ .xchg
  | _ => True

/-- What holds besides `Safe` as long as threads free last. -/
structure ShowCall.Orderly (i : ι) (c : ShowCall ι) (w : TestWork ι) : Prop where
  safe : c.Safe i w
  untouched : c.late = false
  unborn : c.pc = .kzalloc → c.allocs = 0 ∧ c.frees = 0
  owned : c.Owns → c.allocs = 1 ∧ c.frees = 0
  freed : ¬ c.Owns → c.frees = c.allocs ∧ c.allocs ≤ 1
  filled : c.pc = .kthreadRun → w.complete = some i
  /-- The pointer is still there unless the reader left with it. -/
  first : c.thread = .killPid ∨ c.thread = .xchg → w.complete = some i ∨ c.pc = .returned
  second : c.thread = .complete none → c.pc = .returned
  third : c.thread = .kfree → c.done = true ∨ c.pc = .returned
  /-- A reader that outlives its thread finds its completion done. -/
  last : c.thread = .exited → c.pc ≠ .xchg ∧ (c.pc = .waiting → c.done = true)

theorem ShowCall.Orderly.freedOnce {i : ι} {c : ShowCall ι} {w : TestWork ι} (h : c.Orderly i w) :
    c.FreedOnce := by
  by_cases hown : c.Owns
  · obtain ⟨hallocs, hfrees⟩ := h.owned hown
    refine ⟨hallocs.le, by rw [hfrees]; exact Nat.zero_le _, h.untouched, ?_⟩
    intro hpc hthread
    refine absurd hown ?_
    rcases hthread with e | e <;> simp [ShowCall.Owns, hpc, e]
  · obtain ⟨hfrees, hallocs⟩ := h.freed hown
    exact ⟨hallocs, hfrees.le, h.untouched, fun _ _ => hfrees⟩

theorem ShowCall.orderly_ownOnly : OwnOnly (@ShowCall.Orderly ι) := by
  intro i c w w' hown h
  refine ⟨safe_ownOnly i c w w' hown h.safe, h.untouched, h.unborn, h.owned, h.freed, ?_, ?_,
    h.second, h.third, h.last⟩
  · intro e
    exact absurd (.inr (.inl e)) hown
  · intro hthread
    exact absurd (.of_first hthread) hown

section Steps

variable {i : ι} {c : ShowCall ι} {w : TestWork ι}

/-- A reader that is about to exchange the field has its `test_work` still. -/
theorem ShowCall.Orderly.owns_of_xchg (h : c.Orderly i w) (hpc : c.pc = .xchg) : c.Owns := by
  cases e : c.thread with
  | notCreated =>
      have hbefore := (h.safe.before e).2
      simp [hpc] at hbefore
  | killPid => exact .killPid e
  | xchg => exact .threadXchg e
  | complete comp => exact .complete e
  | kfree => exact .kfree e
  | exited => exact absurd hpc (h.last e).1

/-- An exchange by an owner is not late. -/
theorem ShowCall.Orderly.exchanged (h : c.Orderly i w) (hown : c.Owns) : c.exchanged = c := by
  obtain ⟨-, hfrees⟩ := h.owned hown
  have hlate : (c.late || decide (0 < c.frees)) = c.late := by simp [hfrees]
  rw [ShowCall.exchanged, hlate]

theorem ShowCall.Orderly.enomem (h : c.Orderly i w) (hpc : c.pc = .kzalloc) :
    ShowCall.Orderly i { c with pc := .returned } w := by
  have hthread := h.safe.notCreated (.inl hpc)
  obtain ⟨hallocs, hfrees⟩ := h.unborn hpc
  have huntouched := h.untouched
  refine ⟨h.safe.enomem hpc, ?_, ?_, ?_, ?_, ?_, ?_, ?_, ?_, ?_⟩ <;>
    simp [hthread, hallocs, hfrees, huntouched, ShowCall.Owns]

theorem ShowCall.Orderly.kzalloc (h : c.Orderly i w) (hpc : c.pc = .kzalloc) (a : ℕ) :
    ShowCall.Orderly i { c with pc := .fill, workdata := a, allocs := c.allocs + 1 }
      ⟨true, none, none⟩ := by
  have hthread := h.safe.notCreated (.inl hpc)
  obtain ⟨hallocs, hfrees⟩ := h.unborn hpc
  have huntouched := h.untouched
  refine ⟨h.safe.kzalloc hpc a, ?_, ?_, ?_, ?_, ?_, ?_, ?_, ?_, ?_⟩ <;>
    simp [hthread, hallocs, hfrees, huntouched, ShowCall.Owns]

theorem ShowCall.Orderly.fill (h : c.Orderly i w) (hpc : c.pc = .fill) :
    ShowCall.Orderly i { c with pc := .kthreadRun }
      { w with complete := some i, callerPid := some i } := by
  have hthread := h.safe.notCreated (.inr (.inl hpc))
  obtain ⟨hallocs, hfrees⟩ := h.owned (.fill hpc)
  have huntouched := h.untouched
  refine ⟨h.safe.fill hpc, ?_, ?_, ?_, ?_, ?_, ?_, ?_, ?_, ?_⟩ <;>
    simp [hthread, hallocs, hfrees, huntouched, ShowCall.Owns]

theorem ShowCall.Orderly.kthreadRun (h : c.Orderly i w) (hpc : c.pc = .kthreadRun) :
    ShowCall.Orderly i { c with pc := .waiting, thread := .killPid } w := by
  obtain ⟨hallocs, hfrees⟩ := h.owned (.kthreadRun hpc)
  have huntouched := h.untouched
  have hfilled := h.filled hpc
  refine ⟨h.safe.kthreadRun hpc, ?_, ?_, ?_, ?_, ?_, ?_, ?_, ?_, ?_⟩ <;>
    simp [hallocs, hfrees, huntouched, hfilled, ShowCall.Owns]

theorem ShowCall.Orderly.notRun (h : c.Orderly i w) (hpc : c.pc = .kthreadRun) :
    ShowCall.Orderly i { c with pc := .returned, frees := c.frees + 1 }
      { w with live := false } := by
  have hthread := h.safe.notCreated (.inr (.inr hpc))
  obtain ⟨hallocs, hfrees⟩ := h.owned (.kthreadRun hpc)
  have huntouched := h.untouched
  refine ⟨h.safe.notRun hpc, ?_, ?_, ?_, ?_, ?_, ?_, ?_, ?_, ?_⟩ <;>
    simp [hthread, hallocs, hfrees, huntouched, ShowCall.Owns]

/-- The reader goes on to `pc`, after `kthread_run`. -/
theorem ShowCall.Orderly.goOn (h : c.Orderly i w) (hpc : c.pc = .waiting ∨ c.pc = .fixWait)
    {pc : ShowPc} (hnext : pc = .returned ∨ pc = .xchg ∧ c.pc = .waiting ∧ c.done = false)
    (hsafe : ShowCall.Safe i { c with pc := pc } w) : ShowCall.Orderly i { c with pc := pc } w := by
  have hfill : pc ≠ .fill := by rcases hnext with rfl | ⟨rfl, -⟩ <;> simp
  have hrun : pc ≠ .kthreadRun := by rcases hnext with rfl | ⟨rfl, -⟩ <;> simp
  have hleft : c.pc ≠ .returned := by rcases hpc with e | e <;> simp [e]
  refine ⟨hsafe, h.untouched, ?_, ?_, ?_, ?_, ?_, ?_, ?_, ?_⟩
  · rintro rfl
    simp at hnext
  · intro hown
    exact h.owned (hown.of_thread rfl hfill hrun)
  · intro hown
    apply h.freed
    intro hown'
    refine hown (hown'.of_thread rfl ?_ ?_)
    all_goals rcases hpc with e | e <;> simp [e]
  · intro e
    exact absurd e hrun
  · intro hthread
    exact .inl ((h.first hthread).resolve_right hleft)
  · intro hthread
    exact absurd (h.second hthread) hleft
  · intro hthread
    exact .inl ((h.third hthread).resolve_right hleft)
  · intro hthread
    rcases hnext with rfl | ⟨rfl, e, hdone⟩
    · simp
    · -- the thread is gone, so the completion is done
      have hdone' := (h.last hthread).2 e
      rw [hdone] at hdone'
      cases hdone'

/-- The exchange of a reader. -/
theorem ShowCall.Orderly.showXchg (h : c.Orderly i w) (hpc : c.pc = .xchg) :
    ShowCall.Orderly i
      { c.exchanged with pc := if w.complete.isNone && true then .fixWait else .returned }
      { w with complete := none } := by
  have hown := h.owns_of_xchg hpc
  have hsafe := h.safe.showXchg hpc
  rw [h.exchanged hown] at hsafe ⊢
  obtain ⟨hallocs, hfrees⟩ := h.owned hown
  have hleft : c.pc ≠ .returned := by simp [hpc]
  refine ⟨hsafe, h.untouched, ?_, fun _ => ⟨hallocs, hfrees⟩, ?_, ?_, ?_, ?_, ?_, ?_⟩
  · simp only
    split <;> simp
  · intro hgone
    exact (hgone (hown.of_thread rfl (by simp [hpc]) (by simp [hpc]))).elim
  · simp only
    split <;> simp
  · intro hthread
    right
    rw [(h.first hthread).resolve_right hleft]
    rfl
  · intro hthread
    exact absurd (h.second hthread) hleft
  · intro hthread
    exact .inl ((h.third hthread).resolve_right hleft)
  · intro hthread
    exact absurd hpc (h.last hthread).1

theorem ShowCall.Orderly.killPid (h : c.Orderly i w) (hthread : c.thread = .killPid) :
    ShowCall.Orderly i { c with thread := .xchg } w := by
  have howned := h.owned (.killPid hthread)
  refine ⟨h.safe.killPid hthread, h.untouched, h.unborn, fun _ => howned, ?_, h.filled,
    fun _ => h.first (.inl hthread), by simp, by simp, by simp⟩
  intro hgone
  exact absurd (.threadXchg rfl) hgone

theorem ShowCall.Orderly.threadXchg (h : c.Orderly i w) (hthread : c.thread = .xchg) :
    ShowCall.Orderly i { c.exchanged with thread := .complete w.complete }
      { w with complete := none } := by
  have hown : c.Owns := .threadXchg hthread
  have hsafe := h.safe.threadXchg hthread
  rw [h.exchanged hown] at hsafe ⊢
  have hafter := h.safe.after (by rw [hthread]; simp)
  refine ⟨hsafe, h.untouched, h.unborn, fun _ => h.owned hown, ?_, ?_, by simp, ?_, by simp,
    by simp⟩
  · intro hgone
    exact absurd (.complete rfl) hgone
  · intro e
    simp [show c.pc = .kthreadRun from e] at hafter
  · intro e
    have hnone : w.complete = none := CompletionPc.complete.inj e
    apply (h.first (.inr hthread)).resolve_left
    rw [hnone]
    simp

/-- `complete`, when there is a pointer, and the step past it. -/
theorem ShowCall.Orderly.complete (h : c.Orderly i w) {comp : Option ι}
    (hthread : c.thread = .complete comp) {done : Bool}
    (hdone : done = true ∨ comp = none) :
    ShowCall.Orderly i { c with done := done, thread := .kfree } w := by
  have hown : c.Owns := .complete hthread
  have hsafe := h.safe.kfreeNext (by rw [hthread]; simp) hown done
  refine ⟨hsafe, h.untouched, h.unborn, fun _ => h.owned hown, ?_, h.filled, by simp, by simp, ?_,
    by simp⟩
  · intro hgone
    exact absurd (.kfree rfl) hgone
  · intro _
    rcases hdone with e | rfl
    · exact .inl e
    · exact .inr (h.second hthread)

/-- The thread frees last. -/
theorem ShowCall.Orderly.kfree (h : c.Orderly i w) (hthread : c.thread = .kfree)
    (hlast : c.pc ≠ .xchg) :
    ShowCall.Orderly i { c with thread := .exited, frees := c.frees + 1 }
      { w with live := false } := by
  have hown : c.Owns := .kfree hthread
  obtain ⟨hallocs, hfrees⟩ := h.owned hown
  have hafter := h.safe.after (by rw [hthread]; simp)
  refine ⟨h.safe.kfree hthread, h.untouched, ?_, ?_, ?_, ?_, by simp, by simp, by simp, ?_⟩
  · intro e
    simp [show c.pc = .kzalloc from e] at hafter
  · intro hown'
    rcases hafter with e | e | e | e <;> simp [ShowCall.Owns, e] at hown'
  · intro _
    simp [hallocs, hfrees]
  · intro e
    simp [show c.pc = .kthreadRun from e] at hafter
  · intro _
    refine ⟨hlast, ?_⟩
    intro e
    apply (h.third hthread).resolve_right
    simp [show c.pc = .waiting from e]

theorem ShowCall.Orderly.killed (h : c.Orderly i w) :
    ShowCall.Orderly i { c with killed := true } w :=
  ⟨h.safe.killed, h.untouched, h.unborn, h.owned, h.freed, h.filled, h.first, h.second, h.third,
    h.last⟩

end Steps

theorem ShowCall.orderly_kept : Kept (@ShowCall.Orderly ι) fun c => c.pc ≠ .xchg where
  ownOnly := ShowCall.orderly_ownOnly
  live := fun h hown => (h.safe.own hown).1
  enomem := fun h hpc => h.enomem hpc
  kzalloc := fun a h hpc => h.kzalloc hpc a
  fill := fun h hpc => h.fill hpc
  kthreadRun := fun h hpc => h.kthreadRun hpc
  notRun := fun h hpc => h.notRun hpc
  waitReturns := fun h hpc hdone => h.goOn hpc (.inl rfl) (h.safe.waitReturns hdone)
  waitKilled := fun h hpc hdone =>
    h.goOn (.inl hpc) (.inr ⟨rfl, hpc, hdone⟩) (h.safe.waitKilled hpc)
  showXchg := fun h hpc => h.showXchg hpc
  -- no reader exchanges memory that is not its own any more
  stray := fun h hpc hown _ => absurd (h.owns_of_xchg hpc) hown
  killPid := fun h hthread => h.killPid hthread
  threadXchg := fun h hthread => h.threadXchg hthread
  own := fun h hthread => ((h.safe.second _ hthread).2 _ rfl).1
  complete := by
    intro i c w comp h hthread
    apply h.complete hthread
    cases comp with
    | none => exact .inr rfl
    | some j => exact .inl (Bool.or_true c.done)
  kfree := fun h hthread hlast => h.kfree hthread hlast
  killed := fun h => h.killed

variable [DecidableEq ι]

/-- In every run whose threads free last. -/
theorem orderly_of_reachable {s : UafState ι}
    (h : Reachable ((completeUaf ι true).under UafState.FreesLast) s) :
    s.All ShowCall.Orderly := by
  refine EventSystem.invariant (P := UafState.All ShowCall.Orderly) ?_ ?_ h
  · intro s hinit
    refine ⟨fun i => ?_, fun i j _ hi => ?_⟩
    · obtain ⟨hpc, hthread, hdone, hallocs, hfrees, hlate⟩ := hinit i
      constructor
      · constructor <;> simp [hpc, hthread, hdone, ShowCall.Owns]
      all_goals simp [hpc, hthread, hallocs, hfrees, hlate, ShowCall.Owns]
    · obtain ⟨hpc, hthread, -⟩ := hinit i
      simp [hpc, hthread, ShowCall.Owns] at hi
  · intro s e t hs hok ht
    apply ShowCall.orderly_kept.take hs ht
    rintro i rfl
    exact hok

/-- A reader that exchanges a freed `test_work` is late. -/
theorem UafState.exists_late {t : UafState ι} {i : ι} (hpc : (t.calls i).pc = .xchg)
    (hfrees : 0 < (t.calls i).frees) :
    ∃ u, t.take true (.showXchg i) = some u ∧ (u.calls i).late = true := by
  refine ⟨_, if_pos hpc, ?_⟩
  simp [put, ShowCall.exchanged, hfrees]

/-- **Every `test_work` is freed once and left alone afterwards exactly while
threads free last.**  In every run in which no thread frees a `test_work` whose
reader is about to exchange the field; and once a thread has done so, the
reader's exchange is late. -/
theorem freedOnce_exact {s : UafState ι}
    (h : Reachable ((completeUaf ι true).under UafState.FreesLast) s) :
    (∀ i, (s.calls i).FreedOnce) ∧ ∀ e t, s.take true e = some t → ¬ s.FreesLast e →
      ∃ es u, (completeUaf ι true).run t es = some u ∧ ¬ ∀ i, (u.calls i).FreedOnce := by
  have hs := orderly_of_reachable h
  refine ⟨fun i => (hs.each i).freedOnce, ?_⟩
  intro e t ht hok
  cases e with
  | kfree i =>
      have hpc : (s.calls i).pc = .xchg := not_not.mp hok
      simp only [UafState.take] at ht
      split at ht
      · cases ht
        have hself : (s.put i { s.calls i with thread := .exited, frees := (s.calls i).frees + 1 }
            { s.work i with live := false }).calls i =
            { s.calls i with thread := .exited, frees := (s.calls i).frees + 1 } :=
          Function.update_self ..
        obtain ⟨u, hu, hlate⟩ := UafState.exists_late (i := i) (by rw [hself]; exact hpc)
          (by rw [hself]; exact Nat.succ_pos _)
        refine ⟨[.showXchg i], u, Option.bind_eq_some_iff.mpr ⟨u, hu, rfl⟩, ?_⟩
        intro hfreed
        rw [(hfreed i).untouched] at hlate
        cases hlate
      · cases ht
  | _ => exact absurd trivial hok

instance (s : UafState ℕ) (e : UafEvent ℕ) : Decidable (s.FreesLast e) :=
  match e with
  | .kfree i => inferInstanceAs (Decidable ((s.calls i).pc ≠ .xchg))
  | .kzalloc _ _ | .fill _ | .kthreadRun _ _ | .waitReturns _ | .waitKilled _ | .showXchg _
  | .fixWaitReturns _ | .killPid _ | .threadXchg _ | .complete _ | .sigkill _
  | .reuse _ _ _ => .isTrue trivial

/-- A reader that is killed, exchanges the field after its thread and waits for it; then
the thread frees. -/
def wokenRun : List (UafEvent ℕ) :=
  [.kzalloc 0 (some 8), .fill 0, .kthreadRun 0 true, .killPid 0, .threadXchg 0, .waitKilled 0,
    .showXchg 0, .complete 0, .fixWaitReturns 0, .kfree 0]

theorem freedOnce_exact_woken :
    ∃ s, (completeUaf ℕ true).runUnder UafState.FreesLast enteredCalls wokenRun = some s ∧
      (s.calls 0).frees = 1 ∧ ∀ i, (s.calls i).FreedOnce := by
  have hrun : (completeUaf ℕ true).runUnder UafState.FreesLast enteredCalls wokenRun =
      some _ := rfl
  exact ⟨_, hrun, rfl,
    (freedOnce_exact (EventSystem.reachable_runUnder (.init enteredCalls_init) hrun)).1⟩

/-- A reader that is killed and delayed; its thread frees first. -/
theorem not_freedOnce :
    ¬ ∀ s, Reachable (completeUaf ℕ true).system s → ∀ i, (s.calls i).FreedOnce := by
  intro h
  have hrun : (completeUaf ℕ true).run enteredCalls
      [.kzalloc 0 (some 8), .fill 0, .kthreadRun 0 true, .killPid 0, .waitKilled 0, .threadXchg 0,
        .complete 0, .kfree 0, .showXchg 0] = some _ := rfl
  have hfreed := h _ (EventSystem.reachable_run (.init enteredCalls_init) (fun _ _ _ => trivial) hrun) 0
  exact absurd hfreed.untouched (by decide)

end CodeSnippet.CompleteUaf
