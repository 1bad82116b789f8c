/-
CodeSnippet/CpuhpThread.lean

The control thread of src/kernel_module/qos/cpuhp-qos.c among the writers of
the bounds and the callbacks of CPU hotplug.

A section under the spin lock is one step, and so are `set_current_state`,
`wake_up_process` and `schedule`.  The thread marks itself as going to sleep
before it looks at the counters, so a wake-up between the look and `schedule`
is not lost: it takes the mark away, and `schedule` returns at once.

Main results:
  * `no_lost_wakeup` — while the thread sleeps there is nothing to adjust, or a
    writer is about to wake it.
-/
import CodeSnippet.CpuhpQos
import CodeSnippet.Transition

namespace CodeSnippet

open Transition

/-! ### The control thread -/

inductive TaskState
  | running | interruptible
  deriving DecidableEq

/-- The call that `do_core_ctl` makes after it dropped the lock. -/
inductive CoreCtl
  | offlineCore (cpu : UInt32)
  | onlineCore (cpu : UInt32)
  | nothing
  deriving DecidableEq

/-- The section of `do_core_ctl` under the lock, and the choice it leads to. -/
def pickCore (stat : CpuhpStatus) : CoreCtl :=
  let min := stat.min
  let max := stat.max
  let online := stat.onlineCpus
  if online > max then .offlineCore (online - 1)
  else if online < min then .onlineCore online
  else .nothing

def CoreCtl.call (m : CpuhpMachine) : CoreCtl → CpuhpMachine
  | .offlineCore cpu => coreCtlOfflineCore m cpu
  | .onlineCore cpu => coreCtlOnlineCore m cpu
  | .nothing => m

/-- Undisturbed, `do_core_ctl` is the choice followed by the call. -/
theorem doCoreCtl_eq (m : CpuhpMachine) : doCoreCtl m = (pickCore m.stat).call m := by
  unfold doCoreCtl pickCore
  simp only
  split
  · rfl
  · split <;> rfl

/-- What `try_core_ctl` does next.  `asleep` is inside of `schedule`. -/
inductive CtlPc
  | setInterruptible | check | schedule | asleep | shouldStop | setRunning | doCoreCtl
  | coreCtl (c : CoreCtl)
  | exited
  deriving DecidableEq

structure HpThread where
  pc : CtlPc
  state : TaskState
  deriving DecidableEq

def wakeUpProcess (t : HpThread) : HpThread := { t with state := .running }

/-- One step of `try_core_ctl`; `stop` is the answer of `kthread_should_stop`. -/
def tryCoreCtl (stat : CpuhpStatus) (stop : Bool) (t : HpThread) : Option HpThread :=
  match t.pc with
  | .setInterruptible => some ⟨.check, .interruptible⟩
  | .check =>
      -- one section under the lock, whichever way the test goes
      if !needAdjuest stat then some { t with pc := .schedule }
      else some ⟨.doCoreCtl, .running⟩
  | .schedule =>
      match t.state with
      | .interruptible => some { t with pc := .asleep }
      | .running => some { t with pc := .shouldStop }
  | .asleep =>
      match t.state with
      | .interruptible => none
      | .running => some { t with pc := .shouldStop }
  | .shouldStop => some { t with pc := if stop then .exited else .setRunning }
  | .setRunning => some ⟨.doCoreCtl, .running⟩
  | .doCoreCtl => some { t with pc := .coreCtl (pickCore stat) }
  | .coreCtl _ => some { t with pc := .setInterruptible }
  | .exited => none

/-- The thread sleeps in `schedule` and nobody has woken it. -/
def HpThread.Asleep (t : HpThread) : Prop := t.pc = .asleep ∧ t.state = .interruptible

/-! ### Writers and callbacks -/

/-- Where a call of `cpuhp_qos_write` is: before its section under the lock,
between the section and the wake-up, or through. -/
inductive WriterPc
  | entered | stored | returned
  deriving DecidableEq

/-- The driver with its thread and the calls of `cpuhp_qos_write`, any number
of them: `ι` is the type of the calls. -/
structure CpuhpDriver (ι : Type) where
  stat : CpuhpStatus
  thread : HpThread
  writer : ι → WriterPc

inductive CpuhpEvent (ι : Type)
  | thread (stop : Bool)
  | hpOnline
  | hpOffline
  | store (i : ι) (w : QosWrite)
  | wake (i : ι)

/-- A callback: its new counters, and its wake-up inside the lock. -/
def CpuhpDriver.callback {ι : Type} (s : CpuhpDriver ι) (r : CpuhpStatus × Bool) :
    CpuhpDriver ι :=
  { s with
    stat := r.1
    thread := if r.2 then wakeUpProcess s.thread else s.thread }

variable {ι : Type} [DecidableEq ι]

def CpuhpDriver.take (s : CpuhpDriver ι) : CpuhpEvent ι → Option (CpuhpDriver ι)
  | .thread stop => (tryCoreCtl s.stat stop s.thread).map fun t => { s with thread := t }
  | .hpOnline => some (s.callback (cpufreqHpOnline s.stat))
  | .hpOffline => some (s.callback (cpufreqHpOffline s.stat))
  | .store i w =>
      if s.writer i = .entered then
        -- a refused write returns without a wake-up
        let r := cpuhpQosWrite s.stat w
        some { s with
          stat := r.2
          writer := Function.update s.writer i (if 0 ≤ r.1 then .stored else .returned) }
      else none
  | .wake i =>
      if s.writer i = .stored then
        some { s with
          thread := wakeUpProcess s.thread
          writer := Function.update s.writer i .returned }
      else none

/-- The driver when `kthread_run` has started the thread, for any counters. -/
def cpuhpDriver (ι : Type) [DecidableEq ι] : EventSystem (CpuhpDriver ι) (CpuhpEvent ι) where
  init := fun s => s.thread = ⟨.setInterruptible, .running⟩ ∧ ∀ i, s.writer i = .entered
  take := CpuhpDriver.take

/-! ### No wake-up is lost -/

/-- The thread has found nothing to adjust and goes to sleep, or sleeps. -/
def HpThread.Resting (t : HpThread) : Prop :=
  (t.pc = .schedule ∨ t.pc = .asleep) ∧ t.state = .interruptible

/-- Nothing is to be adjusted, or a writer is about to wake the thread. -/
def CpuhpDriver.Covered (s : CpuhpDriver ι) : Prop :=
  needAdjuest s.stat = false ∨ ∃ i, s.writer i = .stored

/-- The thread comes to rest only where it found nothing to adjust. -/
theorem tryCoreCtl_resting {stat : CpuhpStatus} {stop : Bool} {t u : HpThread}
    (h : tryCoreCtl stat stop t = some u) (hu : u.Resting) :
    t.Resting ∨ needAdjuest stat = false := by
  obtain ⟨hpc, hstate⟩ := hu
  cases e : t.pc with
  | check =>
      right
      simp only [tryCoreCtl, e] at h
      rcases hneed : needAdjuest stat with _ | _
      · rfl
      · -- the other branch of the section goes on to `do_core_ctl`
        rw [hneed] at h
        cases h
        simp at hpc
  | schedule =>
      left
      simp only [tryCoreCtl, e] at h
      rcases hst : t.state with _ | _
      · rw [hst] at h
        cases h
        simp at hpc
      · exact ⟨.inl e, hst⟩
  | asleep =>
      left
      simp only [tryCoreCtl, e] at h
      rcases hst : t.state with _ | _
      · rw [hst] at h
        cases h
        simp at hpc
      · exact ⟨.inr e, hst⟩
  | shouldStop =>
      simp only [tryCoreCtl, e, Option.some.injEq] at h
      subst h
      cases stop <;> simp at hpc
  | setInterruptible | setRunning | doCoreCtl | coreCtl c =>
      simp only [tryCoreCtl, e, Option.some.injEq] at h
      subst h
      simp at hpc
  | exited => simp [tryCoreCtl, e] at h

omit [DecidableEq ι] in
theorem not_resting_wakeUpProcess (t : HpThread) : ¬ (wakeUpProcess t).Resting := by
  rintro ⟨-, hstate⟩
  cases hstate

omit [DecidableEq ι] in
/-- A callback wakes the thread unless it leaves nothing to adjust. -/
theorem CpuhpDriver.callback_covered {s : CpuhpDriver ι} {r : CpuhpStatus × Bool}
    (hr : r.2 = needAdjuest r.1) (h : (s.callback r).thread.Resting) : (s.callback r).Covered := by
  rcases e : r.2 with _ | _
  · left
    exact hr.symm.trans e
  · have hwoken : (s.callback r).thread = wakeUpProcess s.thread := by
      rw [callback, e]
      rfl
    rw [hwoken] at h
    exact absurd h (not_resting_wakeUpProcess s.thread)

/-- **One step** keeps a resting thread covered. -/
theorem CpuhpDriver.take_covered {s t : CpuhpDriver ι} {e : CpuhpEvent ι}
    (hs : s.thread.Resting → s.Covered) (h : s.take e = some t) (ht : t.thread.Resting) :
    t.Covered := by
  cases e with
  | thread stop =>
      obtain ⟨u, hu, rfl⟩ := Option.map_eq_some_iff.mp h
      rcases tryCoreCtl_resting hu ht with hrest | hneed
      · exact hs hrest
      · exact .inl hneed
  | hpOnline =>
      cases h
      exact callback_covered rfl ht
  | hpOffline =>
      cases h
      exact callback_covered rfl ht
  | store i w =>
      simp only [take] at h
      split at h
      · cases h
        by_cases hret : 0 ≤ (cpuhpQosWrite s.stat w).1
        · -- the bounds may be out of reach now, but this writer will say so
          right
          refine ⟨i, ?_⟩
          simp [hret]
        · rename_i hentered
          have hsame := cpuhpQosWrite_refused hret
          rcases hs ht with hneed | ⟨j, hj⟩
          · left
            show needAdjuest (cpuhpQosWrite s.stat w).2 = false
            rw [hsame]
            exact hneed
          · right
            refine ⟨j, ?_⟩
            have hne : j ≠ i := by
              rintro rfl
              rw [hentered] at hj
              cases hj
            show Function.update s.writer i _ j = _
            rw [Function.update_of_ne hne, hj]
      · cases h
  | wake i =>
      simp only [take] at h
      split at h
      · cases h
        exact absurd ht (not_resting_wakeUpProcess s.thread)
      · cases h

/-- **No lost wake-up.**  Whatever the interleaving of writes, callbacks and
steps of the thread: when the thread sleeps in `schedule`, there is nothing to
adjust, or some writer has stored its bounds and not yet woken the thread. -/
theorem no_lost_wakeup {s : CpuhpDriver ι} (h : Reachable (cpuhpDriver ι).system s)
    (hasleep : s.thread.Asleep) : needAdjuest s.stat = false ∨ ∃ i, s.writer i = .stored := by
  have hinv : s.thread.Resting → s.Covered := by
    refine EventSystem.invariant (P := fun s => s.thread.Resting → s.Covered) ?_ ?_ h
    · rintro s ⟨hthread, -⟩ ⟨-, hstate⟩
      rw [hthread] at hstate
      cases hstate
    · intro s e t hs _ ht
      exact CpuhpDriver.take_covered hs ht
  obtain ⟨hpc, hstate⟩ := hasleep
  exact hinv ⟨.inr hpc, hstate⟩

/-- Two CPUs are online and the thread has just been started. -/
def startedDriver : CpuhpDriver ℕ := ⟨⟨0, 4, 2⟩, ⟨.setInterruptible, .running⟩, fun _ => .entered⟩

/-- The thread fell asleep, and then a writer stored the bounds 3..4. -/
theorem no_lost_wakeup_stored :
    ∃ s, (cpuhpDriver ℕ).run startedDriver
        [.thread false, .thread false, .thread false, .store 0 (writeBounds 3 4)] = some s ∧
      needAdjuest s.stat = true ∧ (needAdjuest s.stat = false ∨ ∃ i, s.writer i = .stored) := by
  refine ⟨_, rfl, rfl, ?_⟩
  have hrun : (cpuhpDriver ℕ).run startedDriver
      [.thread false, .thread false, .thread false, .store 0 (writeBounds 3 4)] = some _ := rfl
  apply no_lost_wakeup (EventSystem.reachable_run (.init ⟨rfl, fun _ => rfl⟩) _ hrun) ⟨rfl, rfl⟩
  intro e _ s
  trivial

end CodeSnippet
