/-
CodeSnippet/UnbondTest.lean

src/kernel_module/workqueue_test/unbond_test.c on a machine whose CPUs go on- and
offline: on every CPU a timer that queues a work, a thread that queues others, a
probe that queues the last ones when the CPU goes offline, and the calls that take
all of this back when the module is unloaded, while the rest goes on.

A work, a thread and a callback do not touch what `init` still sets up, so that
`init` is one step, from `cpus_read_lock` on with the CPUs that are online there;
`remove` is a list of calls, one step each.

Main results:
  * `mem_of_stage_lt` — the order of the calls.
  * `init_good` — what holds when the module has been loaded.
-/
import CodeSnippet.Transition

namespace CodeSnippet

open Transition

namespace UnbondTest

/-! ### Source -/

def maxWorkNum : ℕ := 1
def maxKthreadWorker : ℕ := 2

/-- The works of a CPU: `works[i]`, `kworks[i]` and `koworks[i]`. -/
inductive WorkOf
  | work (i : Fin maxWorkNum)
  | kwork (i : Fin maxKthreadWorker)
  | kowork (i : Fin maxKthreadWorker)
  deriving DecidableEq

/-- The works of a CPU in the order in which `remove` cancels them. -/
def worksOf : List WorkOf :=
  (List.finRange maxWorkNum).map .work ++
    (List.finRange maxKthreadWorker).flatMap fun i => [.kwork i, .kowork i]

/-- `struct work_struct`, which is zeroed before `INIT_WORK`.  `stuck` is the pending bit
of a zeroed work that was scheduled: it stays set, and the work never runs. -/
structure Work where
  initialised : Bool
  queued : Bool
  running : Bool
  stuck : Bool
  deriving DecidableEq

/-- `struct hrtimer`, which is zeroed before `hrtimer_init`. -/
inductive HrTimer
  | zeroed
  | idle
  | started
  deriving DecidableEq

/-- `test_kthread_func`, awake or in its timeout; `failed` is an error pointer, and a
thread that has `returned` was not asked to stop. -/
inductive KThread
  | failed
  | awake
  | asleep
  | returned
  | exited
  deriving DecidableEq

/-- `struct test_entry`; `cpu` is `none` for -1, an array is false for `NULL`. -/
structure TestEntry (ι : Type) where
  cpu : Option ι
  kworks : Bool
  koworks : Bool
  timer : HrTimer
  thread : KThread
  works : WorkOf → Work

/-- The calls of `proc_workqueue_unbound_test_remove`. -/
inductive Call (ι : Type)
  | kthreadStop (cpu : ι)
  | cpuhpRemoveState
  | cancelWorkSync (cpu : ι) (w : WorkOf)
  | kretprobeExit
  | kfreeKworks (cpu : ι)
  | kfreeKoworks (cpu : ι)
  deriving DecidableEq

/-- The CPUs, those that are online when the module is loaded, and what the kernel
answers: whether `unregister_kretprobe` copes with a probe whose registration failed,
and whether a warning brings the kernel down. -/
structure Machine (ι : Type) where
  possible : List ι
  nodup : possible.Nodup
  mem_possible : ∀ c, c ∈ possible
  online : ι → Bool
  registerMyKretprobe : ℤ
  registerMyWqOfflineKretprobe : ℤ
  kzalloc : ι → Bool × Bool
  cpuhpSetupState : ℤ
  kthreadRun : ι → Bool
  unregisterKretprobe : Bool
  panicOnWarn : Bool

/-- The machine with the module.  `remaining` is what `remove` has still to call. -/
structure State (ι : Type) where
  online : ι → Bool
  entry : ι → TestEntry ι
  delaySeed : UInt32
  gCpuhpState : ℤ
  callbacks : Bool
  myKretprobe : Bool
  myWqOfflineKretprobe : Bool
  remaining : List (Call ι)
  oops : Bool

variable {ι : Type}

/-- `schedule_work` for some works.  One without `INIT_WORK` is put on no list: there is
a warning, and only the first time, since its pending bit stays set. -/
def TestEntry.scheduleWorks (e : TestEntry ι) (panicOnWarn : Bool) (p : WorkOf → Bool) :
    Option (TestEntry ι) :=
  if panicOnWarn ∧ ∃ w ∈ worksOf,
      p w ∧ (e.works w).initialised = false ∧ (e.works w).stuck = false then none
  else some { e with
    works := fun w =>
      if p w = false then e.works w
      else if (e.works w).initialised then { e.works w with queued := true }
      else { e.works w with stuck := true } }

def hrtimerFunc (panicOnWarn : Bool) (e : TestEntry ι) : Option (TestEntry ι) :=
  e.scheduleWorks panicOnWarn fun | .work _ => true | _ => false

/-- `seed & (1UL << i)` -/
def bitSet (seed : UInt32) (i : Fin maxKthreadWorker) : Bool := seed.toNat.testBit i

/-- The round of `test_kthread_func` behind the timeout, with a number for each work;
nothing where `kworks` is `NULL`. -/
def testKthreadFunc (panicOnWarn : Bool) (seeds : Fin maxKthreadWorker → UInt32)
    (e : TestEntry ι) : Option (TestEntry ι) :=
  if e.kworks = false ∧ ∃ i, bitSet (seeds i) i then none
  else { e with thread := .awake }.scheduleWorks panicOnWarn fun
    | .kwork i => bitSet (seeds i) i
    | _ => false

def wqRetHandler (panicOnWarn : Bool) (delaySeed : UInt32) (e : TestEntry ι) :
    Option (TestEntry ι) :=
  if e.koworks = false ∧ ∃ i, bitSet delaySeed i then none
  else e.scheduleWorks panicOnWarn fun
    | .kowork i => bitSet delaySeed i
    | _ => false

/-- The memory that a work is in. -/
def TestEntry.allocated (e : TestEntry ι) : WorkOf → Bool
  | .work _ => true
  | .kwork _ => e.kworks
  | .kowork _ => e.koworks

def TestEntry.setWork (e : TestEntry ι) (w : WorkOf) (work : Work) : TestEntry ι :=
  { e with works := Function.update e.works w work }

/-- `test_work_func` up to its delay. -/
def testWorkFunc (w : WorkOf) (e : TestEntry ι) : Option (TestEntry ι) :=
  if e.allocated w then some (e.setWork w { e.works w with queued := false, running := true })
  else none

def schedTestWork (cpu : ι) (e : TestEntry ι) : Option (TestEntry ι) :=
  if e.kworks = false ∨ e.koworks = false then none
  else some { e with
    cpu := some cpu
    timer := .started
    works := fun _ => ⟨true, false, false, false⟩ }

/-- `hrtimer_start`, which needs the base of the timer. -/
def wqTestCpuOnline (e : TestEntry ι) : Option (TestEntry ι) :=
  if e.timer = .zeroed then none else some { e with timer := .started }

def wqTestCpuOffline (e : TestEntry ι) : TestEntry ι :=
  if e.cpu.isSome then { e with timer := .idle } else e

/-- The return value, and which of the two probes are registered. -/
def kretprobeInit (k : Machine ι) : ℤ × Bool × Bool :=
  if k.registerMyKretprobe < 0 then (-1, false, false)
  else if k.registerMyWqOfflineKretprobe < 0 then (-1, true, false)
  else (0, true, true)

/-- `on_each_cpu` -/
def onEachCpu (k : Machine ι) (f : ι → TestEntry ι → Option (TestEntry ι))
    (entry : ι → TestEntry ι) : Option (ι → TestEntry ι) :=
  if ∀ c ∈ k.possible, k.online c → (f c (entry c)).isSome then
    some fun c => if k.online c then (f c (entry c)).getD (entry c) else entry c
  else none

def removeCalls (possible : List ι) : List (Call ι) :=
  possible.map .kthreadStop ++ .cpuhpRemoveState ::
    ((possible.flatMap fun c => worksOf.map (.cancelWorkSync c)) ++ .kretprobeExit ::
      possible.flatMap fun c => [.kfreeKworks c, .kfreeKoworks c])

/-- `proc_workqueue_unbound_test_init`; its return value is 0. -/
def init (k : Machine ι) : Option (State ι) := do
  let entry : ι → TestEntry ι := fun c =>
    ⟨none, (k.kzalloc c).1, (k.kzalloc c).2, .zeroed, .exited,
      fun _ => ⟨false, false, false, false⟩⟩
  let (_, myKretprobe, myWqOfflineKretprobe) := kretprobeInit k
  let entry ← onEachCpu k schedTestWork entry
  let entry := fun c =>
    { entry c with thread := if k.kthreadRun c then KThread.awake else .failed }
  some ⟨k.online, entry, 0xffffffff, k.cpuhpSetupState, 0 < k.cpuhpSetupState, myKretprobe,
    myWqOfflineKretprobe, removeCalls k.possible, false⟩

/-! ### The machine -/

/-- What happens to a CPU `cpu`.  A thread takes a random number before it sleeps
and one for each work after it; a thread that is woken before its timeout leaves its
loop.  `remove` is the next call of it. -/
inductive Event (ι : Type)
  | timer (cpu : ι)
  | run (cpu : ι) (w : WorkOf)
  | finish (cpu : ι) (w : WorkOf)
  | threadSleeps (cpu : ι) (seed : UInt32)
  | threadWakes (cpu : ι) (seeds : Fin maxKthreadWorker → UInt32)
  | threadWoken (cpu : ι)
  | online (cpu : ι)
  | offline (cpu : ι)
  | remove

def State.crash (s : State ι) : State ι := { s with oops := true }

/-- Code of the module runs, which is gone after the last call of `remove`. -/
def State.code (s : State ι) (r : Option (State ι)) : State ι :=
  if s.remaining = [] then s.crash else r.getD s.crash

section Machine

variable [DecidableEq ι]

def State.setEntry (s : State ι) (cpu : ι) (e : TestEntry ι) : State ι :=
  { s with entry := Function.update s.entry cpu e }

def State.setOnline (s : State ι) (cpu : ι) (online : Bool) : State ι :=
  { s with online := Function.update s.online cpu online }

/-- One call of `remove`; `cancel_work_sync` waits for a work that is running.
`kthread_stop` of a thread that has returned uses it after it was freed.
`cpuhp_remove_state` calls the callbacks of the CPUs that are online, and ends in a
`BUG` for a state that is an error. -/
def State.exec (k : Machine ι) (s : State ι) : Call ι → Option (State ι)
  | .kthreadStop c =>
      if (s.entry c).thread = .failed ∨ (s.entry c).thread = .returned then some s.crash
      else some (s.setEntry c { s.entry c with thread := .exited })
  | .cpuhpRemoveState =>
      if s.gCpuhpState = -1 then some s
      else if s.gCpuhpState ≤ 0 then some s.crash
      else some { s with
        callbacks := false
        entry := fun c => if s.online c then wqTestCpuOffline (s.entry c) else s.entry c }
  | .cancelWorkSync c w =>
      if (s.entry c).cpu = none then some s
      else if ((s.entry c).works w).running then none
      else some (s.setEntry c
        ((s.entry c).setWork w { (s.entry c).works w with queued := false }))
  | .kretprobeExit =>
      if s.myKretprobe = false ∧ k.unregisterKretprobe = false then some s.crash
      else some { s with myKretprobe := false }
  | .kfreeKworks c => some (s.setEntry c { s.entry c with kworks := false })
  | .kfreeKoworks c => some (s.setEntry c { s.entry c with koworks := false })

/-- A CPU that is about to go offline, behind its callback. -/
def State.cpuOffline (s : State ι) (c : ι) : State ι :=
  (s.setOnline c false).setEntry c
    (if s.callbacks then wqTestCpuOffline (s.entry c) else s.entry c)

/-- `workqueue_offline_cpu`, whose probe is the second one, comes behind the callback
of the module. -/
def State.take (k : Machine ι) (s : State ι) (e : Event ι) : Option (State ι) :=
  if s.oops then none else
  match e with
  | .timer c =>
      if (s.entry c).timer = .started then
        some (s.code ((hrtimerFunc k.panicOnWarn (s.entry c)).map (s.setEntry c)))
      else none
  | .run c w =>
      if ((s.entry c).works w).queued ∧ ¬ ((s.entry c).works w).running then
        some (s.code ((testWorkFunc w (s.entry c)).map (s.setEntry c)))
      else none
  | .finish c w =>
      if ((s.entry c).works w).running then
        some (s.code (some (s.setEntry c
          ((s.entry c).setWork w { (s.entry c).works w with running := false }))))
      else none
  | .threadSleeps c seed =>
      if (s.entry c).thread = .awake then
        some (s.code (some { s.setEntry c { s.entry c with thread := .asleep } with
          delaySeed := seed }))
      else none
  | .threadWakes c seeds =>
      if (s.entry c).thread = .asleep then
        some (s.code ((testKthreadFunc k.panicOnWarn seeds (s.entry c)).map (s.setEntry c)))
      else none
  | .threadWoken c =>
      if (s.entry c).thread = .asleep then
        some (s.code (some (s.setEntry c { s.entry c with thread := .returned })))
      else none
  | .online c =>
      if s.online c then none
      else if s.callbacks then
        some (s.code ((wqTestCpuOnline (s.entry c)).map ((s.setOnline c true).setEntry c)))
      else some (s.setOnline c true)
  | .offline c =>
      if s.online c ∧ ∃ d ∈ k.possible, d ≠ c ∧ s.online d then
        if s.myWqOfflineKretprobe then
          some (s.code ((wqRetHandler k.panicOnWarn s.delaySeed
            ((s.cpuOffline c).entry c)).map ((s.cpuOffline c).setEntry c)))
        else some (s.cpuOffline c)
      else none
  | .remove =>
      match s.remaining with
      | [] => none
      | call :: rest => (s.exec k call).map fun s => { s with remaining := rest }

def unbondTest (k : Machine ι) : EventSystem (State ι) (Event ι) where
  init := fun s => init k = some s
  take := State.take k

end Machine

/-! ### The order of the calls -/

def Call.stage : Call ι → ℕ
  | .kthreadStop _ => 0
  | .cpuhpRemoveState => 1
  | .cancelWorkSync _ _ => 2
  | .kretprobeExit => 3
  | .kfreeKworks _ | .kfreeKoworks _ => 4

theorem removeCalls_sorted (possible : List ι) :
    (removeCalls possible).Pairwise fun a b => a.stage ≤ b.stage := by
  have hconst : ∀ {l : List (Call ι)} {n : ℕ}, (∀ a ∈ l, a.stage = n) →
      l.Pairwise fun a b => a.stage ≤ b.stage := by
    intro l n h
    exact List.pairwise_of_forall_mem_list fun a ha b hb => by rw [h a ha, h b hb]
  have hstop : ∀ a ∈ possible.map Call.kthreadStop, a.stage = 0 := by
    simp [Call.stage]
  have hremove : (Call.cpuhpRemoveState : Call ι).stage = 1 := rfl
  have hcancel : ∀ a ∈ possible.flatMap fun c => worksOf.map (Call.cancelWorkSync c),
      a.stage = 2 := by
    simp only [List.mem_flatMap, List.mem_map]
    rintro a ⟨c, -, w, -, rfl⟩
    rfl
  have hexit : (Call.kretprobeExit : Call ι).stage = 3 := rfl
  have hfree : ∀ a ∈ possible.flatMap fun c => [Call.kfreeKworks c, .kfreeKoworks c],
      a.stage = 4 := by
    simp only [List.mem_flatMap, List.mem_cons, List.not_mem_nil, or_false]
    rintro a ⟨c, -, rfl | rfl⟩ <;> rfl
  rw [removeCalls, List.pairwise_append, List.pairwise_cons, List.pairwise_append,
    List.pairwise_cons]
  refine ⟨hconst hstop, ⟨?_, hconst hcancel, ⟨?_, hconst hfree⟩, ?_⟩, ?_⟩
  · intro a ha
    rcases List.mem_append.mp ha with ha | ha
    · simp [hremove, hcancel a ha]
    · rcases List.mem_cons.mp ha with rfl | ha
      · simp [hremove, hexit]
      · simp [hremove, hfree a ha]
  · intro a ha
    simp [hexit, hfree a ha]
  · intro a ha b hb
    rcases List.mem_cons.mp hb with rfl | hb
    · simp [hcancel a ha, hexit]
    · simp [hcancel a ha, hfree b hb]
  · intro a ha b _
    simp [hstop a ha]

theorem removeCalls_nodup {possible : List ι} (h : possible.Nodup) :
    (removeCalls possible).Nodup := by
  have hworks : worksOf.Nodup := by decide
  have hcancel : (possible.flatMap fun c => worksOf.map (Call.cancelWorkSync c)).Nodup := by
    refine List.nodup_flatMap.mpr ⟨fun c _ => hworks.map fun v w e => (Call.cancelWorkSync.inj e).2,
      h.imp fun {c d} hne a hc hd => ?_⟩
    obtain ⟨v, -, rfl⟩ := List.mem_map.mp hc
    obtain ⟨w, -, e⟩ := List.mem_map.mp hd
    exact hne (Call.cancelWorkSync.inj e).1.symm
  have hfree : (possible.flatMap fun c => [Call.kfreeKworks c, .kfreeKoworks c]).Nodup := by
    refine List.nodup_flatMap.mpr ⟨fun c _ => by simp, h.imp fun {c d} hne a hc hd => ?_⟩
    simp only [List.mem_cons, List.not_mem_nil, or_false] at hc hd
    rcases hc with rfl | rfl <;> simp_all
  have hstop : (possible.map Call.kthreadStop).Nodup := h.map fun c d e => Call.kthreadStop.inj e
  simp only [removeCalls, List.nodup_append, List.nodup_cons, hstop, hcancel, hfree, true_and,
    List.mem_append, List.mem_cons, List.mem_map, List.mem_flatMap, List.not_mem_nil, or_false]
  refine ⟨⟨?_, ⟨?_, trivial⟩, ?_⟩, ?_⟩
  · rintro (⟨c, -, w, -, ⟨⟩⟩ | ⟨⟨⟩⟩ | ⟨c, -, ⟨⟨⟩⟩ | ⟨⟨⟩⟩⟩)
  · rintro ⟨c, -, ⟨⟨⟩⟩ | ⟨⟨⟩⟩⟩
  · rintro _ ⟨c, -, w, -, rfl⟩ _ (rfl | ⟨d, -, rfl | rfl⟩) ⟨⟩
  · rintro _ ⟨c, -, rfl⟩ _ (rfl | ⟨d, -, w, -, rfl⟩ | rfl | ⟨d, -, rfl | rfl⟩) ⟨⟩

theorem mem_worksOf (w : WorkOf) : w ∈ worksOf := by
  cases w <;> simp [worksOf]

theorem mem_removeCalls (k : Machine ι) (a : Call ι) : a ∈ removeCalls k.possible := by
  cases a <;> simp [removeCalls, k.mem_possible, mem_worksOf]

/-- While a call is still to come, so are those of the later stages. -/
theorem mem_of_stage_lt {k : Machine ι} {left : List (Call ι)}
    (h : left <:+ removeCalls k.possible) {a b : Call ι} (ha : a ∈ left)
    (hlt : a.stage < b.stage) : b ∈ left := by
  obtain ⟨done, happ⟩ := h
  have hsorted := removeCalls_sorted k.possible
  have hb := mem_removeCalls k b
  rw [← happ] at hsorted hb
  rcases List.mem_append.mp hb with hb | hb
  · exact absurd ((List.pairwise_append.mp hsorted).2.2 b hb a ha) (Nat.not_le.mpr hlt)
  · exact hb

/-! ### One CPU -/

def Work.Idle (w : Work) : Prop := w.queued = false ∧ w.running = false

def WorkOf.IsKowork : WorkOf → Prop
  | .kowork _ => True
  | _ => False

/-- What a call leaves behind in the entry of the CPU `c`.  The probe can queue a
work of `koworks` again, unless the CPUs are quiet. -/
def TestEntry.Done (quiet : Prop) (e : TestEntry ι) (c : ι) : Call ι → Prop
  | .kthreadStop d => d = c → e.thread = .exited
  | .cpuhpRemoveState => e.timer ≠ .started
  | .cancelWorkSync d w => d = c → (w.IsKowork → quiet) → (e.works w).Idle
  | .kretprobeExit => True
  | .kfreeKworks d => d = c → e.kworks = false
  | .kfreeKoworks d => d = c → e.koworks = false

/-- What holds until the call.  No thread returns by itself when it is quiet. -/
def TestEntry.Pending (k : Machine ι) (quiet : Prop) (e : TestEntry ι) (c : ι) : Call ι → Prop
  | .kthreadStop d => d = c →
      (e.thread = .failed ↔ k.kthreadRun c = false) ∧ (quiet → e.thread ≠ .returned)
  | .kfreeKworks d => d = c → e.kworks = (k.kzalloc c).1
  | .kfreeKoworks d => d = c → e.koworks = (k.kzalloc c).2
  | _ => True

/-- The part of the entry of the CPU `c` that no call of `remove` is about; the timer
follows the CPU where the callbacks are called. -/
structure EntryFixed (k : Machine ι) (online callbacks : Bool) (c : ι) (e : TestEntry ι) :
    Prop where
  cpu : e.cpu = if k.online c then some c else none
  zeroed : e.timer = .zeroed ↔ k.online c = false
  follows : callbacks = true → (e.timer = .started ↔ online = true)
  initialised : ∀ w, (e.works w).initialised = k.online c
  fresh : k.online c = false → ∀ w, (e.works w).Idle

structure EntryOk (k : Machine ι) (quiet : Prop) (left : List (Call ι))
    (online callbacks : Bool) (c : ι) (e : TestEntry ι) : Prop
    extends EntryFixed k online callbacks c e where
  done : ∀ a ∉ left, e.Done quiet c a
  pending : ∀ a ∈ left, e.Pending k quiet c a

section Entry

variable {k : Machine ι} {quiet : Prop} {left rest : List (Call ι)} {call : Call ι}
  {online callbacks : Bool} {c : ι} {e e' : TestEntry ι}

/-- The next call, which another CPU is about or which has nothing to do. -/
theorem EntryOk.drop (h : EntryOk k quiet (call :: rest) online callbacks c e)
    (hdone : e.Done quiet c call) : EntryOk k quiet rest online callbacks c e := by
  refine { h.toEntryFixed with done := ?_, pending := ?_ }
  · intro a ha
    by_cases heq : a = call
    · rw [heq]
      exact hdone
    · exact h.done a (List.not_mem_cons_of_ne_of_not_mem heq ha)
  · intro a ha
    exact h.pending a (List.mem_cons_of_mem _ ha)

/-- The next call, which changes the entry. -/
theorem EntryOk.exec (h : EntryOk k quiet (call :: rest) online callbacks c e)
    (hnotin : call ∉ rest) {online' callbacks' : Bool}
    (hfixed : EntryFixed k online' callbacks' c e')
    (hdone : e'.Done quiet c call) (hkeep : ∀ a ≠ call, e.Done quiet c a → e'.Done quiet c a)
    (hkeep' : ∀ a ≠ call, e.Pending k quiet c a → e'.Pending k quiet c a) :
    EntryOk k quiet rest online' callbacks' c e' := by
  refine { hfixed with done := ?_, pending := ?_ }
  · intro a ha
    by_cases heq : a = call
    · rw [heq]
      exact hdone
    · exact hkeep a heq (h.done a (List.not_mem_cons_of_ne_of_not_mem heq ha))
  · intro a ha
    have hne : a ≠ call := by
      rintro rfl
      exact hnotin ha
    exact hkeep' a hne (h.pending a (List.mem_cons_of_mem _ ha))

/-- The warning is about a zeroed work that is scheduled for the first time. -/
theorem scheduleWorks_eq_none {panicOnWarn : Bool} {p : WorkOf → Bool} :
    e.scheduleWorks panicOnWarn p = none ↔ panicOnWarn = true ∧
      ∃ w, p w = true ∧ (e.works w).initialised = false ∧ (e.works w).stuck = false := by
  rw [TestEntry.scheduleWorks, ite_eq_left_iff]
  simp [mem_worksOf]

theorem EntryFixed.scheduleWorks_eq_none (h : EntryFixed k online callbacks c e)
    {panicOnWarn : Bool} {p : WorkOf → Bool} :
    e.scheduleWorks panicOnWarn p = none ↔ panicOnWarn = true ∧ k.online c = false ∧
      ∃ w, p w = true ∧ (e.works w).stuck = false := by
  rw [UnbondTest.scheduleWorks_eq_none]
  simp only [h.initialised]
  grind

theorem EntryOk.scheduleWorks (h : EntryOk k quiet left online callbacks c e)
    {panicOnWarn : Bool} {p : WorkOf → Bool}
    (hleft : ∀ w, p w = true → (w.IsKowork → quiet) → .cancelWorkSync c w ∈ left)
    (he : e.scheduleWorks panicOnWarn p = some e') :
    EntryOk k quiet left online callbacks c e' := by
  obtain ⟨-, he⟩ := Option.ite_none_left_eq_some.mp he
  obtain rfl := Option.some.inj he
  refine { h with initialised := ?_, fresh := ?_, done := ?_, pending := ?_ }
  · intro w
    rw [← h.initialised w]
    dsimp only
    split
    · rfl
    · split <;> rfl
  · -- a zeroed work is put on no list
    intro hoff w
    have hzeroed := h.initialised w
    rw [hoff] at hzeroed
    have hidle := h.fresh hoff w
    dsimp only
    rw [hzeroed]
    split
    · exact hidle
    · exact hidle
  · intro a ha
    have hold := h.done a ha
    cases a with
    | cancelWorkSync d w =>
        -- a work that is scheduled has still to be cancelled
        rintro rfl hw
        have hp : p w = false := by
          by_contra hp
          exact ha (hleft w (by simpa using hp) hw)
        dsimp only
        rw [if_pos hp]
        exact hold rfl hw
    | _ => exact hold
  · intro a ha
    have hold := h.pending a ha
    cases a with
    | _ => exact hold

theorem EntryOk.setWork (h : EntryOk k quiet left online callbacks c e) {w : WorkOf} {work : Work}
    (hinit : work.initialised = (e.works w).initialised) (hfresh : k.online c = false → work.Idle)
    (hidle : (w.IsKowork → quiet) → .cancelWorkSync c w ∉ left → work.Idle) :
    EntryOk k quiet left online callbacks c (e.setWork w work) := by
  have hworks : ∀ v, (e.setWork w work).works v = if v = w then work else e.works v :=
    fun v => Function.update_apply ..
  refine { h with initialised := ?_, fresh := ?_, done := ?_, pending := ?_ }
  · intro v
    rw [hworks]
    split
    · rw [hinit, h.initialised]
    · exact h.initialised v
  · intro hoff v
    rw [hworks]
    split
    · exact hfresh hoff
    · exact h.fresh hoff v
  · intro a ha
    have hold := h.done a ha
    cases a with
    | cancelWorkSync d v =>
        rintro rfl hv
        rw [hworks]
        split
        · rename_i hvw
          subst hvw
          exact hidle hv ha
        · exact hold rfl hv
    | _ => exact hold
  · intro a ha
    have hold := h.pending a ha
    cases a with
    | _ => exact hold

/-- A thread goes on or exits. -/
theorem EntryOk.setThread (h : EntryOk k quiet left online callbacks c e)
    (hfailed : e.thread ≠ .failed) {t : KThread} (ht : t ≠ .failed)
    (hreturned : quiet → t ≠ .returned) (hleft : t ≠ .exited → .kthreadStop c ∈ left) :
    EntryOk k quiet left online callbacks c { e with thread := t } := by
  refine { h with done := ?_, pending := ?_ }
  · intro a ha
    have hold := h.done a ha
    cases a with
    | kthreadStop d =>
        rintro rfl
        exact not_not.mp fun hexited => ha (hleft hexited)
    | _ => exact hold
  · intro a ha
    have hold := h.pending a ha
    cases a with
    | kthreadStop d =>
        rintro rfl
        exact ⟨iff_of_false ht fun hrun => hfailed ((hold rfl).1.mpr hrun), hreturned⟩
    | _ => exact hold

/-- The callbacks, which start and stop the timer. -/
theorem EntryOk.setTimer (h : EntryOk k quiet left online callbacks c e) {online' : Bool}
    {t : HrTimer} (ht : t ≠ .zeroed) (hzeroed : e.timer ≠ .zeroed)
    (hleft : t = .started → .cpuhpRemoveState ∈ left)
    (hfollows : callbacks = true → (t = .started ↔ online' = true)) :
    EntryOk k quiet left online' callbacks c { e with timer := t } := by
  refine { h with zeroed := ?_, follows := hfollows, done := ?_, pending := ?_ }
  · exact iff_of_false ht fun hoff => hzeroed (h.zeroed.mpr hoff)
  · intro a ha
    have hold := h.done a ha
    cases a with
    | cpuhpRemoveState => exact fun hstarted => ha (hleft hstarted)
    | _ => exact hold
  · intro a ha
    have hold := h.pending a ha
    cases a with
    | _ => exact hold

theorem EntryFixed.wqTestCpuOffline_eq (h : EntryFixed k online callbacks c e)
    (hzeroed : e.timer ≠ .zeroed) : wqTestCpuOffline e = { e with timer := .idle } := by
  have hload : k.online c = true := by
    by_contra hoff
    exact hzeroed (h.zeroed.mpr (by simpa using hoff))
  rw [wqTestCpuOffline, if_pos]
  rw [h.cpu, if_pos hload]
  rfl

end Entry

/-! ### What always holds -/

/-- What every step keeps, as long as the kernel is up. -/
structure Good (k : Machine ι) (quiet : Prop) (s : State ι) : Prop where
  loads : ∀ c, k.online c = true → (k.kzalloc c).1 = true ∧ (k.kzalloc c).2 = true
  suffix : s.remaining <:+ removeCalls k.possible
  probe : s.myWqOfflineKretprobe = (kretprobeInit k).2.2
  state : s.gCpuhpState = k.cpuhpSetupState
  callbacks : s.callbacks = true ↔ 0 < k.cpuhpSetupState ∧ .cpuhpRemoveState ∈ s.remaining
  exit : s.myKretprobe = true ↔ (kretprobeInit k).2.1 = true ∧ .kretprobeExit ∈ s.remaining
  entry : ∀ c, EntryOk k quiet s.remaining (s.online c) s.callbacks c (s.entry c)

theorem onEachCpu_eq_some {k : Machine ι} {f : ι → TestEntry ι → Option (TestEntry ι)}
    {entry entry' : ι → TestEntry ι} (h : onEachCpu k f entry = some entry') (c : ι) :
    (k.online c = true → f c (entry c) = some (entry' c)) ∧
      (k.online c = false → entry' c = entry c) := by
  obtain ⟨hall, h⟩ := Option.ite_none_right_eq_some.mp h
  obtain rfl := Option.some.inj h
  refine ⟨fun hon => ?_, fun hoff => if_neg (by simp [hoff])⟩
  obtain ⟨e, he⟩ := Option.isSome_iff_exists.mp (hall c (k.mem_possible c) hon)
  simp [hon, he]

theorem init_good {k : Machine ι} (quiet : Prop) {s : State ι} (h : init k = some s) :
    Good k quiet s := by
  obtain ⟨entry, heach, h⟩ := Option.bind_eq_some_iff.mp h
  obtain rfl := Option.some.inj h
  have hon : ∀ c, k.online c = true → (k.kzalloc c).1 = true ∧ (k.kzalloc c).2 = true ∧
      entry c = ⟨some c, (k.kzalloc c).1, (k.kzalloc c).2, .started, .exited,
        fun _ => ⟨true, false, false, false⟩⟩ := by
    intro c hon
    obtain ⟨hmem, hsched⟩ := Option.ite_none_left_eq_some.mp ((onEachCpu_eq_some heach c).1 hon)
    simp only [not_or, Bool.not_eq_false] at hmem
    exact ⟨hmem.1, hmem.2, (Option.some.inj hsched).symm⟩
  refine ⟨fun c hc => ⟨(hon c hc).1, (hon c hc).2.1⟩, List.suffix_rfl, rfl, rfl, ?_, ?_,
    fun c => ?_⟩
  · exact (decide_eq_true_iff).trans (and_iff_left (mem_removeCalls k _)).symm
  · exact (and_iff_left (mem_removeCalls k _)).symm
  · have hfixed : EntryFixed k (k.online c) (0 < k.cpuhpSetupState) c (entry c) ∧
        (entry c).kworks = (k.kzalloc c).1 ∧ (entry c).koworks = (k.kzalloc c).2 := by
      rcases hc : k.online c with - | -
      · -- `sched_test_work` does not run on this CPU
        rw [(onEachCpu_eq_some heach c).2 hc]
        exact ⟨⟨by simp [hc], by simp [hc], by simp, by simp [hc], fun _ _ => ⟨rfl, rfl⟩⟩, rfl, rfl⟩
      · rw [(hon c hc).2.2]
        exact ⟨⟨by simp [hc], by simp [hc], by simp, by simp [hc], by simp [hc]⟩, rfl, rfl⟩
    obtain ⟨hfixed, hkworks, hkoworks⟩ := hfixed
    refine { hfixed with done := fun a ha => absurd (mem_removeCalls k a) ha, pending := ?_ }
    rintro a -
    cases a with
    | kthreadStop d =>
        rintro rfl
        rcases hrun : k.kthreadRun d with - | - <;> simp [hrun]
    | kfreeKworks d => exact fun _ => hkworks
    | kfreeKoworks d => exact fun _ => hkoworks
    | _ => exact trivial

end UnbondTest

end CodeSnippet
