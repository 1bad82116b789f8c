/-
CodeSnippet/CpuhpModule.lean

Loading and unloading src/kernel_module/qos/cpuhp-qos.c, one call of the kernel
after the other, while CPUs go on- and offline and files of its device are open.

What the module has acquired depends on the call that it is at and on the answers
of the kernel, but on nothing that happens besides (`Control.next_expected`).  The
callbacks for the CPUs run from `cpuhp_setup_state` on, before there is a thread
that they could wake.

Main results:
  * `cpuhp_completes` — init returns and exit ends.
  * `cpuhp_counts` — the counter is right, and nobody wakes a thread that is not
    there.
  * `cpuhp_leaves` — what init and exit leave behind.
-/
import CodeSnippet.CpufreqQos
import CodeSnippet.CpuhpQos
import CodeSnippet.Transition

namespace CodeSnippet

open Transition

namespace CpuhpModule

/-! ### Source -/

def eNoSys : ℤ := 38

/-- What the module acquires, in this order. -/
inductive Resource
  | cls | hotplugState | thread | chrdevRegion | memory | cdev | device
  deriving DecidableEq

/-- `NR_CPUS`, and what the kernel answers to the calls of `cpu_hp_drv_init`.
`class_create` and `kthread_run` return a pointer or an error number. -/
structure Env where
  nrCpus : UInt32
  classCreate : ErrPtr
  class_ne : classCreate ≠ .null
  cpuhpSetupState : ℤ
  kthreadRun : ErrPtr
  kthread_ne : kthreadRun ≠ .null
  allocChrdevRegion : ℤ
  kzalloc : Bool
  cdevAdd : ℤ
  deviceCreate : ErrPtr

/-- The next call of `cpu_hp_drv_init`, behind its labels with the value of `ret`,
or of `cpu_hp_drv_exit`. -/
inductive Pc
  | classCreate | initStat | cpuhpSetupState | kthreadRun | allocChrdevRegion | kzalloc | cdevAdd
  | deviceCreate
  | removeCdev (ret : ℤ) | freeChrdev (ret : ℤ) | freeChrdevRegion (ret : ℤ)
  | removeCpuhpState (ret : ℤ) | destoryClass (ret : ℤ)
  | returned (ret : ℤ)
  | deviceDestroy | cdevDel | unregisterChrdevRegion | cpuhpRemoveState | classDestroy
  | exited
  deriving DecidableEq

/-- Whether exit runs; `try_module_get` then refuses to open a file. -/
def Pc.going : Pc → Bool
  | .deviceDestroy | .cdevDel | .unregisterChrdevRegion | .cpuhpRemoveState | .classDestroy
  | .exited => true
  | _ => false

/-- The pointers of the module, what it has acquired and not released, and what it
has released without having it. -/
structure Control where
  pc : Pc
  held : Finset Resource
  strays : List Resource
  hpThread : ErrPtr
  cpuhpQosClass : ErrPtr
  cpuHpDev : Bool

namespace Control

def goto (c : Control) (pc : Pc) : Control := { c with pc }

def acquire (c : Control) (r : Resource) : Control := { c with held := insert r c.held }

def release (c : Control) (r : Resource) : Control :=
  if r ∈ c.held then { c with held := c.held.erase r } else { c with strays := c.strays ++ [r] }

/-- `if (cpuhp_qos_class) { class_destroy(cpuhp_qos_class); ... }`. -/
def destroyClass (c : Control) : Control :=
  if c.cpuhpQosClass = .null then c else { c.release .cls with cpuhpQosClass := .null }

/-- The next call. -/
def next (env : Env) (c : Control) : Option Control :=
  match c.pc with
  | .classCreate =>
      if isErr env.classCreate then some (c.goto (.returned (ptrErr env.classCreate)))
      else some ({ c.acquire .cls with cpuhpQosClass := env.classCreate }.goto .initStat)
  | .initStat => some (c.goto .cpuhpSetupState)
  | .cpuhpSetupState =>
      if env.cpuhpSetupState < 0 then some (c.goto (.destoryClass (-eNoSys)))
      else some ((c.acquire .hotplugState).goto .kthreadRun)
  | .kthreadRun =>
      if isErr env.kthreadRun then
        some ({ c with hpThread := env.kthreadRun }.goto
          (.removeCpuhpState (ptrErr env.kthreadRun)))
      else some ({ c.acquire .thread with hpThread := env.kthreadRun }.goto .allocChrdevRegion)
  | .allocChrdevRegion =>
      -- the thread is not stopped
      if env.allocChrdevRegion < 0 then some (c.goto (.removeCpuhpState env.allocChrdevRegion))
      else some ((c.acquire .chrdevRegion).goto .kzalloc)
  | .kzalloc =>
      if env.kzalloc = false then some (c.goto (.freeChrdevRegion (-eNoMem)))
      else some ({ c.acquire .memory with cpuHpDev := true }.goto .cdevAdd)
  | .cdevAdd =>
      if env.cdevAdd ≠ 0 then some (c.goto (.freeChrdev env.cdevAdd))
      else some ((c.acquire .cdev).goto .deviceCreate)
  | .deviceCreate =>
      -- `dev` is cleared before it is asked for the error
      if isErr env.deviceCreate then some (c.goto (.removeCdev (ptrErr .null)))
      else some ((c.acquire .device).goto (.returned 0))
  | .removeCdev ret => some ((if c.cpuHpDev then c.release .cdev else c).goto (.freeChrdev ret))
  | .freeChrdev ret =>
      some ((if c.cpuHpDev then { c.release .memory with cpuHpDev := false } else c).goto
        (.freeChrdevRegion ret))
  | .freeChrdevRegion ret => some ((c.release .chrdevRegion).goto (.removeCpuhpState ret))
  | .removeCpuhpState ret => some ((c.release .hotplugState).goto (.destoryClass ret))
  | .destoryClass ret => some (c.destroyClass.goto (.returned ret))
  | .returned _ => none
  | .deviceDestroy =>
      -- without a class no device is found
      some ((if c.cpuhpQosClass = .null then c else c.release .device).goto .cdevDel)
  | .cdevDel =>
      some ((if c.cpuHpDev then { (c.release .cdev).release .memory with cpuHpDev := false }
        else c).goto .unregisterChrdevRegion)
  | .unregisterChrdevRegion => some ((c.release .chrdevRegion).goto .cpuhpRemoveState)
  | .cpuhpRemoveState => some ((c.release .hotplugState).goto .classDestroy)
  | .classDestroy => some (c.destroyClass.goto .exited)
  | .exited => none

end Control

/-- The module, the CPUs that are online and the open files of the device.  `oops`
says that a thread was woken that is not there. -/
structure Module where
  control : Control
  stat : CpuhpStatus
  online : Finset ℕ
  files : ℕ
  oops : Bool

namespace Module

/-- `wake_up_process(cpuhp_stat.hp_thread)` -/
def wakeUp (s : Module) : Module :=
  match s.control.hpThread with
  | .valid _ => s
  | _ => { s with oops := true }

/-- A callback, with its wake-up. -/
def callback (s : Module) (r : CpuhpStatus × Bool) : Module :=
  let s := { s with stat := r.1 }
  if r.2 then s.wakeUp else s

/-- The callback for each of so many CPUs. -/
def callbacks (f : CpuhpStatus → CpuhpStatus × Bool) : ℕ → Module → Module
  | 0, s => s
  | n + 1, s => callbacks f n (s.callback (f s.stat))

/-- The next call with what it does to the counters: `cpuhp_setup_state` and
`cpuhp_remove_state` run a callback for each CPU that is online. -/
def next (env : Env) (s : Module) : Option Module := do
  let c ← s.control.next env
  let t := { s with control := c }
  match s.control.pc with
  | .initStat => some { t with stat := { t.stat with min := 0, max := env.nrCpus } }
  | .cpuhpSetupState =>
      if env.cpuhpSetupState < 0 then some t
      else some (t.callbacks cpufreqHpOnline s.online.card)
  | .removeCpuhpState _ | .cpuhpRemoveState =>
      if .hotplugState ∈ s.control.held then some (t.callbacks cpufreqHpOffline s.online.card)
      else some t
  | _ => some t

end Module

/-- CPUs go on- and offline for any reason, the control thread included. -/
inductive Event
  | next
  | unload
  | cpuUp (cpu : ℕ)
  | cpuDown (cpu : ℕ)
  | openFile
  | closeFile
  | write (w : QosWrite)

/-- A file keeps the module from being unloaded.  The section of `cpuhp_qos_write`
under the lock and the wake-up behind it are one step. -/
def Module.take (env : Env) (s : Module) : Event → Option Module
  | .next => s.next env
  | .unload =>
      if s.control.pc = .returned 0 ∧ s.files = 0 then
        some { s with control := s.control.goto .deviceDestroy }
      else none
  | .cpuUp cpu =>
      if cpu < env.nrCpus.toNat ∧ cpu ∉ s.online then
        let s := { s with online := insert cpu s.online }
        some (if .hotplugState ∈ s.control.held then s.callback (cpufreqHpOnline s.stat) else s)
      else none
  | .cpuDown cpu =>
      if cpu ∈ s.online ∧ s.online ≠ {cpu} then
        let s := { s with online := s.online.erase cpu }
        some (if .hotplugState ∈ s.control.held then s.callback (cpufreqHpOffline s.stat) else s)
      else none
  | .openFile =>
      if .cdev ∈ s.control.held ∧ s.control.pc.going = false then
        some { s with files := s.files + 1 }
      else none
  | .closeFile => if 0 < s.files then some { s with files := s.files - 1 } else none
  | .write w =>
      if 0 < s.files then
        let r := cpuhpQosWrite s.stat w
        let s := { s with stat := r.2 }
        some (if 0 ≤ r.1 then s.wakeUp else s)
      else none

/-- The module is loaded on a machine with any CPUs online. -/
def cpuhpModule (env : Env) : EventSystem Module Event where
  init s := s.control = ⟨.classCreate, ∅, [], .null, .null, false⟩ ∧ s.stat = ⟨0, 0, 0⟩ ∧
    (∀ cpu ∈ s.online, cpu < env.nrCpus.toNat) ∧ s.files = 0 ∧ s.oops = false
  take := Module.take env

/-! ### What is held -/

/-- Whether the calls of init succeed, in their order. -/
def Env.answer (env : Env) : ℕ → Bool
  | 0 => !isErr env.classCreate
  | 1 => decide (0 ≤ env.cpuhpSetupState)
  | 2 => !isErr env.kthreadRun
  | 3 => decide (0 ≤ env.allocChrdevRegion)
  | 4 => env.kzalloc
  | 5 => decide (env.cdevAdd = 0)
  | 6 => !isErr env.deviceCreate
  | _ => true

/-- The first `n` calls succeed. -/
def Env.Upto (env : Env) (n : ℕ) : Prop := ∀ i < n, env.answer i = true

instance (env : Env) (n : ℕ) : Decidable (env.Upto n) :=
  inferInstanceAs (Decidable (∀ i < n, env.answer i = true))

theorem Env.upto_succ {env : Env} {n : ℕ} :
    env.Upto (n + 1) ↔ env.Upto n ∧ env.answer n = true := by
  constructor
  · intro h
    exact ⟨fun i hi => h i (Nat.lt_succ_of_lt hi), h n (Nat.lt_succ_self n)⟩
  · rintro ⟨h, hn⟩ i hi
    rcases Nat.lt_succ_iff_lt_or_eq.mp hi with hi | rfl
    · exact h i hi
    · exact hn

theorem Env.Upto.mono {env : Env} {m n : ℕ} (h : env.Upto n) (hle : m ≤ n) : env.Upto m :=
  fun i hi => h i (hi.trans_le hle)

theorem Env.not_upto {env : Env} {n : ℕ} (h : env.answer n = false) {m : ℕ} (hlt : n < m) :
    ¬ env.Upto m := by
  intro hupto
  have htrue := hupto n hlt
  rw [h] at htrue
  cases htrue

/-- What a call of init acquires. -/
def acquired : ℕ → Resource
  | 0 => .cls
  | 1 => .hotplugState
  | 2 => .thread
  | 3 => .chrdevRegion
  | 4 => .memory
  | 5 => .cdev
  | _ => .device

/-- What the first `n` calls acquire. -/
def heldUpto : ℕ → Finset Resource
  | 0 => ∅
  | n + 1 => insert (acquired n) (heldUpto n)

/-- The thread, if it was started. -/
def Env.left (env : Env) : Finset Resource := if env.Upto 3 then {.thread} else ∅

/-- What is known at a call about the answers before it.  The error of a failing
`device_create` is lost. -/
def Pc.Reached (env : Env) : Pc → Prop
  | .classCreate => True
  | .initStat | .cpuhpSetupState => env.Upto 1
  | .kthreadRun => env.Upto 2
  | .allocChrdevRegion => env.Upto 3
  | .kzalloc => env.Upto 4
  | .cdevAdd => env.Upto 5
  | .deviceCreate => env.Upto 6
  | .removeCdev ret => env.Upto 6 ∧ ¬ env.Upto 7 ∧ (ret = 0 ↔ env.Upto 6)
  | .freeChrdev ret => env.Upto 5 ∧ ¬ env.Upto 7 ∧ (ret = 0 ↔ env.Upto 6)
  | .freeChrdevRegion ret => env.Upto 4 ∧ ¬ env.Upto 7 ∧ (ret = 0 ↔ env.Upto 6)
  | .removeCpuhpState ret => env.Upto 2 ∧ ¬ env.Upto 7 ∧ (ret = 0 ↔ env.Upto 6)
  | .destoryClass ret => env.Upto 1 ∧ ¬ env.Upto 7 ∧ (ret = 0 ↔ env.Upto 6)
  | .returned ret => ret = 0 ↔ env.Upto 6
  | _ => env.Upto 6

/-- What is held at a call. -/
@[simp] def Pc.held (env : Env) : Pc → Finset Resource
  | .classCreate => ∅
  | .initStat | .cpuhpSetupState => heldUpto 1
  | .kthreadRun => heldUpto 2
  | .allocChrdevRegion => heldUpto 3
  | .kzalloc | .freeChrdevRegion _ => heldUpto 4
  | .cdevAdd | .freeChrdev _ => heldUpto 5
  | .deviceCreate | .removeCdev _ => heldUpto 6
  | .removeCpuhpState _ => heldUpto 2 ∪ env.left
  | .destoryClass _ => heldUpto 1 ∪ env.left
  | .returned _ | .deviceDestroy => if env.Upto 7 then heldUpto 7 else env.left
  | .cdevDel => if env.Upto 7 then heldUpto 6 else env.left
  | .unregisterChrdevRegion => if env.Upto 7 then heldUpto 4 else env.left
  | .cpuhpRemoveState => if env.Upto 7 then heldUpto 3 else env.left
  | .classDestroy => if env.Upto 7 then {.thread, .cls} else env.left
  | .exited => {.thread}

/-- What has been released without being held: after an init that lost an error,
exit releases again what init had released. -/
@[simp] def Pc.strays (env : Env) : Pc → List Resource
  | .cpuhpRemoveState => if env.Upto 7 then [] else [.chrdevRegion]
  | .classDestroy | .exited => if env.Upto 7 then [] else [.chrdevRegion, .hotplugState]
  | _ => []

@[simp] def Pc.hpThread (env : Env) : Pc → ErrPtr
  | .classCreate | .initStat | .cpuhpSetupState | .kthreadRun => .null
  | .destoryClass _ | .returned _ => if env.Upto 2 then env.kthreadRun else .null
  | _ => env.kthreadRun

@[simp] def Pc.cls (env : Env) : Pc → ErrPtr
  | .classCreate | .exited => .null
  | .returned _ | .deviceDestroy | .cdevDel | .unregisterChrdevRegion | .cpuhpRemoveState
  | .classDestroy => if env.Upto 7 then env.classCreate else .null
  | _ => env.classCreate

@[simp] def Pc.dev (env : Env) : Pc → Bool
  | .cdevAdd | .deviceCreate | .removeCdev _ | .freeChrdev _ => true
  | .returned _ | .deviceDestroy | .cdevDel => decide (env.Upto 7)
  | _ => false

/-- The state of the module at a call. -/
def Control.expected (env : Env) (pc : Pc) : Control :=
  ⟨pc, pc.held env, pc.strays env, pc.hpThread env, pc.cls env, pc.dev env⟩

theorem ptrErr_ne_zero {p : ErrPtr} (h : isErr p = true) : ptrErr p ≠ 0 := by
  rcases p with _ | addr | errno
  · cases h
  · cases h
  · exact neg_ne_zero.mpr (Nat.cast_ne_zero.mpr errno.ne_zero)

/-- The call after this one is reached, in the state expected there. -/
def Pc.Leads (env : Env) (pc : Pc) : Prop :=
  ∀ ⦃c : Control⦄, (Control.expected env pc).next env = some c →
    c.pc.Reached env ∧ c = .expected env c.pc

section Calls

open Control

variable {env : Env} {pc : Pc} {ret : ℤ}

theorem Pc.leads_to (pc' : Pc) (hreached : pc'.Reached env)
    (hto : (expected env pc).next env = some (expected env pc')) : pc.Leads env := by
  intro c hnext
  rw [hto] at hnext
  cases hnext
  exact ⟨hreached, rfl⟩

/-! The calls of init. -/

theorem Pc.leads_classCreate : Pc.classCreate.Leads env := by
  cases herr : isErr env.classCreate with
  | true =>
      have hno := @Env.not_upto env 0 (by simp [Env.answer, herr])
      refine leads_to (.returned (ptrErr env.classCreate))
        (iff_of_false (ptrErr_ne_zero herr) (hno (by decide))) ?_
      simp [expected, next, goto, herr, Env.left, hno]
  | false =>
      refine leads_to .initStat (Env.upto_succ.mpr ⟨?_, ?_⟩) ?_
      · exact fun i hi => absurd hi (Nat.not_lt_zero i)
      · simp [Env.answer, herr]
      · rw [next, show (expected env .classCreate).pc = .classCreate from rfl, herr]
        rfl

theorem Pc.leads_cpuhpSetupState (h : env.Upto 1) : Pc.cpuhpSetupState.Leads env := by
  rcases lt_or_ge env.cpuhpSetupState 0 with hneg | hnonneg
  · have hno := @Env.not_upto env 1 (by simp [Env.answer, hneg])
    refine leads_to (.destoryClass (-eNoSys))
      ⟨h, hno (by decide), iff_of_false (by decide) (hno (by decide))⟩ ?_
    simp [expected, next, goto, hneg, Env.left, hno]
  · refine leads_to .kthreadRun (Env.upto_succ.mpr ⟨h, by simp [Env.answer, hnonneg]⟩) ?_
    simp only [expected, next, goto, if_neg hnonneg.not_gt]
    rfl

theorem Pc.leads_kthreadRun (h : env.Upto 2) : Pc.kthreadRun.Leads env := by
  cases herr : isErr env.kthreadRun with
  | true =>
      have hno := @Env.not_upto env 2 (by simp [Env.answer, herr])
      refine leads_to (.removeCpuhpState (ptrErr env.kthreadRun))
        ⟨h, hno (by decide), iff_of_false (ptrErr_ne_zero herr) (hno (by decide))⟩ ?_
      simp [expected, next, goto, herr, Env.left, hno]
  | false =>
      refine leads_to .allocChrdevRegion (Env.upto_succ.mpr ⟨h, by simp [Env.answer, herr]⟩) ?_
      simp only [expected, next, goto, herr]
      rfl

theorem Pc.leads_allocChrdevRegion (h : env.Upto 3) : Pc.allocChrdevRegion.Leads env := by
  rcases lt_or_ge env.allocChrdevRegion 0 with hneg | hnonneg
  · have hno := @Env.not_upto env 3 (by simp [Env.answer, hneg])
    refine leads_to (.removeCpuhpState env.allocChrdevRegion)
      ⟨h.mono (by decide), hno (by decide), iff_of_false hneg.ne (hno (by decide))⟩ ?_
    -- the thread is what `removeCpuhpState` does not know of
    have hheld : heldUpto 3 = heldUpto 2 ∪ {.thread} := by decide
    simp [expected, next, goto, hneg, Env.left, h, hheld]
  · refine leads_to .kzalloc (Env.upto_succ.mpr ⟨h, by simp [Env.answer, hnonneg]⟩) ?_
    simp only [expected, next, goto, if_neg hnonneg.not_gt]
    rfl

theorem Pc.leads_kzalloc (h : env.Upto 4) : Pc.kzalloc.Leads env := by
  cases hmem : env.kzalloc with
  | false =>
      have hno := @Env.not_upto env 4 hmem
      refine leads_to (.freeChrdevRegion (-eNoMem))
        ⟨h, hno (by decide), iff_of_false (by decide) (hno (by decide))⟩ ?_
      simp only [expected, next, goto, hmem]
      rfl
  | true =>
      refine leads_to .cdevAdd (Env.upto_succ.mpr ⟨h, hmem⟩) ?_
      simp only [expected, next, goto, hmem]
      rfl

theorem Pc.leads_cdevAdd (h : env.Upto 5) : Pc.cdevAdd.Leads env := by
  by_cases hret : env.cdevAdd = 0
  · refine leads_to .deviceCreate (Env.upto_succ.mpr ⟨h, decide_eq_true hret⟩) ?_
    simp only [expected, next, goto, if_neg (not_not.mpr hret)]
    rfl
  · have hno := @Env.not_upto env 5 (decide_eq_false hret)
    refine leads_to (.freeChrdev env.cdevAdd)
      ⟨h, hno (by decide), iff_of_false hret (hno (by decide))⟩ ?_
    simp only [expected, next, goto, if_pos hret]
    rfl

theorem Pc.leads_deviceCreate (h : env.Upto 6) : Pc.deviceCreate.Leads env := by
  cases herr : isErr env.deviceCreate with
  | true =>
      -- `ret` is 0, and the calls before have succeeded
      refine leads_to (.removeCdev 0)
        ⟨h, Env.not_upto (n := 6) (by simp [Env.answer, herr]) (by decide), iff_of_true rfl h⟩ ?_
      simp only [expected, next, goto, herr]
      rfl
  | false =>
      have hall : env.Upto 7 := Env.upto_succ.mpr ⟨h, by simp [Env.answer, herr]⟩
      have hheld : insert .device (heldUpto 6) = heldUpto 7 := by decide
      refine leads_to (.returned 0) (iff_of_true rfl h) ?_
      simp [expected, next, goto, acquire, herr, hall, hheld, hall.mono (show 2 ≤ 7 by decide)]

/-! The error labels, each of which releases what its label names. -/

theorem Pc.leads_freeChrdevRegion (h : (Pc.freeChrdevRegion ret).Reached env) :
    (Pc.freeChrdevRegion ret).Leads env := by
  refine leads_to (.removeCpuhpState ret) ⟨h.1.mono (by decide), h.2⟩ ?_
  have hheld : (heldUpto 4).erase .chrdevRegion = heldUpto 2 ∪ {.thread} := by decide
  have hmem : Resource.chrdevRegion ∈ heldUpto 4 := by decide
  simp [expected, next, goto, release, Env.left, h.1.mono (show 3 ≤ 4 by decide), hheld, hmem]

theorem Pc.leads_removeCpuhpState (h : (Pc.removeCpuhpState ret).Reached env) :
    (Pc.removeCpuhpState ret).Leads env := by
  refine leads_to (.destoryClass ret) ⟨h.1.mono (by decide), h.2⟩ ?_
  have hupto : env.Upto 2 := h.1
  have hmem : Resource.hotplugState ∈ heldUpto 2 := by decide
  have hheld : (heldUpto 2 ∪ env.left).erase .hotplugState = heldUpto 1 ∪ env.left := by
    unfold Env.left
    split <;> decide
  simp [expected, next, goto, release, hupto, hmem, hheld]

theorem Pc.leads_destoryClass (h : (Pc.destoryClass ret).Reached env) :
    (Pc.destoryClass ret).Leads env := by
  refine leads_to (.returned ret) h.2.2 ?_
  have hmem : Resource.cls ∈ heldUpto 1 := by decide
  have hheld : (heldUpto 1 ∪ env.left).erase .cls = env.left := by
    unfold Env.left
    split <;> decide
  simp [expected, next, goto, destroyClass, release, env.class_ne, h.2.1, hmem, hheld]

/-! The calls of exit, which follows a complete init or the one that lost its
error. -/

theorem Pc.leads_deviceDestroy (h : env.Upto 6) : Pc.deviceDestroy.Leads env := by
  refine leads_to .cdevDel h ?_
  have hmem : Resource.device ∈ heldUpto 7 := by decide
  have hheld : (heldUpto 7).erase .device = heldUpto 6 := by decide
  by_cases hall : env.Upto 7 <;>
    simp [expected, next, goto, release, env.class_ne, hall, hmem, hheld]

theorem Pc.leads_cdevDel (h : env.Upto 6) : Pc.cdevDel.Leads env := by
  refine leads_to .unregisterChrdevRegion h ?_
  have hcdev : Resource.cdev ∈ heldUpto 6 := by decide
  have hmem : Resource.memory ∈ heldUpto 6 := by decide
  have hheld : ((heldUpto 6).erase .cdev).erase .memory = heldUpto 4 := by decide
  by_cases hall : env.Upto 7 <;>
    simp [expected, next, goto, release, hall, hcdev, hmem, hheld]

theorem Pc.leads_unregisterChrdevRegion (h : env.Upto 6) :
    Pc.unregisterChrdevRegion.Leads env := by
  refine leads_to .cpuhpRemoveState h ?_
  have hmem : Resource.chrdevRegion ∈ heldUpto 4 := by decide
  have hheld : (heldUpto 4).erase .chrdevRegion = heldUpto 3 := by decide
  by_cases hall : env.Upto 7 <;>
    simp [expected, next, goto, release, Env.left, h.mono (show 3 ≤ 6 by decide), hall, hmem,
      hheld]

theorem Pc.leads_cpuhpRemoveState (h : env.Upto 6) : Pc.cpuhpRemoveState.Leads env := by
  refine leads_to .classDestroy h ?_
  have hmem : Resource.hotplugState ∈ heldUpto 3 := by decide
  have hheld : (heldUpto 3).erase .hotplugState = {.thread, .cls} := by decide
  by_cases hall : env.Upto 7 <;>
    simp [expected, next, goto, release, Env.left, h.mono (show 3 ≤ 6 by decide), hall, hmem,
      hheld]

theorem Pc.leads_classDestroy (h : env.Upto 6) : Pc.classDestroy.Leads env := by
  refine leads_to .exited h ?_
  have hheld : ({.thread, .cls} : Finset Resource).erase .cls = {.thread} := by decide
  by_cases hall : env.Upto 7 <;>
    simp [expected, next, goto, destroyClass, release, Env.left, env.class_ne,
      h.mono (show 3 ≤ 6 by decide), hall, hheld]

/-- **One call.** -/
theorem Control.next_expected (h : pc.Reached env) : pc.Leads env := by
  cases pc with
  | classCreate => exact Pc.leads_classCreate
  | initStat => exact Pc.leads_to .cpuhpSetupState h rfl
  | cpuhpSetupState => exact Pc.leads_cpuhpSetupState h
  | kthreadRun => exact Pc.leads_kthreadRun h
  | allocChrdevRegion => exact Pc.leads_allocChrdevRegion h
  | kzalloc => exact Pc.leads_kzalloc h
  | cdevAdd => exact Pc.leads_cdevAdd h
  | deviceCreate => exact Pc.leads_deviceCreate h
  | removeCdev ret => exact Pc.leads_to (.freeChrdev ret) ⟨h.1.mono (by decide), h.2⟩ rfl
  | freeChrdev ret => exact Pc.leads_to (.freeChrdevRegion ret) ⟨h.1.mono (by decide), h.2⟩ rfl
  | freeChrdevRegion ret => exact Pc.leads_freeChrdevRegion h
  | removeCpuhpState ret => exact Pc.leads_removeCpuhpState h
  | destoryClass ret => exact Pc.leads_destoryClass h
  | deviceDestroy => exact Pc.leads_deviceDestroy h
  | cdevDel => exact Pc.leads_cdevDel h
  | unregisterChrdevRegion => exact Pc.leads_unregisterChrdevRegion h
  | cpuhpRemoveState => exact Pc.leads_cpuhpRemoveState h
  | classDestroy => exact Pc.leads_classDestroy h
  | returned ret => nofun
  | exited => nofun

end Calls

section Hotplug

variable {env : Env} {c d : Control}

@[simp] theorem Control.goto_hpThread (pc : Pc) : (c.goto pc).hpThread = c.hpThread := rfl

@[simp] theorem Control.goto_held (pc : Pc) : (c.goto pc).held = c.held := rfl

@[simp] theorem Control.acquire_hpThread (r : Resource) :
    (c.acquire r).hpThread = c.hpThread := rfl

@[simp] theorem Control.acquire_held (r : Resource) :
    (c.acquire r).held = insert r c.held := rfl

@[simp] theorem Control.release_hpThread (r : Resource) :
    (c.release r).hpThread = c.hpThread := by
  unfold release
  split <;> rfl

@[simp] theorem Control.release_held (r : Resource) :
    (c.release r).held = c.held.erase r := by
  unfold release
  split
  · rfl
  · rename_i hmem
    exact (Finset.erase_eq_of_notMem hmem).symm

@[simp] theorem Control.destroyClass_hpThread : c.destroyClass.hpThread = c.hpThread := by
  unfold destroyClass
  split
  · rfl
  · exact release_hpThread _

theorem Control.mem_destroyClass {r : Resource} (h : r ≠ .cls) :
    r ∈ c.destroyClass.held ↔ r ∈ c.held := by
  unfold destroyClass
  split
  · rfl
  · show r ∈ (c.release .cls).held ↔ _
    rw [release_held, Finset.mem_erase]
    exact and_iff_right h

/-- One call assigns `hp_thread`. -/
theorem Control.next_hpThread (h : c.next env = some d) :
    d.hpThread = if c.pc = .kthreadRun then env.kthreadRun else c.hpThread := by
  unfold next at h
  split at h <;> (try split at h) <;> cases h <;> simp [*]

/-- The calls that register the callbacks, and remove them. -/
theorem Control.next_hotplug (h : c.next env = some d) :
    .hotplugState ∈ d.held ↔
      match c.pc with
      | .cpuhpSetupState => .hotplugState ∈ c.held ∨ 0 ≤ env.cpuhpSetupState
      | .removeCpuhpState _ | .cpuhpRemoveState => False
      | _ => .hotplugState ∈ c.held := by
  unfold next at h
  split at h <;> (try split at h) <;> cases h <;>
    simp_all [mem_destroyClass]

theorem Control.next_pc (h : c.next env = some d) (hpc : d.pc = .cpuhpSetupState) :
    c.pc = .initStat := by
  unfold next at h
  split at h <;> (try split at h) <;> cases h <;> first | assumption | cases hpc

end Hotplug

/-! ### The callbacks -/

def Module.withCount (s : Module) (k : ℕ) : Module :=
  { s with stat := { s.stat with onlineCpus := UInt32.ofNat k } }

/-- A callback that sets the counter to `k` may wake the thread, or has no reason to. -/
def Module.Quiet (s : Module) (k : ℕ) : Prop :=
  (∃ addr, s.control.hpThread = .valid addr) ∨ (s.stat.min = 0 ∧ k ≤ s.stat.max.toNat)

section Callbacks

variable {s : Module} {k n : ℕ}

theorem Module.withCount_eq (h : s.stat.onlineCpus.toNat = k) : s.withCount k = s := by
  rw [withCount, ← h, UInt32.ofNat_toNat]

theorem Module.count_withCount (h : k < 2 ^ 32) :
    (s.withCount k).stat.onlineCpus.toNat = k :=
  UInt32.toNat_ofNat_of_lt' h

theorem Module.Quiet.mono (h : s.Quiet n) (hle : k ≤ n) : s.Quiet k :=
  h.imp_right fun h => ⟨h.1, hle.trans h.2⟩

theorem Module.wakeUp_valid (h : ∃ addr, s.control.hpThread = .valid addr) : s.wakeUp = s := by
  obtain ⟨addr, h⟩ := h
  rw [wakeUp, h]

theorem Module.callback_quiet (h : s.Quiet k) (hk : k < 2 ^ 32) :
    s.callback ((s.withCount k).stat, needAdjuest (s.withCount k).stat) = s.withCount k := by
  show (if needAdjuest (s.withCount k).stat = true then (s.withCount k).wakeUp
    else s.withCount k) = _
  rcases h with hvalid | ⟨hmin, hmax⟩
  · rw [wakeUp_valid (s := s.withCount k) hvalid, ite_self]
  · have hno : needAdjuest (s.withCount k).stat = false := by
      rw [needAdjuest, Bool.or_eq_false_iff, decide_eq_false_iff_not, decide_eq_false_iff_not,
        gt_iff_lt, UInt32.lt_iff_toNat_lt, UInt32.lt_iff_toNat_lt, count_withCount hk]
      refine ⟨?_, hmax.not_gt⟩
      rw [show (s.withCount k).stat.min = 0 from hmin]
      exact Nat.not_lt_zero k
    rw [hno]
    rfl

theorem Module.callback_online (hquiet : s.Quiet (k + 1)) (h : s.stat.onlineCpus.toNat = k)
    (hk : k + 1 < 2 ^ 32) :
    s.callback (cpufreqHpOnline s.stat) = s.withCount (k + 1) := by
  have hcount : s.stat.onlineCpus + 1 = UInt32.ofNat (k + 1) := by
    rw [← h, UInt32.ofNat_add, UInt32.ofNat_toNat]
    rfl
  rw [← callback_quiet hquiet hk]
  simp only [cpufreqHpOnline, hcount, withCount]

theorem Module.callback_offline (hquiet : s.Quiet k) (h : s.stat.onlineCpus.toNat = k + 1) :
    s.callback (cpufreqHpOffline s.stat) = s.withCount k := by
  have hlt := s.stat.onlineCpus.toNat_lt
  have hcount : s.stat.onlineCpus - 1 = UInt32.ofNat k := by
    have hsucc : s.stat.onlineCpus = UInt32.ofNat k + 1 := by
      rw [← UInt32.ofNat_toNat (x := s.stat.onlineCpus), h, UInt32.ofNat_add]
      rfl
    rw [hsucc, add_sub_cancel_right]
  rw [← callback_quiet hquiet (by omega)]
  simp only [cpufreqHpOffline, hcount, withCount]

theorem Module.callbacks_online (hquiet : s.Quiet (k + n)) (h : s.stat.onlineCpus.toNat = k)
    (hk : k + n < 2 ^ 32) :
    s.callbacks cpufreqHpOnline n = s.withCount (k + n) := by
  induction n generalizing s k with
  | zero => exact (withCount_eq h).symm
  | succ n ih =>
      have hone := callback_online (hquiet.mono (by omega)) h (by omega)
      rw [← Nat.add_assoc, Nat.add_right_comm] at hquiet hk ⊢
      have hrest := ih (s := s.withCount (k + 1)) hquiet (count_withCount (by omega)) hk
      rw [callbacks, hone, hrest]
      rfl

theorem Module.callbacks_offline (hquiet : s.Quiet n) (h : s.stat.onlineCpus.toNat = n) :
    s.callbacks cpufreqHpOffline n = s.withCount 0 := by
  induction n generalizing s with
  | zero => exact (withCount_eq h).symm
  | succ n ih =>
      have hlt := s.stat.onlineCpus.toNat_lt
      have hquiet := hquiet.mono (Nat.le_succ n)
      have hone := callback_offline hquiet h
      have hrest := ih (s := s.withCount n) hquiet (count_withCount (by omega))
      rw [callbacks, hone, hrest]
      rfl

end Callbacks

/-! ### The invariant -/

structure Module.Inv (env : Env) (s : Module) : Prop where
  control : s.control = Control.expected env s.control.pc
  reached : s.control.pc.Reached env
  online : ∀ cpu ∈ s.online, cpu < env.nrCpus.toNat
  count : s.stat.onlineCpus.toNat = if .hotplugState ∈ s.control.held then s.online.card else 0
  quiet : (∃ addr, s.control.hpThread = .valid addr) ∨
    s.files = 0 ∧ s.stat.min = 0 ∧
      (.hotplugState ∈ s.control.held ∨ s.control.pc = .cpuhpSetupState → s.stat.max = env.nrCpus)
  oops : s.oops = false

theorem Env.Upto.valid {env : Env} (h : env.Upto 3) : ∃ addr, env.kthreadRun = .valid addr := by
  have hanswer : (!isErr env.kthreadRun) = true := h 2 (by decide)
  cases hthread : env.kthreadRun with
  | null => exact absurd hthread env.kthread_ne
  | valid addr => exact ⟨addr, rfl⟩
  | err errno =>
      rw [hthread] at hanswer
      cases hanswer

/-- A device that can be opened has a thread to wake. -/
theorem Pc.thread_of_cdev {env : Env} {pc : Pc} (h : pc.Reached env) (hmem : .cdev ∈ pc.held env) :
    ∃ addr, pc.hpThread env = .valid addr := by
  have hleft : Resource.cdev ∉ env.left := by
    unfold Env.left
    split <;> decide
  cases pc with
  | classCreate | initStat | cpuhpSetupState | kthreadRun | allocChrdevRegion | kzalloc | cdevAdd
  | freeChrdev | freeChrdevRegion | exited => simp [held, heldUpto, acquired] at hmem
  | removeCpuhpState | destoryClass =>
      rcases Finset.mem_union.mp hmem with hmem | hmem
      · exact absurd hmem (by decide)
      · exact absurd hmem hleft
  | deviceCreate => exact (Env.Upto.mono h (by decide)).valid
  | removeCdev => exact (h.1.mono (by decide)).valid
  | returned ret =>
      by_cases hall : env.Upto 7
      · obtain ⟨addr, haddr⟩ := (hall.mono (show 3 ≤ 7 by decide)).valid
        exact ⟨addr, by rw [hpThread, if_pos (hall.mono (by decide)), haddr]⟩
      · rw [held, if_neg hall] at hmem
        exact absurd hmem hleft
  | deviceDestroy | cdevDel | unregisterChrdevRegion | cpuhpRemoveState | classDestroy =>
      exact (Env.Upto.mono h (by decide)).valid

theorem onlineCpus_cpuhpQosWrite (stat : CpuhpStatus) (w : QosWrite) :
    (cpuhpQosWrite stat w).2.onlineCpus = stat.onlineCpus := by
  unfold cpuhpQosWrite
  repeat' split
  all_goals rfl

namespace Module.Inv

variable {env : Env} {s t : Module}

theorem card_le (h : s.Inv env) : s.online.card ≤ env.nrCpus.toNat := by
  have hsub : s.online ⊆ Finset.range env.nrCpus.toNat := fun cpu hcpu =>
    Finset.mem_range.mpr (h.online cpu hcpu)
  simpa using Finset.card_le_card hsub

/-- As many CPUs as there are give no reason to wake the thread. -/
theorem quiet_le (h : s.Inv env) {k : ℕ} (hk : k ≤ env.nrCpus.toNat)
    (hset : .hotplugState ∈ s.control.held ∨ s.control.pc = .cpuhpSetupState) : s.Quiet k := by
  refine h.quiet.imp_right ?_
  rintro ⟨-, hmin, hmax⟩
  rw [hmax hset]
  exact ⟨hmin, hk⟩

/-- The thread stays. -/
theorem valid_next (h : s.Inv env) {c : Control} (hc : s.control.next env = some c)
    (hvalid : ∃ addr, s.control.hpThread = .valid addr) : ∃ addr, c.hpThread = .valid addr := by
  rw [Control.next_hpThread hc, if_neg]
  · exact hvalid
  · intro hpc
    obtain ⟨addr, haddr⟩ := hvalid
    rw [h.control, hpc] at haddr
    cases haddr

theorem move (h : s.Inv env) {c : Control} (hc : s.control.next env = some c) {stat : CpuhpStatus}
    (hcount : stat.onlineCpus.toNat = if .hotplugState ∈ c.held then s.online.card else 0)
    (hinit : s.control.pc = .initStat → stat.min = 0 ∧ stat.max = env.nrCpus)
    (hother : s.control.pc ≠ .initStat → stat.min = s.stat.min ∧ stat.max = s.stat.max) :
    Inv env { s with control := c, stat } := by
  have hnext := hc
  rw [h.control] at hnext
  obtain ⟨hreached, hexpected⟩ := Control.next_expected h.reached hnext
  refine ⟨hexpected, hreached, h.online, hcount, ?_, h.oops⟩
  rcases h.quiet with hvalid | ⟨hfiles, hmin, hmax⟩
  · exact .inl (h.valid_next hc hvalid)
  · -- without a thread the bounds are those of init
    by_cases hpc : s.control.pc = .initStat
    · exact .inr ⟨hfiles, (hinit hpc).1, fun _ => (hinit hpc).2⟩
    · refine .inr ⟨hfiles, (hother hpc).1.trans hmin, fun hset => (hother hpc).2.trans (hmax ?_)⟩
      rcases hset with hmem | hset
      · have hhotplug := (Control.next_hotplug hc).mp hmem
        split at hhotplug
        · exact .inr (by assumption)
        · exact hhotplug.elim
        · exact hhotplug.elim
        · exact .inl hhotplug
      · exact absurd (Control.next_pc hc hset) hpc

/-- The callbacks are removed. -/
theorem removeState (h : s.Inv env) {c : Control} (hc : s.control.next env = some c)
    (hgone : .hotplugState ∉ c.held) (hpc : s.control.pc ≠ .initStat) :
    Inv env (if .hotplugState ∈ s.control.held then
      ({ s with control := c } : Module).callbacks cpufreqHpOffline s.online.card
      else { s with control := c }) := by
  have hcount := h.count
  split
  · rename_i hmem
    rw [if_pos hmem] at hcount
    have hquiet : ({ s with control := c } : Module).Quiet s.online.card := by
      rcases h.quiet_le h.card_le (.inl hmem) with hvalid | hle
      · exact .inl (h.valid_next hc hvalid)
      · exact .inr hle
    rw [callbacks_offline hquiet hcount]
    refine h.move hc ?_ (fun h => absurd h hpc) fun _ => ⟨rfl, rfl⟩
    rw [if_neg hgone]
    rfl
  · rename_i hmem
    rw [if_neg hmem] at hcount
    refine h.move hc ?_ (fun h => absurd h hpc) fun _ => ⟨rfl, rfl⟩
    rw [if_neg hgone]
    exact hcount

/-- **The next call.** -/
theorem next (h : s.Inv env) (hnext : s.next env = some t) : t.Inv env := by
  obtain ⟨c, hc, hrest⟩ := Option.bind_eq_some_iff.mp hnext
  have hhotplug := Control.next_hotplug hc
  have hcount := h.count
  have hcard := h.card_le
  have hlt := env.nrCpus.toNat_lt
  split at hrest
  · -- the bounds are set
    rename_i hpc
    cases hrest
    simp only [hpc] at hhotplug
    refine h.move hc ?_ (fun _ => ⟨rfl, rfl⟩) fun hne => absurd hpc hne
    simp only [hhotplug]
    exact hcount
  · rename_i hpc
    have hno : .hotplugState ∉ s.control.held := by
      rw [h.control, hpc]
      simp [Control.expected, Pc.held, heldUpto, acquired]
    have hne : s.control.pc ≠ .initStat := by simp [hpc]
    simp only [hpc, hno, false_or] at hhotplug
    rw [if_neg hno] at hcount
    split at hrest
    · rename_i hneg
      cases hrest
      refine h.move hc ?_ (fun h => absurd h hne) fun _ => ⟨rfl, rfl⟩
      rw [if_neg fun hmem => hneg.not_ge (hhotplug.mp hmem)]
      exact hcount
    · rename_i hnonneg
      -- the callbacks count the CPUs that are online, from 0
      have hquiet : ({ s with control := c } : Module).Quiet (0 + s.online.card) := by
        rw [Nat.zero_add]
        rcases h.quiet_le hcard (.inr hpc) with hvalid | hle
        · exact .inl (h.valid_next hc hvalid)
        · exact .inr hle
      dsimp only at hrest
      rw [callbacks_online hquiet hcount (by omega)] at hrest
      cases hrest
      refine h.move hc ?_ (fun h => absurd h hne) fun _ => ⟨rfl, rfl⟩
      rw [if_pos (hhotplug.mpr (not_lt.mp hnonneg))]
      exact (count_withCount (s := s) (k := 0 + s.online.card) (by omega)).trans (Nat.zero_add _)
  · rename_i ret hpc
    simp only [hpc, iff_false] at hhotplug
    rw [← Option.some.inj ((apply_ite some _ _ _).trans hrest)]
    exact h.removeState hc hhotplug (by simp [hpc])
  · rename_i hpc
    simp only [hpc, iff_false] at hhotplug
    rw [← Option.some.inj ((apply_ite some _ _ _).trans hrest)]
    exact h.removeState hc hhotplug (by simp [hpc])
  · rename_i hinit hsetup hremove hexit
    cases hrest
    refine h.move hc ?_ (fun hpc => absurd hpc hinit) fun _ => ⟨rfl, rfl⟩
    split at hhotplug
    · exact absurd ‹_› hsetup
    · exact absurd ‹_› (hremove _)
    · exact absurd ‹_› hexit
    · simp only [hhotplug]
      exact hcount

/-- The CPUs change, and with them the counter while the callbacks are there. -/
theorem setOnline (h : s.Inv env) {online : Finset ℕ}
    (hmem : ∀ cpu ∈ online, cpu < env.nrCpus.toNat) {stat : CpuhpStatus}
    (hcount : stat.onlineCpus.toNat = if .hotplugState ∈ s.control.held then online.card else 0)
    (hbounds : stat.min = s.stat.min ∧ stat.max = s.stat.max) :
    Inv env { s with stat, online } := by
  refine ⟨h.control, h.reached, hmem, hcount, ?_, h.oops⟩
  refine h.quiet.imp_right ?_
  rintro ⟨hfiles, hmin, hmax⟩
  exact ⟨hfiles, hbounds.1.trans hmin, fun hset => hbounds.2.trans (hmax hset)⟩

theorem cpuUp (h : s.Inv env) {cpu : ℕ} (hnext : Module.take env s (.cpuUp cpu) = some t) :
    t.Inv env := by
  have hcount := h.count
  have hlt := env.nrCpus.toNat_lt
  simp only [take] at hnext
  split at hnext
  · rename_i hcpu
    have hmem : ∀ k ∈ insert cpu s.online, k < env.nrCpus.toNat := by
      rw [Finset.forall_mem_insert]
      exact ⟨hcpu.1, h.online⟩
    have hcard := Finset.card_insert_of_notMem hcpu.2
    have hle : (insert cpu s.online).card ≤ env.nrCpus.toNat := by
      simpa using Finset.card_le_card (t := Finset.range env.nrCpus.toNat)
        fun k hk => Finset.mem_range.mpr (hmem k hk)
    split at hnext
    · rename_i hset
      rw [if_pos hset] at hcount
      have hquiet : ({ s with online := insert cpu s.online } : Module).Quiet
          (s.online.card + 1) := h.quiet_le (hcard ▸ hle) (.inl hset)
      rw [callback_online hquiet hcount (by omega)] at hnext
      cases hnext
      refine h.setOnline hmem ?_ ⟨rfl, rfl⟩
      rw [if_pos hset, hcard]
      exact count_withCount (by omega)
    · rename_i hset
      cases hnext
      refine h.setOnline hmem ?_ ⟨rfl, rfl⟩
      rw [if_neg hset] at hcount ⊢
      exact hcount
  · cases hnext

theorem cpuDown (h : s.Inv env) {cpu : ℕ} (hnext : Module.take env s (.cpuDown cpu) = some t) :
    t.Inv env := by
  have hcount := h.count
  have hlt := env.nrCpus.toNat_lt
  have hle := h.card_le
  simp only [take] at hnext
  split at hnext
  · rename_i hcpu
    have hmem : ∀ k ∈ s.online.erase cpu, k < env.nrCpus.toNat := fun k hk =>
      h.online k (Finset.mem_of_mem_erase hk)
    have hcard := Finset.card_erase_add_one hcpu.1
    split at hnext
    · -- the counter is above 0, since it counts this CPU
      rename_i hset
      rw [if_pos hset, ← hcard] at hcount
      have hquiet : ({ s with online := s.online.erase cpu } : Module).Quiet
          (s.online.erase cpu).card := h.quiet_le (by omega) (.inl hset)
      rw [callback_offline hquiet hcount] at hnext
      cases hnext
      refine h.setOnline hmem ?_ ⟨rfl, rfl⟩
      rw [if_pos hset]
      exact count_withCount (by omega)
    · rename_i hset
      cases hnext
      refine h.setOnline hmem ?_ ⟨rfl, rfl⟩
      rw [if_neg hset] at hcount ⊢
      exact hcount
  · cases hnext

/-- Once there is a thread, the files and the bounds are free. -/
theorem setFiles (h : s.Inv env) (hvalid : ∃ addr, s.control.hpThread = .valid addr) (files : ℕ)
    {stat : CpuhpStatus} (hstat : stat.onlineCpus = s.stat.onlineCpus) :
    Inv env { s with files, stat } :=
  ⟨h.control, h.reached, h.online, hstat ▸ h.count, .inl hvalid, h.oops⟩

theorem unload (h : s.Inv env) (hnext : Module.take env s .unload = some t) : t.Inv env := by
  simp only [take] at hnext
  split at hnext
  · rename_i hpc
    cases hnext
    have hreached := h.reached
    have hcontrol := h.control
    rw [hpc.1] at hreached hcontrol
    have hupto : env.Upto 6 := hreached.mp rfl
    have hthread : s.control.hpThread = env.kthreadRun := by
      rw [hcontrol]
      exact if_pos (hupto.mono (by decide))
    refine ⟨?_, hupto, h.online, h.count, .inl ?_, h.oops⟩
    · rw [hcontrol]
      simp [Control.goto, Control.expected,
        hupto.mono (show 2 ≤ 6 by decide)]
    · exact hthread ▸ (hupto.mono (by decide)).valid
  · cases hnext

end Module.Inv

theorem Module.Inv.take {env : Env} {s t : Module} (h : s.Inv env) {e : Event}
    (hnext : Module.take env s e = some t) : t.Inv env := by
  cases e with
  | next => exact h.next hnext
  | unload => exact h.unload hnext
  | cpuUp cpu => exact h.cpuUp hnext
  | cpuDown cpu => exact h.cpuDown hnext
  | openFile =>
      simp only [Module.take] at hnext
      split at hnext
      · rename_i hmem
        cases hnext
        rw [h.control] at hmem
        exact h.setFiles (h.control ▸ Pc.thread_of_cdev h.reached hmem.1) _ rfl
      · cases hnext
  | closeFile =>
      simp only [Module.take] at hnext
      split at hnext
      · rename_i hfiles
        cases hnext
        refine h.setFiles ?_ _ rfl
        exact h.quiet.resolve_right fun hquiet => hfiles.ne' hquiet.1
      · cases hnext
  | write w =>
      simp only [Module.take] at hnext
      split at hnext
      · rename_i hfiles
        have hvalid := h.quiet.resolve_right fun hquiet => hfiles.ne' hquiet.1
        have hstat := onlineCpus_cpuhpQosWrite s.stat w
        rw [Module.wakeUp_valid (s := { s with stat := (cpuhpQosWrite s.stat w).2 }) hvalid,
          ite_self] at hnext
        cases hnext
        exact h.setFiles hvalid s.files hstat
      · cases hnext

theorem reachable_inv {env : Env} {s : Module} (h : Reachable (cpuhpModule env).system s) :
    s.Inv env := by
  refine EventSystem.invariant ?_ (fun _ _ _ hs _ he => hs.take he) h
  rintro s ⟨hcontrol, hstat, honline, hfiles, hoops⟩
  constructor
  · rw [hcontrol]
    rfl
  · rw [hcontrol]
    trivial
  · exact honline
  · rw [hcontrol, hstat]
    rfl
  · refine .inr ⟨hfiles, by rw [hstat], ?_⟩
    rw [hcontrol]
    simp
  · exact hoops

theorem mem_held_returned {env : Env} (ret : ℤ) {r : Resource} :
    r ∈ (Pc.returned ret).held env ↔ env.Upto 7 ∨ r = .thread ∧ env.Upto 3 := by
  rw [Pc.held]
  split
  · rename_i hall
    have hmem : r ∈ heldUpto 7 := by cases r <;> decide
    exact iff_of_true hmem (.inl hall)
  · rename_i hfail
    unfold Env.left
    split <;> simp [*]

/-! ### Completion -/

/-- How many calls follow at most. -/
def Pc.rank : Pc → ℕ
  | .classCreate => 13
  | .initStat => 12
  | .cpuhpSetupState => 11
  | .kthreadRun => 10
  | .allocChrdevRegion => 9
  | .kzalloc => 8
  | .cdevAdd => 7
  | .deviceCreate => 6
  | .removeCdev _ | .deviceDestroy => 5
  | .freeChrdev _ | .cdevDel => 4
  | .freeChrdevRegion _ | .unregisterChrdevRegion => 3
  | .removeCpuhpState _ | .cpuhpRemoveState => 2
  | .destoryClass _ | .classDestroy => 1
  | .returned _ | .exited => 0

theorem Control.next_rank {env : Env} {c d : Control} (h : c.next env = some d) :
    d.pc.rank < c.pc.rank := by
  unfold next at h
  split at h <;> (try split at h) <;> cases h <;> simp only [goto, Pc.rank, *] <;> decide

theorem Control.next_eq_none {env : Env} {c : Control} (h : c.next env = none) :
    (∃ ret, c.pc = .returned ret) ∨ c.pc = .exited := by
  unfold next at h
  split at h <;> (try split at h) <;> first | exact .inl ⟨_, ‹_›⟩ | exact .inr ‹_› | cases h

theorem Module.wakeUp_control (s : Module) : s.wakeUp.control = s.control := by
  unfold wakeUp
  split <;> rfl

theorem Module.callback_control (s : Module) (r : CpuhpStatus × Bool) :
    (s.callback r).control = s.control := by
  unfold callback
  split
  · exact wakeUp_control _
  · rfl

theorem Module.callbacks_control (s : Module) (f : CpuhpStatus → CpuhpStatus × Bool) (n : ℕ) :
    (s.callbacks f n).control = s.control := by
  induction n generalizing s with
  | zero => rfl
  | succ n ih => rw [callbacks, ih, callback_control]

theorem Module.next_of_control {env : Env} {s : Module} {c : Control}
    (h : s.control.next env = some c) : ∃ t, s.next env = some t ∧ t.control = c := by
  simp only [Module.next, h, Option.bind_eq_bind, Option.bind_some]
  repeat' split
  all_goals exact ⟨_, rfl, by first | rfl | rw [callbacks_control]⟩

/-- Init returns and exit ends, by induction on the calls that may follow. -/
theorem cpuhp_completes (env : Env) (s : Module) :
    ∃ n t, (cpuhpModule env).run s (List.replicate n .next) = some t ∧
      ((∃ ret, t.control.pc = .returned ret) ∨ t.control.pc = .exited) := by
  induction hrank : s.control.pc.rank using Nat.strong_induction_on generalizing s with
  | _ k ih =>
      cases hnext : s.control.next env with
      | none => exact ⟨0, s, rfl, Control.next_eq_none hnext⟩
      | some c =>
          obtain ⟨t, ht, hc⟩ := Module.next_of_control hnext
          have hlt : t.control.pc.rank < k := by
            rw [hc, ← hrank]
            exact Control.next_rank hnext
          obtain ⟨n, u, hrun, hend⟩ := ih _ hlt t rfl
          exact ⟨n + 1, u, EventSystem.run_cons ht hrun, hend⟩

/-! ### Main results -/

/-- A kernel that cannot create the device. -/
def noDevice : Env where
  nrCpus := 4
  classCreate := .valid 1
  class_ne := by decide
  cpuhpSetupState := 0
  kthreadRun := .valid 2
  kthread_ne := by decide
  allocChrdevRegion := 0
  kzalloc := true
  cdevAdd := 0
  deviceCreate := .err 12

/-- Two CPUs are online. -/
def beforeInit : Module :=
  ⟨⟨.classCreate, ∅, [], .null, .null, false⟩, ⟨0, 0, 0⟩, {0, 1}, 0, false⟩

theorem beforeInit_init : (cpuhpModule noDevice).init beforeInit :=
  ⟨rfl, rfl, by decide, rfl, rfl⟩

/-- **Counting.**  The counter holds the number of CPUs that are online as long as
the callbacks are registered, and no wake-up comes without a thread. -/
theorem cpuhp_counts {env : Env} {s : Module} (h : Reachable (cpuhpModule env).system s) :
    s.oops = false ∧
      s.stat.onlineCpus.toNat = if .hotplugState ∈ s.control.held then s.online.card else 0 :=
  ⟨(reachable_inv h).oops, (reachable_inv h).count⟩

/-- A CPU comes online before there is a thread, and one goes offline after. -/
theorem cpuhp_counts_noDevice :
    ∃ s, (cpuhpModule noDevice).run beforeInit
        [.next, .next, .next, .cpuUp 3, .next, .cpuDown 0] = some s ∧
      s.oops = false ∧ s.stat.onlineCpus.toNat = 2 := by
  have hrun : (cpuhpModule noDevice).run beforeInit
      [.next, .next, .next, .cpuUp 3, .next, .cpuDown 0] = some _ := rfl
  have hcounts := cpuhp_counts (EventSystem.reachable_run (.init beforeInit_init)
    (fun _ _ _ => trivial) hrun)
  exact ⟨_, hrun, hcounts.1, hcounts.2.trans rfl⟩

/-- **What stays.**  Init leaves everything or, after a failure, the thread that it
started; it returns 0 also when it could not create the device.  Exit never stops
the thread, and after such an init it releases twice. -/
theorem cpuhp_leaves {env : Env} {s : Module} (h : Reachable (cpuhpModule env).system s) :
    (∀ ret, s.control.pc = .returned ret →
      (∀ r, r ∈ s.control.held ↔ env.Upto 7 ∨ r = .thread ∧ env.Upto 3) ∧
      (ret = 0 ↔ env.Upto 6)) ∧
    (s.control.pc = .exited →
      s.control.held = {.thread} ∧
      s.control.strays = if env.Upto 7 then [] else [.chrdevRegion, .hotplugState]) := by
  have hcontrol := (reachable_inv h).control
  have hreached := (reachable_inv h).reached
  constructor
  · intro ret hpc
    rw [hpc] at hcontrol hreached
    refine ⟨fun r => ?_, hreached⟩
    rw [hcontrol]
    exact mem_held_returned ret
  · intro hpc
    rw [hpc] at hcontrol
    rw [hcontrol]
    exact ⟨rfl, rfl⟩

theorem cpuhp_leaves_noDevice :
    ∃ s, (cpuhpModule noDevice).run beforeInit
        (List.replicate 13 .next ++ .unload :: List.replicate 5 .next) = some s ∧
      s.control.held = {.thread} ∧ s.control.strays = [.chrdevRegion, .hotplugState] := by
  have hrun : (cpuhpModule noDevice).run beforeInit
      (List.replicate 13 .next ++ .unload :: List.replicate 5 .next) = some _ := rfl
  have hleaves := (cpuhp_leaves (EventSystem.reachable_run (.init beforeInit_init)
    (fun _ _ _ => trivial) hrun)).2 rfl
  exact ⟨_, hrun, hleaves.1, hleaves.2.trans (by decide)⟩

end CpuhpModule

end CodeSnippet
