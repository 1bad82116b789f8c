/-
CodeSnippet/CpufreqQos.lean

Loading and unloading src/kernel_module/qos/cpufreq-qos.c: the resources that
`cpu_freq_qos_drv_init` acquires for every present CPU, what it releases when a
step fails, and what `cpu_freq_qos_drv_exit` releases.

Two ledgers record the calls: one for the policies, which are counted
references, and one for everything else.

Main results:
  * `initCpus_error` — where the loop over the CPUs can fail.
  * `removeCpus_resources` — what the loop that undoes it releases.
  * `never_undone` — no failing init undoes exactly what it did.
-/
import CodeSnippet.Ledger

namespace CodeSnippet

variable {P : Type}

/-! ### The module -/

/-- A pointer that may hold an error number; `err errno` is `ERR_PTR(-errno)`. -/
inductive ErrPtr
  | null
  | valid (addr : ℤ)
  | err (errno : ℕ+)
  deriving DecidableEq

def isErr : ErrPtr → Bool
  | .err _ => true
  | _ => false

def ptrErr : ErrPtr → ℤ
  | .null => 0
  | .valid addr => addr
  | .err errno => -(errno : ℤ)

/-- `cpu_present_mask`. -/
structure CpuMask where
  cpus : List ℕ
  nodup : cpus.Nodup

/-- Everything but policies that the module acquires and releases; a region of
device numbers is given by its first minor number. -/
inductive QosResource
  | cls
  | chrdevRegion (minor : ℕ)
  | notifier
  | cdev (cpu : ℕ)
  | device (cpu : ℕ)
  | symlink (cpu : ℕ)
  deriving DecidableEq

/-- The present CPUs, the module parameter `dev_minor`, and what the kernel
answers to the calls of `cpu_freq_qos_drv_init`.  A policy is given by its
pointer, of type `P`. -/
structure CpufreqEnv (P : Type) where
  present : CpuMask
  devMinor : ℕ
  classCreate : ErrPtr
  allocChrdevRegion : ℤ
  cpufreqRegisterNotifier : ℤ
  cpufreqCpuGet : ℕ → Option P
  cdevAdd : ℕ → ℤ
  deviceCreate : ℕ → ErrPtr
  getCpuDevice : ℕ → Bool
  sysfsCreateLink : ℕ → ℤ

/-- The fields `policy` and `dev` of the per-CPU data, `cpufreq_qos_class`, and
the ledgers. -/
structure CpufreqQos (P : Type) where
  policy : ℕ → Option P
  dev : ℕ → ErrPtr
  cpufreqQosClass : ErrPtr
  resources : Ledger QosResource
  policies : Ledger (Option P)

namespace CpufreqQos

def acquire (st : CpufreqQos P) (r : QosResource) : CpufreqQos P :=
  { st with resources := st.resources.acquire r }

def release (st : CpufreqQos P) (r : QosResource) : CpufreqQos P :=
  { st with resources := st.resources.release r }

/-- `cpu_data->policy = cpufreq_cpu_get(cpu)`; NULL is no reference. -/
def getPolicy (st : CpufreqQos P) (cpu : ℕ) (p : Option P) : CpufreqQos P :=
  { st with
    policy := Function.update st.policy cpu p
    policies := if p.isSome then st.policies.acquire p else st.policies }

/-- `if (cpufreq_qos_class) { class_destroy(cpufreq_qos_class); ... }`. -/
def destroyClass (st : CpufreqQos P) : CpufreqQos P :=
  if st.cpufreqQosClass = .null then st
  else { st.release .cls with cpufreqQosClass := .null }

/-- `cpufreq_cpu_put(cpu_data->policy); cpu_data->policy = NULL`. -/
def putPolicy (st : CpufreqQos P) (cpu : ℕ) : CpufreqQos P :=
  { st with
    policy := Function.update st.policy cpu none
    policies := st.policies.release (st.policy cpu) }

end CpufreqQos

def addCpuDevSymlink (env : CpufreqEnv P) (st : CpufreqQos P) (cpu : ℕ) : CpufreqQos P :=
  if env.getCpuDevice cpu = false then st
  else if env.sysfsCreateLink cpu ≠ 0 then st
  else st.acquire (.symlink cpu)

def removeCpuDevSymlink (st : CpufreqQos P) (cpu : ℕ) : CpufreqQos P :=
  st.release (.symlink cpu)

/-- The body of the loop over the present CPUs.  An error comes with the value
of `ret`. -/
def initCpu (env : CpufreqEnv P) (st : CpufreqQos P) (cpu : ℕ) :
    Except (ℤ × CpufreqQos P) (CpufreqQos P) :=
  let st := st.getPolicy cpu (env.cpufreqCpuGet cpu)
  let ret := env.cdevAdd cpu
  if ret ≠ 0 then .error (ret, st)
  else
    let st := st.acquire (.cdev cpu)
    let st := { st with dev := Function.update st.dev cpu (env.deviceCreate cpu) }
    if isErr (st.dev cpu) then
      -- `dev` is cleared before it is asked for the error
      let st := { st with dev := Function.update st.dev cpu .null }
      .error (ptrErr (st.dev cpu), st)
    else
      .ok (addCpuDevSymlink env (st.acquire (.device cpu)) cpu)

def initCpus (env : CpufreqEnv P) (st : CpufreqQos P) (cpus : List ℕ) :
    Except (ℤ × CpufreqQos P) (CpufreqQos P) :=
  cpus.foldlM (initCpu env) st

/-- The body of the loops behind the label `FAIL` and in
`cpu_freq_qos_drv_exit`. -/
def removeCpuData (st : CpufreqQos P) (cpu : ℕ) : CpufreqQos P :=
  let st := removeCpuDevSymlink st cpu
  let st := st.release (.device cpu)
  let st := st.release (.cdev cpu)
  st.putPolicy cpu

def removeCpus (st : CpufreqQos P) (cpus : List ℕ) : CpufreqQos P := cpus.foldl removeCpuData st

/-- The return value and the state. -/
def cpuFreqQosDrvInit (env : CpufreqEnv P) (st : CpufreqQos P) : ℤ × CpufreqQos P :=
  if isErr env.classCreate then (ptrErr env.classCreate, st)
  else
    let st := { st.acquire .cls with cpufreqQosClass := env.classCreate }
    let ret := env.allocChrdevRegion
    if ret < 0 then (ret, st.destroyClass)
    else
      let st := st.acquire (.chrdevRegion env.devMinor)
      let ret := env.cpufreqRegisterNotifier
      if ret ≠ 0 then (ret, (st.release .notifier).destroyClass)
      else
        let st := st.acquire .notifier
        match initCpus env st env.present.cpus with
        | .ok st => (0, st)
        | .error (ret, st) =>
            let st := removeCpus st env.present.cpus
            (ret, ((st.release (.chrdevRegion 0)).release .notifier).destroyClass)

/-- The major number is not 0 after an init that got a region.  `devno` is left by the
loop at the last CPU. -/
def cpuFreqQosDrvExit (present : CpuMask) (st : CpufreqQos P) : CpufreqQos P :=
  let st := removeCpus st present.cpus
  let devno := present.cpus.getLast?.getD 0
  ((st.release .notifier).release (.chrdevRegion devno)).destroyClass

/-- The module before it is loaded. -/
def CpufreqQos.unloaded : CpufreqQos P := ⟨fun _ => none, fun _ => .null, .null, .blank, .blank⟩

/-! ### The loops over the CPUs -/

theorem initCpus_cons (env : CpufreqEnv P) (st : CpufreqQos P) (cpu : ℕ) (cpus : List ℕ) :
    initCpus env st (cpu :: cpus) = (initCpu env st cpu).bind fun st => initCpus env st cpus := by
  rw [initCpus, List.foldlM_cons]
  rfl

theorem removeCpus_cons (st : CpufreqQos P) (cpu : ℕ) (cpus : List ℕ) :
    removeCpus st (cpu :: cpus) = removeCpus (removeCpuData st cpu) cpus := rfl

theorem initCpu_addFails {env : CpufreqEnv P} {cpu : ℕ} (h : env.cdevAdd cpu ≠ 0)
    (st : CpufreqQos P) :
    initCpu env st cpu = .error (env.cdevAdd cpu, st.getPolicy cpu (env.cpufreqCpuGet cpu)) := by
  simp [initCpu, h]

/-- The error of `device_create` is lost. -/
theorem initCpu_createFails {env : CpufreqEnv P} {cpu : ℕ} (hadd : env.cdevAdd cpu = 0)
    (h : isErr (env.deviceCreate cpu) = true) (st : CpufreqQos P) :
    ∃ st', initCpu env st cpu = .error (0, st') := by
  simp [initCpu, hadd, h, ptrErr]

/-- The state after a body that meets no error. -/
def addedCpu (env : CpufreqEnv P) (st : CpufreqQos P) (cpu : ℕ) : CpufreqQos P :=
  let st := (st.getPolicy cpu (env.cpufreqCpuGet cpu)).acquire (.cdev cpu)
  let st := { st with dev := Function.update st.dev cpu (env.deviceCreate cpu) }
  addCpuDevSymlink env (st.acquire (.device cpu)) cpu

theorem initCpu_ok {env : CpufreqEnv P} {cpu : ℕ} (hadd : env.cdevAdd cpu = 0)
    (h : isErr (env.deviceCreate cpu) = false) (st : CpufreqQos P) :
    initCpu env st cpu = .ok (addedCpu env st cpu) := by
  simp [initCpu, hadd, h, addedCpu]

theorem addedCpu_policy (env : CpufreqEnv P) (st : CpufreqQos P) (cpu : ℕ) :
    (addedCpu env st cpu).policy = Function.update st.policy cpu (env.cpufreqCpuGet cpu) ∧
      (addedCpu env st cpu).policies = (st.getPolicy cpu (env.cpufreqCpuGet cpu)).policies := by
  unfold addedCpu addCpuDevSymlink
  split
  · exact ⟨rfl, rfl⟩
  · split <;> exact ⟨rfl, rfl⟩

theorem addedCpu_acquired (env : CpufreqEnv P) (st : CpufreqQos P) (cpu : ℕ) :
    ∃ links, (links = [] ∨ links = [.symlink cpu]) ∧ (addedCpu env st cpu).resources =
      ⟨st.resources.acquired ++ [.cdev cpu, .device cpu] ++ links, st.resources.released⟩ := by
  unfold addedCpu addCpuDevSymlink
  split
  · exact ⟨[], .inl rfl, by simp [CpufreqQos.acquire, CpufreqQos.getPolicy, Ledger.acquire]⟩
  · split
    · exact ⟨[], .inl rfl, by simp [CpufreqQos.acquire, CpufreqQos.getPolicy, Ledger.acquire]⟩
    · exact ⟨[.symlink cpu], .inr rfl,
        by simp [CpufreqQos.acquire, CpufreqQos.getPolicy, Ledger.acquire]⟩

/-- No step of the body for a CPU fails. -/
def CpufreqEnv.Adds (env : CpufreqEnv P) (cpu : ℕ) : Prop :=
  env.cdevAdd cpu = 0 ∧ isErr (env.deviceCreate cpu) = false

/-- When the loop fails, it is at a CPU whose `cdev_add` fails, whose `cdev` is
then not acquired, or the return value is 0. -/
theorem initCpus_error {env : CpufreqEnv P} {cpus : List ℕ} (hnodup : cpus.Nodup)
    (hfails : ∃ cpu ∈ cpus, ¬ env.Adds cpu) (st : CpufreqQos P) :
    ∃ ret st', initCpus env st cpus = .error (ret, st') ∧ (ret = 0 ∨ ∃ cpu ∈ cpus,
      st'.resources.acquired.count (.cdev cpu) = st.resources.acquired.count (.cdev cpu) ∧
      st'.resources.released = st.resources.released) := by
  induction cpus generalizing st with
  | nil =>
      obtain ⟨cpu, hmem, -⟩ := hfails
      cases hmem
  | cons cpu cpus ih =>
      rw [initCpus_cons]
      obtain ⟨hnotMem, hrest⟩ := List.nodup_cons.mp hnodup
      by_cases hadd : env.cdevAdd cpu = 0
      · rcases herr : isErr (env.deviceCreate cpu) with _ | _
        · -- this CPU is fine, another one is not
          have hfails' : ∃ cpu ∈ cpus, ¬ env.Adds cpu := by
            obtain ⟨c, hmem, hc⟩ := hfails
            rcases List.mem_cons.mp hmem with rfl | hmem
            · exact absurd ⟨hadd, herr⟩ hc
            · exact ⟨c, hmem, hc⟩
          obtain ⟨ret, st', hrun, hret⟩ := ih hrest hfails' (addedCpu env st cpu)
          rw [initCpu_ok hadd herr]
          refine ⟨ret, st', hrun, hret.imp_right ?_⟩
          rintro ⟨c, hmem, hcount, hreleased⟩
          obtain ⟨links, hlinks, hres⟩ := addedCpu_acquired env st cpu
          rw [hres] at hcount hreleased
          refine ⟨c, List.mem_cons_of_mem _ hmem, ?_, hreleased⟩
          have hne : cpu ≠ c := by
            rintro rfl
            exact hnotMem hmem
          rw [hcount]
          rcases hlinks with rfl | rfl <;> simp [hne]
        · obtain ⟨st', hrun⟩ := initCpu_createFails hadd herr st
          rw [hrun]
          exact ⟨0, st', rfl, .inl rfl⟩
      · rw [initCpu_addFails hadd]
        exact ⟨_, _, rfl, .inr ⟨cpu, List.mem_cons_self, rfl, rfl⟩⟩

/-- What the cleanup of one loop releases. -/
def removalOf (cpu : ℕ) : List QosResource := [.symlink cpu, .device cpu, .cdev cpu]

theorem removeCpus_resources (st : CpufreqQos P) (cpus : List ℕ) :
    (removeCpus st cpus).resources =
      ⟨st.resources.acquired, st.resources.released ++ cpus.flatMap removalOf⟩ := by
  induction cpus generalizing st with
  | nil => simp [removeCpus]
  | cons cpu cpus ih =>
      rw [removeCpus_cons, ih]
      simp [removeCpuData, removeCpuDevSymlink, CpufreqQos.release, CpufreqQos.putPolicy,
        Ledger.release, removalOf]

theorem count_cdev_flatMap {cpus : List ℕ} (hnodup : cpus.Nodup) {cpu : ℕ} (hmem : cpu ∈ cpus) :
    (cpus.flatMap removalOf).count (.cdev cpu) = 1 := by
  induction cpus with
  | nil => cases hmem
  | cons c cpus ih =>
      obtain ⟨hnotMem, hrest⟩ := List.nodup_cons.mp hnodup
      rw [List.flatMap_cons, List.count_append]
      by_cases e : c = cpu
      · subst e
        have hzero : (cpus.flatMap removalOf).count (.cdev c) = 0 := by
          apply List.count_eq_zero_of_not_mem
          simp [removalOf, hnotMem]
        rw [hzero]
        simp [removalOf]
      · have hmem' := (List.mem_cons.mp hmem).resolve_left fun h => e h.symm
        rw [ih hrest hmem']
        simp [removalOf, e]

theorem destroyClass_policies (st : CpufreqQos P) :
    st.destroyClass.policy = st.policy ∧ st.destroyClass.policies = st.policies := by
  unfold CpufreqQos.destroyClass
  split <;> exact ⟨rfl, rfl⟩

theorem destroyClass_acquired (st : CpufreqQos P) :
    st.destroyClass.resources.acquired = st.resources.acquired := by
  unfold CpufreqQos.destroyClass
  split <;> rfl

theorem destroyClass_released (st : CpufreqQos P) {r : QosResource} (h : r ≠ .cls) :
    st.destroyClass.resources.released.count r = st.resources.released.count r := by
  unfold CpufreqQos.destroyClass
  split
  · rfl
  · simp [CpufreqQos.release, h.symm]

/-- The module when init has created the class. -/
def classCreated (env : CpufreqEnv P) : CpufreqQos P :=
  { CpufreqQos.unloaded.acquire .cls with cpufreqQosClass := env.classCreate }

/-- The module when init has registered the notifier. -/
def beforeLoop (env : CpufreqEnv P) : CpufreqQos P :=
  ((classCreated env).acquire (.chrdevRegion env.devMinor)).acquire .notifier

/-- What init does after the label `FAIL`. -/
def afterFail (env : CpufreqEnv P) (st : CpufreqQos P) : CpufreqQos P :=
  (((removeCpus st env.present.cpus).release (.chrdevRegion 0)).release .notifier).destroyClass

theorem cpuFreqQosDrvInit_loop {env : CpufreqEnv P} (hcls : isErr env.classCreate = false)
    (hregion : 0 ≤ env.allocChrdevRegion) (hnotifier : env.cpufreqRegisterNotifier = 0) :
    cpuFreqQosDrvInit env .unloaded = match initCpus env (beforeLoop env) env.present.cpus with
      | .ok st => (0, st)
      | .error (ret, st) => (ret, afterFail env st) := by
  simp only [cpuFreqQosDrvInit, hcls, hnotifier, not_lt.mpr hregion, ne_eq, not_true_eq_false,
    if_false, Bool.false_eq_true]
  rfl

/-! ### Failing inits -/

/-- A failing init undoes exactly what it did: it returns a negative error, and
the resources and policies that it released are those that it had acquired.  A
link may be missing, but is only removed where there is a device. -/
structure CpufreqQos.Undone (ret : ℤ) (st : CpufreqQos P) : Prop where
  negative : ret < 0
  cdev : ∀ cpu, st.resources.released.count (.cdev cpu) = st.resources.acquired.count (.cdev cpu)
  device : ∀ cpu,
    st.resources.released.count (.device cpu) = st.resources.acquired.count (.device cpu)
  symlink : ∀ cpu,
    st.resources.released.count (.symlink cpu) ≤ st.resources.acquired.count (.device cpu)
  notifier : st.resources.released.count .notifier = st.resources.acquired.count .notifier
  region : ∀ minor, st.resources.released.count (.chrdevRegion minor) =
    st.resources.acquired.count (.chrdevRegion minor)
  cls : st.resources.released.count .cls = st.resources.acquired.count .cls
  policies : st.policies.Balanced

/-- The notifier is not registered, or some step fails for some present CPU. -/
structure CpufreqEnv.Fails (env : CpufreqEnv P) : Prop where
  cls : isErr env.classCreate = false
  region : 0 ≤ env.allocChrdevRegion
  step : env.cpufreqRegisterNotifier ≠ 0 ∨ ∃ cpu ∈ env.present.cpus, ¬ env.Adds cpu

/-- **No failing init undoes exactly what it did.**  A notifier that could not
be registered is unregistered; a CPU whose `cdev_add` failed gets a `cdev_del`;
and a failing `device_create` makes init return 0. -/
theorem never_undone (env : CpufreqEnv P) (h : env.Fails) :
    ¬ CpufreqQos.Undone (cpuFreqQosDrvInit env .unloaded).1 (cpuFreqQosDrvInit env .unloaded).2 := by
  obtain ⟨hcls, hregion, hstep⟩ := h
  intro hundone
  by_cases hnotifier : env.cpufreqRegisterNotifier = 0
  · -- the loop fails: the cleanup goes over all present CPUs
    have hfails := hstep.resolve_left (not_not_intro hnotifier)
    obtain ⟨ret, st, hrun, hret⟩ := initCpus_error env.present.nodup hfails (beforeLoop env)
    rw [cpuFreqQosDrvInit_loop hcls hregion hnotifier, hrun] at hundone
    rcases hret with rfl | ⟨cpu, hmem, hacquired, hreleased⟩
    · -- the error of `device_create` was lost
      exact absurd hundone.negative (lt_irrefl 0)
    · -- this CPU's `cdev` was not added, but is deleted
      have hcount : (afterFail env st).resources.released.count (.cdev cpu) =
        (afterFail env st).resources.acquired.count (.cdev cpu) := hundone.cdev cpu
      rw [afterFail, destroyClass_released _ (by simp), destroyClass_acquired] at hcount
      simp only [CpufreqQos.release, removeCpus_resources, Ledger.release, List.count_append,
        hacquired, hreleased, count_cdev_flatMap env.present.nodup hmem] at hcount
      simp [beforeLoop, classCreated, CpufreqQos.unloaded, CpufreqQos.acquire, Ledger.acquire,
        Ledger.blank] at hcount
  · -- the notifier was not registered, but is unregistered
    have hinit : cpuFreqQosDrvInit env .unloaded = (env.cpufreqRegisterNotifier,
        (((classCreated env).acquire (.chrdevRegion env.devMinor)).release
          .notifier).destroyClass) := by
      simp only [cpuFreqQosDrvInit, hcls, hnotifier, not_lt.mpr hregion, ne_eq, not_false_eq_true,
        if_true, if_false, Bool.false_eq_true]
      rfl
    rw [hinit] at hundone
    have hcount := hundone.notifier
    rw [destroyClass_released _ (by simp), destroyClass_acquired] at hcount
    simp [classCreated, CpufreqQos.unloaded, CpufreqQos.acquire, CpufreqQos.release, Ledger.acquire,
      Ledger.release, Ledger.blank] at hcount

/-- One CPU, for which `cdev_add` answers `cdevAdd` and `device_create` answers
`deviceCreate`. -/
def oneCpu (cdevAdd : ℤ) (deviceCreate : ErrPtr) : CpufreqEnv ℕ where
  present := ⟨[0], List.nodup_singleton 0⟩
  devMinor := 0
  classCreate := .valid 1
  allocChrdevRegion := 0
  cpufreqRegisterNotifier := 0
  cpufreqCpuGet := fun _ => some 0
  cdevAdd := fun _ => cdevAdd
  deviceCreate := fun _ => deviceCreate
  getCpuDevice := fun _ => true
  sysfsCreateLink := fun _ => 0

/-- `never_undone` where `cdev_add` returns `-ENOMEM`. -/
theorem never_undone_addFails : (oneCpu (-12) (.valid 1)).Fails ∧
    ¬ CpufreqQos.Undone (cpuFreqQosDrvInit (oneCpu (-12) (.valid 1)) .unloaded).1
      (cpuFreqQosDrvInit (oneCpu (-12) (.valid 1)) .unloaded).2 := by
  have h : (oneCpu (-12) (.valid 1)).Fails :=
    ⟨rfl, le_refl 0, .inr ⟨0, List.mem_singleton_self 0, fun h => absurd h.1 (by decide)⟩⟩
  exact ⟨h, never_undone _ h⟩

/-- Where `device_create` returns `-ENOMEM`, init returns 0. -/
theorem not_undone : ¬ ∀ env : CpufreqEnv ℕ, env.Fails →
    CpufreqQos.Undone (cpuFreqQosDrvInit env .unloaded).1 (cpuFreqQosDrvInit env .unloaded).2 := by
  intro h
  have hfails : (oneCpu 0 (.err 12)).Fails :=
    ⟨rfl, le_refl 0, .inr ⟨0, List.mem_singleton_self 0, fun h => absurd h.2 (by decide)⟩⟩
  have hret : (cpuFreqQosDrvInit (oneCpu 0 (.err 12)) .unloaded).1 = 0 := rfl
  have hnegative := (h _ hfails).negative
  rw [hret] at hnegative
  exact lt_irrefl 0 hnegative

end CodeSnippet
