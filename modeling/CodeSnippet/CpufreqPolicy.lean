/-
CodeSnippet/CpufreqPolicy.lean

The policies that src/kernel_module/qos/cpufreq-qos.c holds from a successful
init to exit.  Init takes a reference for every present CPU; the notifier
`perf_qos_adjust_notify` overwrites or clears the pointers that init has stored,
without touching a reference; exit puts what it finds in the pointers.

Main results:
  * `deliverAll_policy` — the pointer that a sequence of notifications leaves.
  * `removeCpus_policies` — the puts are those of the pointers.
  * `policies_balanced_iff` — when every reference is given back once.
-/
import CodeSnippet.CpufreqQos

namespace CodeSnippet

variable {P : Type}

/-! ### The notifier -/

inductive CpufreqEvent
  | createPolicy
  | removePolicy
  deriving DecidableEq

/-- A call of the notifier: the event, the policy and its `related_cpus`. -/
structure PolicyNotification (P : Type) where
  event : CpufreqEvent
  policy : P
  relatedCpus : CpuMask

def notifyOk : ℤ := 1

/-- The body of the loop over the related CPUs. -/
def adjustPolicy (n : PolicyNotification P) (st : CpufreqQos P) (cpu : ℕ) : CpufreqQos P :=
  match n.event with
  | .createPolicy => { st with policy := Function.update st.policy cpu (some n.policy) }
  | .removePolicy => { st with policy := Function.update st.policy cpu none }

/-- The return value and the state. -/
def perfQosAdjustNotify (st : CpufreqQos P) (n : PolicyNotification P) : ℤ × CpufreqQos P :=
  (notifyOk, n.relatedCpus.cpus.foldl (adjustPolicy n) st)

/-- The notifier is registered. -/
def CpufreqQos.Listening (st : CpufreqQos P) : Prop :=
  st.resources.released.count .notifier < st.resources.acquired.count .notifier

instance (st : CpufreqQos P) : Decidable st.Listening := Nat.decLt _ _

/-- The kernel calls the notifiers that are registered. -/
def deliver (st : CpufreqQos P) (n : PolicyNotification P) : CpufreqQos P :=
  if st.Listening then (perfQosAdjustNotify st n).2 else st

def deliverAll (st : CpufreqQos P) (ns : List (PolicyNotification P)) : CpufreqQos P :=
  ns.foldl deliver st

/-- Init, the notifications, exit. -/
def cpufreqLifetime (env : CpufreqEnv P) (ns : List (PolicyNotification P)) : CpufreqQos P :=
  cpuFreqQosDrvExit env.present (deliverAll (cpuFreqQosDrvInit env .unloaded).2 ns)

/-! ### What the notifications leave -/

/-- What a notification stores for the CPUs it covers. -/
def PolicyNotification.stored (n : PolicyNotification P) : Option P :=
  match n.event with
  | .createPolicy => some n.policy
  | .removePolicy => none

/-- The policy that init got for a CPU, unless a notification covers the CPU;
the last one that does decides. -/
def leftPolicy (env : CpufreqEnv P) (ns : List (PolicyNotification P)) (cpu : ℕ) : Option P :=
  match ns.reverse.find? fun n => decide (cpu ∈ n.relatedCpus.cpus) with
  | some n => n.stored
  | none => env.cpufreqCpuGet cpu

theorem adjustPolicy_eq (n : PolicyNotification P) (st : CpufreqQos P) (cpu : ℕ) :
    adjustPolicy n st cpu = { st with policy := Function.update st.policy cpu n.stored } := by
  unfold adjustPolicy PolicyNotification.stored
  cases n.event <;> rfl

theorem foldl_adjustPolicy (n : PolicyNotification P) (cpus : List ℕ) (st : CpufreqQos P) :
    cpus.foldl (adjustPolicy n) st =
      { st with policy := fun cpu => if cpu ∈ cpus then n.stored else st.policy cpu } := by
  induction cpus generalizing st with
  | nil => simp
  | cons c cpus ih =>
      rw [List.foldl_cons, ih, adjustPolicy_eq]
      congr 1
      funext cpu
      by_cases e : cpu = c
      · subst e
        simp
      · simp [e]

theorem deliver_eq {st : CpufreqQos P} (h : st.Listening) (n : PolicyNotification P) :
    deliver st n = { st with
      policy := fun cpu => if cpu ∈ n.relatedCpus.cpus then n.stored else st.policy cpu } := by
  rw [deliver, if_pos h]
  exact foldl_adjustPolicy n n.relatedCpus.cpus st

/-- The notifications do not touch the ledgers. -/
theorem deliverAll_policy (env : CpufreqEnv P) {st : CpufreqQos P} (h : st.Listening)
    (ns : List (PolicyNotification P)) (cpus : List ℕ)
    (hst : ∀ cpu ∈ cpus, st.policy cpu = env.cpufreqCpuGet cpu) :
    (deliverAll st ns).policies = st.policies ∧ (deliverAll st ns).resources = st.resources ∧
      ∀ cpu ∈ cpus, (deliverAll st ns).policy cpu = leftPolicy env ns cpu := by
  induction ns using List.reverseRecOn with
  | nil => exact ⟨rfl, rfl, hst⟩
  | append_singleton ns n ih =>
      obtain ⟨hpolicies, hresources, hpolicy⟩ := ih
      have hlast : deliverAll st (ns ++ [n]) = deliver (deliverAll st ns) n := by
        simp [deliverAll]
      have hlistening : (deliverAll st ns).Listening := by
        rw [CpufreqQos.Listening, hresources]
        exact h
      rw [hlast, deliver_eq hlistening]
      refine ⟨hpolicies, hresources, fun cpu hmem => ?_⟩
      by_cases hcovers : cpu ∈ n.relatedCpus.cpus
      · simp [leftPolicy, hcovers]
      · -- the notifications before it decide
        simp only [hcovers, if_false]
        rw [hpolicy cpu hmem]
        simp [leftPolicy, hcovers]

theorem deliverAll_deaf {st : CpufreqQos P} (h : ¬ st.Listening)
    (ns : List (PolicyNotification P)) : deliverAll st ns = st := by
  induction ns with
  | nil => rfl
  | cons n ns ih =>
      have hfirst : deliver st n = st := if_neg h
      rw [deliverAll, List.foldl_cons, hfirst]
      exact ih

/-! ### Init and exit -/

theorem initCpus_ok {env : CpufreqEnv P} {cpus : List ℕ} (h : ∀ cpu ∈ cpus, env.Adds cpu)
    (st : CpufreqQos P) : initCpus env st cpus = .ok (cpus.foldl (addedCpu env) st) := by
  induction cpus generalizing st with
  | nil => rfl
  | cons cpu cpus ih =>
      rw [List.forall_mem_cons] at h
      rw [initCpus_cons, initCpu_ok h.1.1 h.1.2]
      exact ih h.2 _

theorem getPolicy_policies (st : CpufreqQos P) (cpu : ℕ) (p : Option P) :
    (st.getPolicy cpu p).policies =
      ⟨st.policies.acquired ++ [p].filter (·.isSome), st.policies.released⟩ := by
  cases p <;> simp [CpufreqQos.getPolicy, Ledger.acquire]

theorem foldl_addedCpu (env : CpufreqEnv P) (cpus : List ℕ) (st : CpufreqQos P) :
    (∀ cpu, (cpus.foldl (addedCpu env) st).policy cpu =
      if cpu ∈ cpus then env.cpufreqCpuGet cpu else st.policy cpu) ∧
    (cpus.foldl (addedCpu env) st).policies = ⟨st.policies.acquired ++
      (cpus.map env.cpufreqCpuGet).filter (·.isSome), st.policies.released⟩ := by
  induction cpus generalizing st with
  | nil => simp
  | cons c cpus ih =>
      obtain ⟨hpolicy, hpolicies⟩ := addedCpu_policy env st c
      obtain ⟨ih₁, ih₂⟩ := ih (addedCpu env st c)
      rw [List.foldl_cons]
      constructor
      · intro cpu
        rw [ih₁, hpolicy]
        by_cases e : cpu = c
        · subst e
          simp
        · simp [e]
      · rw [ih₂, hpolicies, getPolicy_policies, List.append_assoc, ← List.filter_append]
        rfl

/-- The cleanup puts the pointers of its CPUs and clears them. -/
theorem removeCpus_policies {cpus : List ℕ} (hnodup : cpus.Nodup) (st : CpufreqQos P) :
    (∀ cpu, (removeCpus st cpus).policy cpu = if cpu ∈ cpus then none else st.policy cpu) ∧
    (removeCpus st cpus).policies =
      ⟨st.policies.acquired, st.policies.released ++ cpus.map st.policy⟩ := by
  induction cpus generalizing st with
  | nil => simp [removeCpus]
  | cons c cpus ih =>
      obtain ⟨hnotMem, hrest⟩ := List.nodup_cons.mp hnodup
      obtain ⟨ih₁, ih₂⟩ := ih hrest (removeCpuData st c)
      have hpolicy : (removeCpuData st c).policy = Function.update st.policy c none := rfl
      have hpolicies : (removeCpuData st c).policies =
          ⟨st.policies.acquired, st.policies.released ++ [st.policy c]⟩ := rfl
      rw [removeCpus_cons]
      constructor
      · intro cpu
        rw [ih₁, hpolicy]
        by_cases e : cpu = c
        · subst e
          simp
        · simp [e]
      · -- the pointers of the other CPUs are still what they were
        have hmap : cpus.map (removeCpuData st c).policy = cpus.map st.policy := by
          apply List.map_congr_left
          intro cpu hmem
          rw [hpolicy, Function.update_of_ne]
          rintro rfl
          exact hnotMem hmem
        rw [ih₂, hmap, hpolicies, List.map_cons, List.append_assoc]
        rfl

theorem exit_policies (present : CpuMask) (st : CpufreqQos P) :
    (cpuFreqQosDrvExit present st).policies =
      ⟨st.policies.acquired, st.policies.released ++ present.cpus.map st.policy⟩ := by
  rw [cpuFreqQosDrvExit, (destroyClass_policies _).2]
  exact (removeCpus_policies present.nodup st).2

/-- After the label `FAIL`, the policies are put and their pointers cleared. -/
theorem afterFail_policies (env : CpufreqEnv P) (st : CpufreqQos P) :
    (∀ cpu ∈ env.present.cpus, (afterFail env st).policy cpu = none) ∧
      (afterFail env st).policies.acquired = st.policies.acquired := by
  obtain ⟨hpolicy, hpolicies⟩ := removeCpus_policies env.present.nodup st
  rw [afterFail, (destroyClass_policies _).1, (destroyClass_policies _).2]
  constructor
  · intro cpu hmem
    show (removeCpus st env.present.cpus).policy cpu = none
    rw [hpolicy, if_pos hmem]
  · show (removeCpus st env.present.cpus).policies.acquired = _
    rw [hpolicies]

/-- What holds of the state in the loop of init, however it ends. -/
structure CpufreqQos.Loading (st : CpufreqQos P) : Prop where
  notifier : st.resources.acquired.count .notifier = 1
  unreleased : st.resources.released = []
  policies : none ∉ st.policies.acquired

def endState : Except (ℤ × CpufreqQos P) (CpufreqQos P) → CpufreqQos P
  | .ok st => st
  | .error (_, st) => st

theorem getPolicy_loading {st : CpufreqQos P} (h : st.Loading) (cpu : ℕ) (p : Option P) :
    (st.getPolicy cpu p).Loading := by
  refine ⟨h.notifier, h.unreleased, ?_⟩
  rw [getPolicy_policies]
  cases p <;> simp [h.policies]

theorem acquire_loading {st : CpufreqQos P} (h : st.Loading) {r : QosResource}
    (hr : r ≠ .notifier) : (st.acquire r).Loading := by
  refine ⟨?_, h.unreleased, h.policies⟩
  simp [CpufreqQos.acquire, h.notifier, hr]

theorem dev_loading {st : CpufreqQos P} (h : st.Loading) (dev : ℕ → ErrPtr) :
    { st with dev := dev }.Loading :=
  ⟨h.notifier, h.unreleased, h.policies⟩

theorem addCpuDevSymlink_loading {env : CpufreqEnv P} {st : CpufreqQos P} (h : st.Loading)
    {cpu : ℕ} : (addCpuDevSymlink env st cpu).Loading := by
  unfold addCpuDevSymlink
  split
  · exact h
  · split
    · exact h
    · exact acquire_loading h (by simp)

theorem initCpu_loading (env : CpufreqEnv P) {st : CpufreqQos P} (h : st.Loading) (cpu : ℕ) :
    (endState (initCpu env st cpu)).Loading := by
  have hget := getPolicy_loading h cpu (env.cpufreqCpuGet cpu)
  have hcdev := acquire_loading (r := .cdev cpu) hget (by simp)
  by_cases hadd : env.cdevAdd cpu = 0
  · rcases herr : isErr (env.deviceCreate cpu) with _ | _
    · rw [initCpu_ok hadd herr]
      exact addCpuDevSymlink_loading (acquire_loading (dev_loading hcdev _) (by simp))
    · simp only [initCpu, hadd, Function.update_self, herr]
      exact dev_loading hcdev _
  · rw [initCpu_addFails hadd]
    exact hget

theorem initCpus_loading (env : CpufreqEnv P) (cpus : List ℕ) {st : CpufreqQos P}
    (h : st.Loading) : (endState (initCpus env st cpus)).Loading := by
  induction cpus generalizing st with
  | nil => exact h
  | cons cpu cpus ih =>
      have hfirst := initCpu_loading env h cpu
      rw [initCpus_cons]
      rcases hrun : initCpu env st cpu with ⟨ret, st'⟩ | st'
      · rw [hrun] at hfirst
        exact hfirst
      · rw [hrun] at hfirst
        exact ih hfirst

theorem beforeLoop_loading (env : CpufreqEnv P) : (beforeLoop env).Loading := by
  refine ⟨?_, rfl, List.not_mem_nil⟩
  simp [beforeLoop, classCreated, CpufreqQos.acquire, CpufreqQos.unloaded, Ledger.blank]

theorem loading_listening {st : CpufreqQos P} (h : st.Loading) : st.Listening := by
  rw [CpufreqQos.Listening, h.notifier, h.unreleased]
  exact Nat.one_pos

/-- An init that returns 0 is through with its loop, or it lost the error of
`device_create` and has undone everything. -/
theorem init_zero {env : CpufreqEnv P} (h : (cpuFreqQosDrvInit env .unloaded).1 = 0) :
    ((∀ cpu ∈ env.present.cpus, env.Adds cpu) ∧ (cpuFreqQosDrvInit env .unloaded).2 =
        env.present.cpus.foldl (addedCpu env) (beforeLoop env)) ∨
      (∃ cpu ∈ env.present.cpus, ¬ env.Adds cpu) ∧ ∃ st : CpufreqQos P, st.Loading ∧
        (cpuFreqQosDrvInit env .unloaded).2 = afterFail env st := by
  have hcls : isErr env.classCreate = false := by
    rcases hclass : env.classCreate with _ | addr | errno
    · rfl
    · rfl
    · simp [cpuFreqQosDrvInit, hclass, isErr, ptrErr] at h
  have hregion : 0 ≤ env.allocChrdevRegion := by
    by_contra hneg
    have hlt : env.allocChrdevRegion < 0 := not_le.mp hneg
    simp [cpuFreqQosDrvInit, hcls, hlt] at h
    omega
  have hnotifier : env.cpufreqRegisterNotifier = 0 := by
    by_contra hne
    simp [cpuFreqQosDrvInit, hcls, not_lt.mpr hregion, hne] at h
  rw [cpuFreqQosDrvInit_loop hcls hregion hnotifier] at h ⊢
  by_cases hadds : ∀ cpu ∈ env.present.cpus, env.Adds cpu
  · rw [initCpus_ok hadds]
    exact .inl ⟨hadds, rfl⟩
  · have hfails : ∃ cpu ∈ env.present.cpus, ¬ env.Adds cpu := by
      simpa only [not_forall, exists_prop] using hadds
    obtain ⟨ret, st, hrun, -⟩ := initCpus_error env.present.nodup hfails (beforeLoop env)
    have hloading := initCpus_loading env env.present.cpus (beforeLoop_loading env)
    rw [hrun] at hloading ⊢
    exact .inr ⟨hfails, st, hloading, rfl⟩

theorem afterFail_deaf {env : CpufreqEnv P} {st : CpufreqQos P} (h : st.Loading) :
    ¬ (afterFail env st).Listening := by
  have hacquired : (afterFail env st).resources.acquired.count .notifier = 1 := by
    rw [afterFail, destroyClass_acquired]
    simp [CpufreqQos.release, removeCpus_resources, h.notifier]
  rw [CpufreqQos.Listening, hacquired, afterFail, destroyClass_released _ (by simp)]
  simp [CpufreqQos.release]

/-! ### The references -/

section

variable [DecidableEq P]

/-- Every present CPU is left with a policy, and every policy is left on as many
CPUs as init got it for. -/
structure LeavesPolicies (env : CpufreqEnv P) (ns : List (PolicyNotification P)) : Prop where
  adds : ∀ cpu ∈ env.present.cpus, env.Adds cpu
  someLeft : ∀ cpu ∈ env.present.cpus, leftPolicy env ns cpu ≠ none
  counts : ∀ p : P, (env.present.cpus.map (leftPolicy env ns)).count (some p) =
    (env.present.cpus.map env.cpufreqCpuGet).count (some p)

omit [DecidableEq P] in
/-- The policies that were got and put, in order. -/
theorem lifetime_policies {env : CpufreqEnv P} (ns : List (PolicyNotification P))
    (hinit : (cpuFreqQosDrvInit env .unloaded).2 =
      env.present.cpus.foldl (addedCpu env) (beforeLoop env))
    (hadds : ∀ cpu ∈ env.present.cpus, env.Adds cpu) :
    (cpufreqLifetime env ns).policies = ⟨(env.present.cpus.map env.cpufreqCpuGet).filter (·.isSome),
      env.present.cpus.map (leftPolicy env ns)⟩ := by
  obtain ⟨hpolicy, hpolicies⟩ := foldl_addedCpu env env.present.cpus (beforeLoop env)
  have hloading := initCpus_loading env env.present.cpus (beforeLoop_loading env)
  rw [initCpus_ok hadds] at hloading
  obtain ⟨hkept, -, hleft⟩ := deliverAll_policy env (loading_listening hloading) ns env.present.cpus
    fun cpu hmem => by rw [endState, hpolicy, if_pos hmem]
  rw [cpufreqLifetime, hinit, exit_policies]
  -- exit puts what the notifications have left
  have hmap := List.map_congr_left hleft
  rw [endState] at hkept hmap
  rw [hkept, hmap, hpolicies]
  rfl

/-- **The policy references balance** exactly where every present CPU is left
with a policy and every policy on as many CPUs as init got it for. -/
theorem policies_balanced_iff (env : CpufreqEnv P) (ns : List (PolicyNotification P))
    (h : (cpuFreqQosDrvInit env .unloaded).1 = 0) :
    (cpufreqLifetime env ns).policies.Balanced ↔ LeavesPolicies env ns := by
  rcases init_zero h with ⟨hadds, hinit⟩ | ⟨⟨cpu, hmem, hcpu⟩, st, hloading, hinit⟩
  · rw [lifetime_policies ns hinit hadds, Ledger.balanced_iff_count]
    constructor
    · intro hcounts
      refine ⟨hadds, fun cpu hmem hnone => ?_, fun p => ?_⟩
      · -- a pointer that is NULL is put without having been got
        have hcount := hcounts none
        rw [List.count_eq_zero_of_not_mem (l := List.filter _ _) (by simp)] at hcount
        exact List.count_eq_zero.mp hcount (List.mem_map.mpr ⟨cpu, hmem, hnone⟩)
      · rw [hcounts (some p), List.count_filter]
        rfl
    · rintro ⟨-, hsome, hcounts⟩ (_ | p)
      · rw [List.count_eq_zero_of_not_mem (l := List.filter _ _) (by simp)]
        apply List.count_eq_zero_of_not_mem
        rintro hmem
        obtain ⟨cpu, hmem, hnone⟩ := List.mem_map.mp hmem
        exact hsome cpu hmem hnone
      · rw [hcounts p, List.count_filter]
        rfl
  · -- exit puts the pointers that the failed loop has cleared
    constructor
    · intro hbalanced
      rw [cpufreqLifetime, hinit, deliverAll_deaf (afterFail_deaf hloading), exit_policies]
        at hbalanced
      obtain ⟨hcleared, hacquired⟩ := afterFail_policies env st
      have hput : none ∈ env.present.cpus.map (afterFail env st).policy :=
        List.mem_map.mpr ⟨cpu, hmem, hcleared cpu hmem⟩
      have hgot := hbalanced.mem_iff.mp (List.mem_append_right _ hput)
      rw [hacquired] at hgot
      exact absurd hgot hloading.policies
    · intro hleaves
      exact absurd (hleaves.adds cpu hmem) hcpu

end

theorem nodup_zero : [0].Nodup := List.nodup_singleton 0

/-- A notification for CPU 0 and its policy. -/
def cpuZero (event : CpufreqEvent) : PolicyNotification ℕ :=
  ⟨event, 0, [0], nodup_zero⟩

/-- `policies_balanced_iff` where the policy is removed and created again. -/
theorem policies_balanced_iff_created : (cpuFreqQosDrvInit (oneCpu 0 (.valid 1)) .unloaded).1 = 0 ∧
    (cpufreqLifetime (oneCpu 0 (.valid 1))
      [cpuZero .removePolicy, cpuZero .createPolicy]).policies.Balanced := by
  have hinit : (cpuFreqQosDrvInit (oneCpu 0 (.valid 1)) .unloaded).1 = 0 := rfl
  refine ⟨hinit, (policies_balanced_iff _ _ hinit).mpr ⟨?_, ?_, ?_⟩⟩
  · exact fun _ _ => ⟨rfl, rfl⟩
  · intro cpu hmem
    rw [List.mem_singleton.mp hmem]
    decide
  · intro p
    rfl

/-- The policy of CPU 0 is removed: exit puts NULL. -/
theorem not_policiesBalanced : ¬ ∀ (env : CpufreqEnv ℕ) (ns : List (PolicyNotification ℕ)),
    (cpuFreqQosDrvInit env .unloaded).1 = 0 → (cpufreqLifetime env ns).policies.Balanced := by
  intro h
  have hbalanced := h (oneCpu 0 (.valid 1)) [cpuZero .removePolicy] rfl
  have hpolicies : (cpufreqLifetime (oneCpu 0 (.valid 1)) [cpuZero .removePolicy]).policies =
      ⟨[some 0], [none]⟩ := rfl
  rw [hpolicies] at hbalanced
  exact absurd (hbalanced.mem_iff.mp (List.mem_singleton_self none)) (by decide)

end CodeSnippet
