/-
CodeSnippet/CpuhpHotplug.lean

The control thread of src/kernel_module/qos/cpuhp-qos.c on a machine whose
CPUs are also taken on- and offline by others.

The driver counts the online CPUs and uses the count as a CPU number.  From a
machine with `n` of them online the thread wants the CPUs `n-1`, `n-2`, ... down
to the maximum offline, or the CPUs `n`, `n+1`, ... up to the minimum online.
`WayClear` says that each of these is where the thread expects it.

Main results:
  * `WayClear.call_iff` — a useful pick keeps the way clear, or blocked.
  * `picksUseful_exact` — the picks of a run are useful exactly as long as no
    hotplug event blocks the way.
-/
import CodeSnippet.CpuhpThread

namespace CodeSnippet

open Transition

/-! ### The machine -/

/-- The CPUs and the thread. -/
structure CpuHotplug where
  machine : CpuhpMachine
  thread : HpThread
  deriving DecidableEq

/-- A step of the thread, or a CPU that goes on- or offline for another reason. -/
inductive HotplugEvent
  | thread
  | online (cpu : ℕ)
  | offline (cpu : ℕ)
  deriving DecidableEq

/-- What the next step of the thread does to the CPUs. -/
def CtlPc.call (m : CpuhpMachine) : CtlPc → CpuhpMachine
  | .coreCtl c => c.call m
  | _ => m

/-- The callback of a hotplug event that left `m` behind wakes the thread when
there is something to adjust. -/
def CpuHotplug.plugged (s : CpuHotplug) (m : CpuhpMachine) : CpuHotplug :=
  { machine := m
    thread := if needAdjuest m.stat then wakeUpProcess s.thread else s.thread }

/-- The module never stops its thread.  The callbacks of the thread's own calls
find it running. -/
def CpuHotplug.take (s : CpuHotplug) : HotplugEvent → Option CpuHotplug
  | .thread =>
      (tryCoreCtl s.machine.stat false s.thread).map fun t =>
        { machine := s.thread.pc.call s.machine, thread := t }
  | .online cpu =>
      if cpu < s.machine.possible.toNat ∧ cpu ∉ s.machine.online then
        some (s.plugged (addCpu s.machine cpu))
      else none
  | .offline cpu =>
      if cpu ∈ s.machine.online ∧ s.machine.online ≠ {cpu} then
        some (s.plugged (removeCpu s.machine cpu))
      else none

/-- `1 <= min <= max <= number of possible CPUs`. -/
structure CpuhpMachine.Bounded (m : CpuhpMachine) : Prop where
  one_le : 1 ≤ m.stat.min.toNat
  le : m.stat.min.toNat ≤ m.stat.max.toNat
  max_le : m.stat.max.toNat ≤ m.possible.toNat

/-- The first CPUs of the machine are online and the thread has been started. -/
def cpuHotplug : EventSystem CpuHotplug HotplugEvent where
  init := fun s => (∃ n, s.machine.Consecutive n) ∧ s.machine.Bounded ∧
    s.thread = ⟨.setInterruptible, .running⟩
  take := CpuHotplug.take

/-- The CPU is online that is to be taken offline, or offline that is to be
brought online. -/
def CoreCtl.Useful (m : CpuhpMachine) : CoreCtl → Prop
  | .offlineCore cpu => cpu.toNat ∈ m.online
  | .onlineCore cpu => cpu.toNat < m.possible.toNat ∧ cpu.toNat ∉ m.online
  | .nothing => True

/-- What `do_core_ctl` is about to call is useful. -/
def CpuHotplug.PicksUseful (s : CpuHotplug) : Prop :=
  ∀ c, s.thread.pc = .coreCtl c → c.Useful s.machine

/-! ### The way to the bounds -/

/-- Every CPU between the maximum and the count is online, and every CPU
between the count and the minimum is offline. -/
structure CpuhpMachine.WayClear (m : CpuhpMachine) : Prop where
  online : ∀ k, m.stat.max.toNat ≤ k → k < m.stat.onlineCpus.toNat → k ∈ m.online
  offline : ∀ k, m.stat.onlineCpus.toNat ≤ k → k < m.stat.min.toNat → k ∉ m.online

/-- A hotplug event spares the CPU that the thread has picked, and leaves the
way clear, seen from where the thread's pending call leads. -/
def CpuHotplug.LeavesClear (s : CpuHotplug) : HotplugEvent → Prop
  | .thread => True
  | .online cpu =>
      (∀ c, s.thread.pc = .coreCtl (.onlineCore c) → c.toNat ≠ cpu) ∧
        (s.thread.pc.call (addCpu s.machine cpu)).WayClear
  | .offline cpu =>
      (∀ c, s.thread.pc = .coreCtl (.offlineCore c) → c.toNat ≠ cpu) ∧
        (s.thread.pc.call (removeCpu s.machine cpu)).WayClear

/-- The counter is the number of online CPUs. -/
structure CpuhpMachine.Counted (m : CpuhpMachine) : Prop where
  possible : ∀ k ∈ m.online, k < m.possible.toNat
  count : m.stat.onlineCpus.toNat = m.online.card
  nonempty : m.online.Nonempty

theorem CpuhpMachine.Consecutive.counted {m : CpuhpMachine} {n : ℕ} (h : m.Consecutive n) :
    m.Counted := by
  have hle := h.le
  have hpos := h.pos
  refine ⟨?_, ?_, ?_⟩
  · intro k hk
    rw [h.online, Finset.mem_range] at hk
    exact lt_of_lt_of_le hk hle
  · rw [h.count, h.online, Finset.card_range]
  · rw [h.online, Finset.nonempty_range_iff]
    exact Nat.pos_iff_ne_zero.mp hpos

theorem CpuhpMachine.Consecutive.wayClear {m : CpuhpMachine} {n : ℕ} (h : m.Consecutive n) :
    m.WayClear := by
  constructor
  · intro k _ hk
    rwa [h.online, Finset.mem_range, ← h.count]
  · intro k hk _
    rw [h.online, Finset.mem_range, ← h.count]
    exact not_lt_of_ge hk

/-- Some CPU is online, so the counter is not 0. -/
theorem CpuhpMachine.Counted.pos {m : CpuhpMachine} (h : m.Counted) :
    1 ≤ m.stat.onlineCpus.toNat := by
  rw [h.count]
  exact h.nonempty.card_pos

/-! ### Hotplug events -/

theorem addCpu_eq {m : CpuhpMachine} {cpu : ℕ} (hlt : cpu < m.possible.toNat)
    (hmem : cpu ∉ m.online) :
    addCpu m cpu =
      { m with online := insert cpu m.online, stat := (cpufreqHpOnline m.stat).1 } :=
  if_pos ⟨hlt, hmem⟩

theorem removeCpu_eq {m : CpuhpMachine} {cpu : ℕ} (hmem : cpu ∈ m.online)
    (hlast : m.online ≠ {cpu}) :
    removeCpu m cpu =
      { m with online := m.online.erase cpu, stat := (cpufreqHpOffline m.stat).1 } :=
  if_pos ⟨hmem, hlast⟩

/-- A CPU that comes online is counted. -/
theorem CpuhpMachine.Counted.add_count {m : CpuhpMachine} (h : m.Counted) {cpu : ℕ}
    (hlt : cpu < m.possible.toNat) (hmem : cpu ∉ m.online) :
    (addCpu m cpu).stat.onlineCpus.toNat = m.stat.onlineCpus.toNat + 1 := by
  have hcard : m.online.card + 1 ≤ m.possible.toNat := by
    have hsub : insert cpu m.online ⊆ Finset.range m.possible.toNat := by
      intro k hk
      rcases Finset.mem_insert.mp hk with rfl | hk
      · exact Finset.mem_range.mpr hlt
      · exact Finset.mem_range.mpr (h.possible k hk)
    simpa [hmem] using Finset.card_le_card hsub
  have hsize := m.possible.toNat_lt
  have hcount := h.count
  rw [addCpu_eq hlt hmem]
  show (m.stat.onlineCpus + 1).toNat = _
  rw [UInt32.toNat_add, show (1 : UInt32).toNat = 1 from rfl]
  omega

/-- With a counter above 1, no CPU is the only one. -/
theorem CpuhpMachine.Counted.ne_singleton {m : CpuhpMachine} (h : m.Counted)
    (hmany : 1 < m.stat.onlineCpus.toNat) (cpu : ℕ) : m.online ≠ {cpu} := by
  intro e
  have hcard := h.count
  rw [e, Finset.card_singleton] at hcard
  exact absurd hcard hmany.ne'

/-- A CPU that goes offline is no longer counted. -/
theorem CpuhpMachine.Counted.remove_count {m : CpuhpMachine} (h : m.Counted) {cpu : ℕ}
    (hmem : cpu ∈ m.online) (hlast : m.online ≠ {cpu}) :
    (removeCpu m cpu).stat.onlineCpus.toNat + 1 = m.stat.onlineCpus.toNat := by
  have hpos := h.pos
  have hle : 1 ≤ m.stat.onlineCpus := by
    rw [UInt32.le_iff_toNat_le]
    exact hpos
  rw [removeCpu_eq hmem hlast]
  show (m.stat.onlineCpus - 1).toNat + 1 = _
  rw [UInt32.toNat_sub_of_le _ _ hle]
  exact Nat.sub_add_cancel hpos

theorem CpuhpMachine.Counted.add {m : CpuhpMachine} (h : m.Counted) (cpu : ℕ) :
    (addCpu m cpu).Counted := by
  by_cases hcan : cpu < m.possible.toNat ∧ cpu ∉ m.online
  · obtain ⟨hlt, hmem⟩ := hcan
    have hcount := h.add_count hlt hmem
    rw [addCpu_eq hlt hmem] at hcount ⊢
    refine ⟨?_, ?_, Finset.insert_nonempty cpu m.online⟩
    · intro k hk
      rcases Finset.mem_insert.mp hk with rfl | hk
      · exact hlt
      · exact h.possible k hk
    · rw [hcount, h.count, Finset.card_insert_of_notMem hmem]
  · rw [addCpu, if_neg hcan]
    exact h

theorem CpuhpMachine.Counted.remove {m : CpuhpMachine} (h : m.Counted) (cpu : ℕ) :
    (removeCpu m cpu).Counted := by
  by_cases hcan : cpu ∈ m.online ∧ m.online ≠ {cpu}
  · obtain ⟨hmem, hlast⟩ := hcan
    have hcount := h.remove_count hmem hlast
    rw [removeCpu_eq hmem hlast] at hcount ⊢
    refine ⟨?_, ?_, ?_⟩
    · intro k hk
      exact h.possible k (Finset.mem_of_mem_erase hk)
    · have hcard := Finset.card_erase_add_one hmem
      have hall := h.count
      show _ = (m.online.erase cpu).card
      omega
    · exact (Finset.erase_nonempty hmem).mpr ((Finset.nontrivial_iff_ne_singleton hmem).mpr hlast)
  · rw [removeCpu, if_neg hcan]
    exact h

theorem addCpu_limits (m : CpuhpMachine) (cpu : ℕ) : (addCpu m cpu).limits = m.limits := by
  unfold addCpu
  split <;> rfl

theorem removeCpu_limits (m : CpuhpMachine) (cpu : ℕ) : (removeCpu m cpu).limits = m.limits := by
  unfold removeCpu
  split <;> rfl

theorem limits_eq {m m' : CpuhpMachine} (h : m'.limits = m.limits) :
    m'.possible = m.possible ∧ m'.stat.min = m.stat.min ∧ m'.stat.max = m.stat.max := by
  simpa [CpuhpMachine.limits] using h

theorem CpuhpMachine.Bounded.of_limits {m m' : CpuhpMachine} (h : m.Bounded)
    (hlimits : m'.limits = m.limits) : m'.Bounded := by
  obtain ⟨hp, hmin, hmax⟩ := limits_eq hlimits
  refine ⟨?_, ?_, ?_⟩
  · rw [hmin]
    exact h.one_le
  · rw [hmin, hmax]
    exact h.le
  · rw [hmax, hp]
    exact h.max_le

theorem CoreCtl.call_counted {m : CpuhpMachine} (h : m.Counted) (c : CoreCtl) :
    (c.call m).Counted := by
  cases c with
  | offlineCore cpu => exact h.remove cpu.toNat
  | onlineCore cpu => exact h.add cpu.toNat
  | nothing => exact h

theorem CoreCtl.call_limits (m : CpuhpMachine) (c : CoreCtl) : (c.call m).limits = m.limits := by
  cases c with
  | offlineCore cpu => exact removeCpu_limits m cpu.toNat
  | onlineCore cpu => exact addCpu_limits m cpu.toNat
  | nothing => rfl

/-! ### Picks -/

/-- What `do_core_ctl` picks: the last CPU by the count, the next one, or none. -/
theorem pickCore_cases {m : CpuhpMachine} (h : m.Counted) :
    (m.stat.max.toNat < m.stat.onlineCpus.toNat ∧ ∃ cpu,
      pickCore m.stat = .offlineCore cpu ∧ cpu.toNat + 1 = m.stat.onlineCpus.toNat) ∨
    (m.stat.onlineCpus.toNat ≤ m.stat.max.toNat ∧
      m.stat.onlineCpus.toNat < m.stat.min.toNat ∧
      pickCore m.stat = .onlineCore m.stat.onlineCpus) ∨
    (needAdjuest m.stat = false ∧ pickCore m.stat = .nothing) := by
  have hpos := h.pos
  by_cases hmax : m.stat.onlineCpus > m.stat.max
  · left
    refine ⟨UInt32.lt_iff_toNat_lt.mp hmax, m.stat.onlineCpus - 1, ?_, ?_⟩
    · exact if_pos hmax
    · rw [UInt32.toNat_sub_of_le _ _ (by rw [UInt32.le_iff_toNat_le]; exact hpos)]
      exact Nat.sub_add_cancel hpos
  · right
    by_cases hmin : m.stat.onlineCpus < m.stat.min
    · left
      refine ⟨?_, UInt32.lt_iff_toNat_lt.mp hmin, ?_⟩
      · exact not_lt.mp fun hlt => hmax (UInt32.lt_iff_toNat_lt.mpr hlt)
      · exact (if_neg hmax).trans (if_pos hmin)
    · right
      constructor
      · simp [needAdjuest, hmax, hmin]
      · exact (if_neg hmax).trans (if_neg hmin)

/-- On a clear way the pick is useful. -/
theorem CpuhpMachine.WayClear.useful {m : CpuhpMachine} (h : m.WayClear) (hc : m.Counted)
    (hb : m.Bounded) : (pickCore m.stat).Useful m := by
  have hle := hb.le
  have hmaxle := hb.max_le
  rcases pickCore_cases hc with ⟨hmax, cpu, hpick, hcpu⟩ | ⟨-, hmin, hpick⟩ | ⟨-, hpick⟩
  · rw [hpick]
    exact h.online cpu.toNat (by omega) (by omega)
  · rw [hpick]
    exact ⟨by omega, h.offline _ le_rfl hmin⟩
  · rw [hpick]
    trivial

/-- **A useful pick** leaves the rest of the way as it was. -/
theorem CpuhpMachine.WayClear.call_iff {m : CpuhpMachine} (hc : m.Counted) (hb : m.Bounded)
    (huseful : (pickCore m.stat).Useful m) :
    ((pickCore m.stat).call m).WayClear ↔ m.WayClear := by
  have hone := hb.one_le
  have hle := hb.le
  rcases pickCore_cases hc with ⟨hmax, cpu, hpick, hcpu⟩ | ⟨hmax, hmin, hpick⟩ | ⟨-, hpick⟩
  · -- the last CPU by the count goes offline; no CPU is wanted online
    rw [hpick] at huseful ⊢
    have hmem : cpu.toNat ∈ m.online := huseful
    have hlast : m.online ≠ {cpu.toNat} := hc.ne_singleton (by omega) cpu.toNat
    have hcount := hc.remove_count hmem hlast
    have honline : (removeCpu m cpu.toNat).online = m.online.erase cpu.toNat := by
      rw [removeCpu_eq hmem hlast]
    obtain ⟨-, emin, emax⟩ := limits_eq (removeCpu_limits m cpu.toNat)
    show (removeCpu m cpu.toNat).WayClear ↔ _
    constructor
    · rintro ⟨hon, -⟩
      rw [honline, emax] at hon
      refine ⟨?_, fun k hk hlt => absurd hlt (by omega)⟩
      intro k hk hlt
      by_cases e : k = cpu.toNat
      · rw [e]
        exact hmem
      · exact Finset.mem_of_mem_erase (hon k hk (by omega))
    · rintro ⟨hon, -⟩
      constructor
      · intro k hk hlt
        rw [emax] at hk
        rw [honline]
        exact Finset.mem_erase.mpr ⟨by omega, hon k hk (by omega)⟩
      · intro k hk hlt
        rw [emin] at hlt
        omega
  · -- the next CPU by the count comes online; no CPU is wanted offline
    rw [hpick] at huseful ⊢
    obtain ⟨hlt, hmem⟩ := huseful
    have hcount := hc.add_count hlt hmem
    have honline : (addCpu m m.stat.onlineCpus.toNat).online =
        insert m.stat.onlineCpus.toNat m.online := by
      rw [addCpu_eq hlt hmem]
    obtain ⟨-, emin, emax⟩ := limits_eq (addCpu_limits m m.stat.onlineCpus.toNat)
    show (addCpu m m.stat.onlineCpus.toNat).WayClear ↔ _
    constructor
    · rintro ⟨-, hoff⟩
      rw [honline, emin] at hoff
      refine ⟨fun k hk hlt => absurd hlt (by omega), ?_⟩
      intro k hk hlt
      by_cases e : k = m.stat.onlineCpus.toNat
      · rw [e]
        exact hmem
      · intro hin
        exact hoff k (by omega) hlt (Finset.mem_insert_of_mem hin)
    · rintro ⟨-, hoff⟩
      constructor
      · intro k hk hlt
        rw [emax] at hk
        omega
      · intro k hk hlt
        rw [emin] at hlt
        rw [honline, Finset.mem_insert]
        rintro (e | hin)
        · omega
        · exact hoff k (by omega) hlt hin
  · rw [hpick]
    rfl

/-! ### Runs -/

theorem CtlPc.call_of_not_pick {m : CpuhpMachine} {pc : CtlPc} (h : ∀ c, pc ≠ .coreCtl c) :
    pc.call m = m := by
  cases pc with
  | coreCtl c => exact absurd rfl (h c)
  | _ => rfl

/-- The thread comes to a call only through `do_core_ctl`, and never exits. -/
theorem tryCoreCtl_cases {stat : CpuhpStatus} {t u : HpThread}
    (h : tryCoreCtl stat false t = some u) :
    u.pc ≠ .exited ∧ ∀ c, u.pc = .coreCtl c → t.pc = .doCoreCtl ∧ c = pickCore stat := by
  cases e : t.pc with
  | doCoreCtl =>
      simp only [tryCoreCtl, e, Option.some.injEq] at h
      subst h
      refine ⟨by simp, ?_⟩
      intro c hc
      exact ⟨rfl, (CtlPc.coreCtl.inj hc).symm⟩
  | check | schedule | asleep =>
      simp only [tryCoreCtl, e] at h
      split at h
      all_goals
        cases h
        try simp
  | setInterruptible | shouldStop | setRunning | coreCtl =>
      simp only [tryCoreCtl, e, Option.some.injEq] at h
      subst h
      simp
  | exited => simp [tryCoreCtl, e] at h

/-- A state with a clear way. -/
structure CpuHotplug.Clear (s : CpuHotplug) : Prop where
  counted : s.machine.Counted
  bounded : s.machine.Bounded
  running : s.thread.pc ≠ .exited
  useful : s.PicksUseful
  way : (s.thread.pc.call s.machine).WayClear

/-- **A step of the thread** on a clear way. -/
theorem CpuHotplug.Clear.thread {s t : CpuHotplug} (h : s.Clear) (ht : s.take .thread = some t) :
    t.Clear := by
  obtain ⟨u, hu, rfl⟩ := Option.map_eq_some_iff.mp ht
  obtain ⟨hexited, hpick⟩ := tryCoreCtl_cases hu
  have hcounted : (s.thread.pc.call s.machine).Counted := by
    cases s.thread.pc with
    | coreCtl c => exact CoreCtl.call_counted h.counted c
    | _ => exact h.counted
  have hbounded : (s.thread.pc.call s.machine).Bounded := by
    cases s.thread.pc with
    | coreCtl c => exact h.bounded.of_limits (CoreCtl.call_limits s.machine c)
    | _ => exact h.bounded
  by_cases hcall : ∃ c, u.pc = .coreCtl c
  · -- the thread has just made its pick
    obtain ⟨c, hc⟩ := hcall
    obtain ⟨hpc, rfl⟩ := hpick c hc
    have hway : s.machine.WayClear := by
      have hs := h.way
      rwa [hpc] at hs
    have huseful := hway.useful h.counted h.bounded
    refine ⟨hcounted, hbounded, hexited, ?_, ?_⟩
    · intro c' hc'
      obtain ⟨-, rfl⟩ := hpick c' hc'
      rw [hpc]
      exact huseful
    · show (u.pc.call (s.thread.pc.call s.machine)).WayClear
      rw [hc, hpc]
      exact (CpuhpMachine.WayClear.call_iff h.counted h.bounded huseful).mpr hway
  · refine ⟨hcounted, hbounded, hexited, fun c hc => absurd ⟨c, hc⟩ hcall, ?_⟩
    show (u.pc.call (s.thread.pc.call s.machine)).WayClear
    rw [CtlPc.call_of_not_pick fun c hc => hcall ⟨c, hc⟩]
    exact h.way

/-- The two kinds of hotplug events: what they ask for, and what they leave. -/
theorem CpuHotplug.take_online {s t : CpuHotplug} {cpu : ℕ} (h : s.take (.online cpu) = some t) :
    (cpu < s.machine.possible.toNat ∧ cpu ∉ s.machine.online) ∧
      t = s.plugged (addCpu s.machine cpu) := by
  simp only [take] at h
  split at h
  · rename_i hcan
    exact ⟨hcan, (Option.some.inj h).symm⟩
  · cases h

theorem CpuHotplug.take_offline {s t : CpuHotplug} {cpu : ℕ} (h : s.take (.offline cpu) = some t) :
    (cpu ∈ s.machine.online ∧ s.machine.online ≠ {cpu}) ∧
      t = s.plugged (removeCpu s.machine cpu) := by
  simp only [take] at h
  split at h
  · rename_i hcan
    exact ⟨hcan, (Option.some.inj h).symm⟩
  · cases h

@[simp] theorem CpuHotplug.plugged_pc (s : CpuHotplug) (m : CpuhpMachine) :
    (s.plugged m).thread.pc = s.thread.pc := by
  unfold plugged
  split <;> rfl

/-- **A hotplug event** that leaves the way clear. -/
theorem CpuHotplug.Clear.take {s t : CpuHotplug} {e : HotplugEvent} (h : s.Clear)
    (hok : s.LeavesClear e) (ht : s.take e = some t) : t.Clear := by
  cases e with
  | thread => exact h.thread ht
  | online cpu =>
      obtain ⟨⟨hlt, hmem⟩, rfl⟩ := take_online ht
      obtain ⟨hother, hway⟩ := hok
      refine ⟨h.counted.add cpu, h.bounded.of_limits (addCpu_limits s.machine cpu), ?_, ?_, ?_⟩
      · rw [plugged_pc]
        exact h.running
      · intro c hc
        rw [plugged_pc] at hc
        have huseful := h.useful c hc
        show c.Useful (addCpu s.machine cpu)
        rw [addCpu_eq hlt hmem]
        cases c with
        | offlineCore c => exact Finset.mem_insert_of_mem huseful
        | onlineCore c =>
            refine ⟨huseful.1, ?_⟩
            rw [Finset.mem_insert, not_or]
            exact ⟨hother c hc, huseful.2⟩
        | nothing => trivial
      · rw [plugged_pc]
        exact hway
  | offline cpu =>
      obtain ⟨⟨hmem, hlast⟩, rfl⟩ := take_offline ht
      obtain ⟨hother, hway⟩ := hok
      refine ⟨h.counted.remove cpu, h.bounded.of_limits (removeCpu_limits s.machine cpu), ?_, ?_, ?_⟩
      · rw [plugged_pc]
        exact h.running
      · intro c hc
        rw [plugged_pc] at hc
        have huseful := h.useful c hc
        show c.Useful (removeCpu s.machine cpu)
        rw [removeCpu_eq hmem hlast]
        cases c with
        | offlineCore c => exact Finset.mem_erase.mpr ⟨hother c hc, huseful⟩
        | onlineCore c => exact ⟨huseful.1, fun hin => huseful.2 (Finset.mem_of_mem_erase hin)⟩
        | nothing => trivial
      · rw [plugged_pc]
        exact hway

/-- In every run whose hotplug events leave the way clear, it is clear. -/
theorem CpuHotplug.clear_of_reachable {s : CpuHotplug}
    (h : Reachable (cpuHotplug.under LeavesClear) s) : s.Clear := by
  refine EventSystem.invariant (P := Clear) ?_ ?_ h
  · rintro s ⟨⟨n, hn⟩, hbounded, hthread⟩
    refine ⟨hn.counted, hbounded, ?_, ?_, ?_⟩
    · rw [hthread]
      simp
    · intro c hc
      rw [hthread] at hc
      cases hc
    · rw [hthread]
      exact hn.wayClear
  · intro s e t hs hok ht
    exact hs.take hok ht

/-! ### A way that is not clear -/

theorem needAdjuest_of_not_wayClear {m : CpuhpMachine} (h : ¬ m.WayClear) :
    needAdjuest m.stat = true := by
  by_contra hneed
  rw [needAdjuest, Bool.or_eq_true, decide_eq_true_iff, decide_eq_true_iff, gt_iff_lt,
    UInt32.lt_iff_toNat_lt, UInt32.lt_iff_toNat_lt] at hneed
  exact h ⟨fun k hk hlt => absurd hlt (by omega), fun k hk hlt => absurd hlt (by omega)⟩

/-- A thread that is awake and has something to adjust makes a pick. -/
theorem CpuHotplug.run_pick {m : CpuhpMachine} {t : HpThread} (hneed : needAdjuest m.stat = true)
    (hrunning : t.pc ≠ .exited) (hidle : ∀ c, t.pc ≠ .coreCtl c) (hawake : ¬ t.Resting) :
    ∃ es state, cpuHotplug.run ⟨m, t⟩ es = some ⟨m, ⟨.coreCtl (pickCore m.stat), state⟩⟩ := by
  obtain ⟨pc, state⟩ := t
  have hdo : ∀ state, cpuHotplug.run ⟨m, ⟨.doCoreCtl, state⟩⟩ [.thread] =
      some ⟨m, ⟨.coreCtl (pickCore m.stat), state⟩⟩ := fun state => rfl
  have hset : ∀ state, cpuHotplug.run ⟨m, ⟨.setRunning, state⟩⟩ [.thread, .thread] =
      some ⟨m, ⟨.coreCtl (pickCore m.stat), .running⟩⟩ := fun state => rfl
  have hstop : ∀ state, cpuHotplug.run ⟨m, ⟨.shouldStop, state⟩⟩ [.thread, .thread, .thread] =
      some ⟨m, ⟨.coreCtl (pickCore m.stat), .running⟩⟩ := fun state => rfl
  have hcheck : ∀ state, cpuHotplug.run ⟨m, ⟨.check, state⟩⟩ [.thread, .thread] =
      some ⟨m, ⟨.coreCtl (pickCore m.stat), .running⟩⟩ := by
    intro state
    simp [EventSystem.run, cpuHotplug, take, tryCoreCtl, CtlPc.call, hneed]
  cases pc with
  | doCoreCtl => exact ⟨_, _, hdo state⟩
  | setRunning => exact ⟨_, _, hset state⟩
  | shouldStop => exact ⟨_, _, hstop state⟩
  | check => exact ⟨_, _, hcheck state⟩
  | setInterruptible =>
      exact ⟨_, _, EventSystem.run_cons (e := .thread) rfl (hcheck .interruptible)⟩
  | schedule =>
      cases state with
      | interruptible => exact absurd ⟨.inl rfl, rfl⟩ hawake
      | running => exact ⟨_, _, EventSystem.run_cons (e := .thread) rfl (hstop .running)⟩
  | asleep =>
      cases state with
      | interruptible => exact absurd ⟨.inr rfl, rfl⟩ hawake
      | running => exact ⟨_, _, EventSystem.run_cons (e := .thread) rfl (hstop .running)⟩
  | coreCtl c => exact absurd rfl (hidle c)
  | exited => exact absurd rfl hrunning

/-- A useful pick brings the count closer to the bounds. -/
theorem distance_call_lt {m : CpuhpMachine} (hc : m.Counted) (hb : m.Bounded)
    (hneed : needAdjuest m.stat = true) (huseful : (pickCore m.stat).Useful m) :
    ((pickCore m.stat).call m).distance < m.distance := by
  have hone := hb.one_le
  have hle := hb.le
  rcases pickCore_cases hc with ⟨hmax, cpu, hpick, hcpu⟩ | ⟨hmax, hmin, hpick⟩ | ⟨hnone, -⟩
  · rw [hpick] at huseful ⊢
    have hlast : m.online ≠ {cpu.toNat} := hc.ne_singleton (by omega) cpu.toNat
    have hcount := hc.remove_count huseful hlast
    obtain ⟨-, emin, emax⟩ := limits_eq (removeCpu_limits m cpu.toNat)
    show (removeCpu m cpu.toNat).distance < _
    rw [CpuhpMachine.distance, CpuhpMachine.distance, emin, emax]
    omega
  · rw [hpick] at huseful ⊢
    have hcount := hc.add_count huseful.1 huseful.2
    obtain ⟨-, emin, emax⟩ := limits_eq (addCpu_limits m m.stat.onlineCpus.toNat)
    show (addCpu m m.stat.onlineCpus.toNat).distance < _
    rw [CpuhpMachine.distance, CpuhpMachine.distance, emin, emax]
    omega
  · rw [hnone] at hneed
    cases hneed

/-- On a way that is not clear the thread comes to a useless pick. -/
theorem CpuHotplug.exists_useless {s : CpuHotplug} (hc : s.machine.Counted)
    (hb : s.machine.Bounded) (hway : ¬ s.machine.WayClear) (hrunning : s.thread.pc ≠ .exited)
    (hidle : ∀ c, s.thread.pc ≠ .coreCtl c) (hawake : ¬ s.thread.Resting) :
    ∃ es u, cpuHotplug.run s es = some u ∧ ¬ u.PicksUseful := by
  induction hd : s.machine.distance using Nat.strong_induction_on generalizing s with
  | _ n ih =>
      have hneed := needAdjuest_of_not_wayClear hway
      obtain ⟨es, state, hpick⟩ := run_pick hneed hrunning hidle hawake
      by_cases huseful : (pickCore s.machine.stat).Useful s.machine
      · -- the way is still not clear, and shorter
        have hlt := distance_call_lt hc hb hneed huseful
        have hway' : ¬ ((pickCore s.machine.stat).call s.machine).WayClear := fun h =>
          hway ((CpuhpMachine.WayClear.call_iff hc hb huseful).mp h)
        obtain ⟨fs, u, hrun, hu⟩ := ih _ (hd ▸ hlt)
          (s := ⟨(pickCore s.machine.stat).call s.machine, ⟨.setInterruptible, state⟩⟩)
          (CoreCtl.call_counted hc _) (hb.of_limits (CoreCtl.call_limits _ _)) hway'
          (by simp) (by simp) (by rintro ⟨hpc, -⟩; simp at hpc) rfl
        refine ⟨es ++ [.thread] ++ fs, u, ?_, hu⟩
        apply EventSystem.run_append _ hrun
        exact EventSystem.run_append hpick rfl
      · refine ⟨es, _, hpick, ?_⟩
        intro h
        exact huseful (h _ rfl)

/-- A hotplug event that leaves the way not clear wakes the thread. -/
theorem CpuHotplug.plugged_awake {s : CpuHotplug} {m : CpuhpMachine} (h : ¬ m.WayClear) :
    ¬ (s.plugged m).thread.Resting := by
  rw [plugged, needAdjuest_of_not_wayClear h]
  exact not_resting_wakeUpProcess s.thread

/-- A hotplug event that does not leave the way clear leads to a useless pick. -/
theorem CpuHotplug.Clear.exists_useless_of_plugged {s : CpuHotplug} (h : s.Clear)
    {m : CpuhpMachine} (hc : m.Counted) (hb : m.Bounded)
    (hway : ¬ (s.thread.pc.call m).WayClear) :
    ∃ es u, cpuHotplug.run (s.plugged m) es = some u ∧ ¬ u.PicksUseful := by
  by_cases hpick : ∃ c, s.thread.pc = .coreCtl c
  · -- the pending call comes first
    obtain ⟨c, e⟩ := hpick
    rw [e] at hway
    have hpc : (s.plugged m).thread.pc = .coreCtl c := by
      rw [plugged_pc, e]
    obtain ⟨state, hstate⟩ : ∃ state, s.plugged m = ⟨m, ⟨.coreCtl c, state⟩⟩ := by
      refine ⟨(s.plugged m).thread.state, ?_⟩
      rw [← hpc]
      rfl
    obtain ⟨es, u, hrun, hu⟩ := exists_useless (s := ⟨c.call m, ⟨.setInterruptible, state⟩⟩)
      (CoreCtl.call_counted hc c) (hb.of_limits (CoreCtl.call_limits m c)) hway
      (by simp) (by simp) (by rintro ⟨hpc, -⟩; simp at hpc)
    rw [hstate]
    exact ⟨_, u, EventSystem.run_cons (e := .thread) rfl hrun, hu⟩
  · have hidle : ∀ c, s.thread.pc ≠ .coreCtl c := fun c hc => hpick ⟨c, hc⟩
    rw [CtlPc.call_of_not_pick hidle] at hway
    apply exists_useless hc hb hway
    · rw [plugged_pc]
      exact h.running
    · rw [plugged_pc]
      exact hidle
    · exact plugged_awake hway

/-- **The control thread picks useful CPUs exactly while the way is clear.**  In
every run whose hotplug events all leave it clear, `do_core_ctl` passes an
online CPU to `remove_cpu` and an offline CPU to `add_cpu`; and from the first
event that does not leave it clear on, some run comes to a useless pick. -/
theorem picksUseful_exact {s : CpuHotplug}
    (h : Reachable (cpuHotplug.under CpuHotplug.LeavesClear) s) :
    s.PicksUseful ∧ ∀ e t, s.take e = some t → ¬ s.LeavesClear e →
      ∃ es u, cpuHotplug.run t es = some u ∧ ¬ u.PicksUseful := by
  have hs := CpuHotplug.clear_of_reachable h
  refine ⟨hs.useful, ?_⟩
  intro e t ht hok
  cases e with
  | thread => exact absurd trivial hok
  | online cpu =>
      obtain ⟨⟨hlt, hmem⟩, rfl⟩ := CpuHotplug.take_online ht
      by_cases hway : (s.thread.pc.call (addCpu s.machine cpu)).WayClear
      · -- the event hits the CPU that the thread is about to bring online
        obtain ⟨c, hc, hcpu⟩ : ∃ c, s.thread.pc = .coreCtl (.onlineCore c) ∧ c.toNat = cpu := by
          by_contra hnone
          refine hok ⟨fun c hc hcpu => hnone ⟨c, hc, hcpu⟩, hway⟩
        refine ⟨[], _, rfl, ?_⟩
        intro huseful
        obtain ⟨-, hout⟩ := huseful (.onlineCore c) (by rw [CpuHotplug.plugged_pc, hc])
        apply hout
        show c.toNat ∈ (addCpu s.machine cpu).online
        rw [addCpu_eq hlt hmem, hcpu]
        exact Finset.mem_insert_self cpu s.machine.online
      · exact hs.exists_useless_of_plugged (hs.counted.add cpu)
          (hs.bounded.of_limits (addCpu_limits s.machine cpu)) hway
  | offline cpu =>
      obtain ⟨⟨hmem, hlast⟩, rfl⟩ := CpuHotplug.take_offline ht
      by_cases hway : (s.thread.pc.call (removeCpu s.machine cpu)).WayClear
      · -- the event hits the CPU that the thread is about to take offline
        obtain ⟨c, hc, hcpu⟩ : ∃ c, s.thread.pc = .coreCtl (.offlineCore c) ∧ c.toNat = cpu := by
          by_contra hnone
          refine hok ⟨fun c hc hcpu => hnone ⟨c, hc, hcpu⟩, hway⟩
        refine ⟨[], _, rfl, ?_⟩
        intro huseful
        have hin : c.toNat ∈ (removeCpu s.machine cpu).online :=
          huseful (.offlineCore c) (by rw [CpuHotplug.plugged_pc, hc])
        rw [removeCpu_eq hmem hlast, hcpu] at hin
        exact absurd hin (Finset.notMem_erase cpu s.machine.online)
      · exact hs.exists_useless_of_plugged (hs.counted.remove cpu)
          (hs.bounded.of_limits (removeCpu_limits s.machine cpu)) hway

/-- Three CPUs are online and only one is wanted. -/
def threeOnline : CpuHotplug := ⟨⟨3, {0, 1, 2}, ⟨1, 1, 3⟩⟩, ⟨.setInterruptible, .running⟩⟩

theorem threeOnline_init : cpuHotplug.init threeOnline :=
  ⟨⟨3, ⟨by decide, rfl, by decide, by decide⟩⟩, ⟨by decide, by decide, by decide⟩, rfl⟩

/-- CPU 0 can go offline before the thread does anything: one of the two others is still
too many, and CPU 1 is online. -/
theorem threeOnline_leavesClear : threeOnline.LeavesClear (.offline 0) := by
  refine ⟨nofun, fun k hmax hcount => ?_, fun k hcount hmin => ?_⟩
  · have hmax : 1 ≤ k := hmax
    have hcount : k < 2 := hcount
    obtain rfl : k = 1 := by omega
    decide
  · have hcount : 2 ≤ k := hcount
    have hmin : k < 1 := hmin
    omega

/-- Then the thread picks CPU 1. -/
theorem picksUseful_exact_threeOnline :
    ∃ s, cpuHotplug.run threeOnline [.offline 0, .thread, .thread, .thread] = some s ∧
      s.thread.pc = .coreCtl (.offlineCore 1) ∧ s.PicksUseful := by
  have hstart : Reachable (cpuHotplug.under CpuHotplug.LeavesClear) threeOnline :=
    .init threeOnline_init
  have hoffline := hstart.step ⟨.offline 0, threeOnline_leavesClear, rfl⟩
  have hthreads : cpuHotplug.run (threeOnline.plugged (removeCpu threeOnline.machine 0))
      [.thread, .thread, .thread] = some _ := rfl
  refine ⟨_, EventSystem.run_cons rfl hthreads, rfl,
    (picksUseful_exact (EventSystem.reachable_run hoffline ?_ hthreads)).1⟩
  intro e he u
  simp only [List.mem_cons, List.not_mem_nil, or_self, or_false] at he
  subst he
  trivial

/-- When CPU 1 goes offline first, the thread picks CPU 1 all the same. -/
theorem not_picksUseful : ¬ ∀ s, Reachable cpuHotplug.system s → s.PicksUseful := by
  intro h
  have hrun : cpuHotplug.run threeOnline [.offline 1, .thread, .thread, .thread] =
      some ⟨⟨3, {0, 2}, ⟨1, 1, 2⟩⟩, ⟨.coreCtl (.offlineCore 1), .running⟩⟩ := by decide
  have huseful := h _ (EventSystem.reachable_run (.init threeOnline_init)
    (fun _ _ _ => trivial) hrun)
  exact absurd (huseful (.offlineCore 1) rfl) (show 1 ∉ ({0, 2} : Finset ℕ) by decide)

end CodeSnippet
