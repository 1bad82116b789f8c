/-
CodeSnippet/CpuhpQos.lean

The CPU hotplug control of src/kernel_module/qos/cpuhp-qos.c: bounds on the
number of online CPUs that user space writes, and the loop of the control
thread that takes CPUs on- and offline until the number is within them.

Main results:
  * `doCoreCtl_consecutive` — what one call does while CPUs 0..n-1 are online.
  * `reachesBounds_iff` — the loop ends exactly for bounds that some number of
    CPUs attains.
-/
import CodeSnippet.CInt
import CodeSnippet.Loop

namespace CodeSnippet

/-! ### The driver -/

/-- The counters of `struct cpuhp_status`. -/
structure CpuhpStatus where
  min : UInt32
  max : UInt32
  onlineCpus : UInt32
  deriving DecidableEq

def needAdjuest (state : CpuhpStatus) : Bool :=
  state.onlineCpus < state.min || state.onlineCpus > state.max

/-- The callback for a CPU that went offline, and whether it wakes the thread. -/
def cpufreqHpOffline (stat : CpuhpStatus) : CpuhpStatus × Bool :=
  let stat := { stat with onlineCpus := stat.onlineCpus - 1 }
  (stat, needAdjuest stat)

/-- The callback for a CPU that came online, and whether it wakes the thread. -/
def cpufreqHpOnline (stat : CpuhpStatus) : CpuhpStatus × Bool :=
  let stat := { stat with onlineCpus := stat.onlineCpus + 1 }
  (stat, needAdjuest stat)

/-- The CPUs of the machine, and the state of the driver. -/
structure CpuhpMachine where
  possible : UInt32
  online : Finset ℕ
  stat : CpuhpStatus
  deriving DecidableEq

/-- `add_cpu` succeeds for a possible CPU that is offline. -/
def addCpu (m : CpuhpMachine) (cpu : ℕ) : CpuhpMachine :=
  if cpu < m.possible.toNat ∧ cpu ∉ m.online then
    { m with online := insert cpu m.online, stat := (cpufreqHpOnline m.stat).1 }
  else m

/-- `remove_cpu` succeeds for an online CPU that is not the last one. -/
def removeCpu (m : CpuhpMachine) (cpu : ℕ) : CpuhpMachine :=
  if cpu ∈ m.online ∧ m.online ≠ {cpu} then
    { m with online := m.online.erase cpu, stat := (cpufreqHpOffline m.stat).1 }
  else m

def coreCtlOnlineCore (m : CpuhpMachine) (cpu : UInt32) : CpuhpMachine := addCpu m cpu.toNat

def coreCtlOfflineCore (m : CpuhpMachine) (cpu : UInt32) : CpuhpMachine := removeCpu m cpu.toNat

def doCoreCtl (m : CpuhpMachine) : CpuhpMachine :=
  let min := m.stat.min
  let max := m.stat.max
  let online := m.stat.onlineCpus
  if online > max then coreCtlOfflineCore m (online - 1)
  else if online < min then coreCtlOnlineCore m online
  else m

/-- A call of `write`: the position, the length, the two values behind the
user's pointer, and whether `copy_from_user` fails for each. -/
structure QosWrite where
  ppos : ℤ
  count : ℕ
  min : Int32
  max : Int32
  minFault : Bool
  maxFault : Bool

/-- The values arrive as `s32` and are stored as `unsigned int`. -/
def cpuhpQosWrite (stat : CpuhpStatus) (w : QosWrite) : ℤ × CpuhpStatus :=
  if w.ppos ≠ 0 then (-eNoBufs, stat)
  else if w.count ≠ 8 then (-eInval, stat)
  else if w.minFault then (-eFault, stat)
  else if w.maxFault then (-eFault, stat)
  else (w.count, { stat with min := w.min.toUInt32, max := w.max.toUInt32 })

/-! ### The number of online CPUs -/

/-- What one call makes of the number of online CPUs when they are the first
ones of `possible`. -/
def nextCount (min max possible n : ℕ) : ℕ :=
  if max < n then (if n = 1 then n else n - 1)
  else if n < min then (if n < possible then n + 1 else n)
  else n

/-- CPUs 0..n-1 are online, at least one of them, and counted. -/
structure CpuhpMachine.Consecutive (m : CpuhpMachine) (n : ℕ) : Prop where
  online : m.online = Finset.range n
  count : m.stat.onlineCpus.toNat = n
  pos : 1 ≤ n
  le : n ≤ m.possible.toNat

/-- The possible CPUs and the bounds of a machine. -/
def CpuhpMachine.limits (m : CpuhpMachine) : UInt32 × UInt32 × UInt32 :=
  (m.possible, m.stat.min, m.stat.max)

theorem needAdjuest_iff {m : CpuhpMachine} {n : ℕ} (h : m.Consecutive n) :
    needAdjuest m.stat = true ↔ n < m.stat.min.toNat ∨ m.stat.max.toNat < n := by
  rw [needAdjuest, Bool.or_eq_true, decide_eq_true_iff, decide_eq_true_iff, gt_iff_lt,
    UInt32.lt_iff_toNat_lt, UInt32.lt_iff_toNat_lt, h.count]

theorem CpuhpMachine.Consecutive.add {m : CpuhpMachine} {n : ℕ} (h : m.Consecutive n)
    (hn : n < m.possible.toNat) :
    (addCpu m n).Consecutive (n + 1) ∧ (addCpu m n).limits = m.limits := by
  have hmem : n ∉ m.online := by
    rw [h.online]
    exact Finset.notMem_range_self
  rw [addCpu, if_pos ⟨hn, hmem⟩]
  refine ⟨⟨?_, ?_, Nat.le_add_left .., hn⟩, rfl⟩
  · show insert n m.online = _
    rw [h.online, Finset.range_add_one]
  · have hlt := m.possible.toNat_lt
    show (m.stat.onlineCpus + 1).toNat = n + 1
    rw [UInt32.toNat_add, h.count, show (1 : UInt32).toNat = 1 from rfl]
    omega

theorem CpuhpMachine.Consecutive.remove {m : CpuhpMachine} {n : ℕ} (h : m.Consecutive (n + 1))
    (hn : 1 ≤ n) : (removeCpu m n).Consecutive n ∧ (removeCpu m n).limits = m.limits := by
  have hmem : n ∈ m.online := by
    rw [h.online]
    exact Finset.self_mem_range_succ n
  have hlast : m.online ≠ {n} := by
    intro e
    have hzero : 0 ∈ m.online := by
      rw [h.online]
      exact Finset.mem_range.mpr (Nat.succ_pos n)
    rw [e, Finset.mem_singleton] at hzero
    omega
  have hle := h.le
  rw [removeCpu, if_pos ⟨hmem, hlast⟩]
  refine ⟨⟨?_, ?_, hn, by show n ≤ m.possible.toNat; omega⟩, rfl⟩
  · show m.online.erase n = _
    rw [h.online, Finset.range_add_one, Finset.erase_insert Finset.notMem_range_self]
  · have hcount := h.count
    show (m.stat.onlineCpus - 1).toNat = n
    rw [UInt32.toNat_sub_of_le _ _ (by rw [UInt32.le_iff_toNat_le, hcount]; exact Nat.le_add_left ..),
      hcount]
    rfl

/-- **One call** on consecutive CPUs. -/
theorem doCoreCtl_consecutive {m : CpuhpMachine} {n : ℕ} (h : m.Consecutive n) :
    (doCoreCtl m).Consecutive
        (nextCount m.stat.min.toNat m.stat.max.toNat m.possible.toNat n) ∧
      (doCoreCtl m).limits = m.limits := by
  have hcount := h.count
  unfold doCoreCtl nextCount
  simp only [gt_iff_lt, UInt32.lt_iff_toNat_lt, hcount]
  split
  · -- above the bounds: the last CPU goes offline
    have hpred : (m.stat.onlineCpus - 1).toNat = n - 1 := by
      rw [UInt32.toNat_sub_of_le _ _ (by rw [UInt32.le_iff_toNat_le, hcount]; exact h.pos), hcount]
      rfl
    rw [coreCtlOfflineCore, hpred]
    split
    · rename_i hone
      subst hone
      have hstay : removeCpu m (1 - 1) = m := by
        rw [removeCpu, if_neg]
        rintro ⟨-, hlast⟩
        exact hlast h.online
      rw [hstay]
      exact ⟨h, rfl⟩
    · obtain ⟨k, rfl⟩ : ∃ k, n = k + 1 := Nat.exists_eq_add_one.mpr h.pos
      exact h.remove (by omega)
  · split
    · -- below the bounds: the next CPU comes online
      rw [coreCtlOnlineCore, hcount]
      split
      · rename_i hlt
        exact h.add hlt
      · rename_i hge
        have hstay : addCpu m n = m := by
          rw [addCpu, if_neg]
          rintro ⟨hlt, -⟩
          exact hge hlt
        rw [hstay]
        exact ⟨h, rfl⟩
    · exact ⟨h, rfl⟩

/-! ### The control loop -/

/-- The loop of the control thread ends, in a state where nothing is left to
adjust. -/
def ReachesBounds (m : CpuhpMachine) : Prop :=
  ∃ fuel t, Loop.run (fun m => needAdjuest m.stat) doCoreCtl fuel m = some t ∧
    needAdjuest t.stat = false

/-- Some number of CPUs is within the bounds, as unsigned numbers. -/
structure Attainable (min max possible : UInt32) : Prop where
  le : min.toNat ≤ max.toNat
  max_pos : 1 ≤ max.toNat
  min_le : min.toNat ≤ possible.toNat

/-- A machine with consecutive CPUs and the limits of `m`. -/
def CpuhpMachine.Within (m s : CpuhpMachine) : Prop :=
  (∃ n, s.Consecutive n) ∧ s.limits = m.limits

theorem CpuhpMachine.Within.step {m s : CpuhpMachine} (h : m.Within s) : m.Within (doCoreCtl s) := by
  obtain ⟨⟨n, hn⟩, hlimits⟩ := h
  obtain ⟨hnext, hsame⟩ := doCoreCtl_consecutive hn
  exact ⟨⟨_, hnext⟩, hsame.trans hlimits⟩

/-- How far the number of online CPUs is from the bounds. -/
def CpuhpMachine.distance (s : CpuhpMachine) : ℕ :=
  (s.stat.onlineCpus.toNat - s.stat.max.toNat) + (s.stat.min.toNat - s.stat.onlineCpus.toNat)

/-- With attainable bounds every call gets closer to them. -/
theorem doCoreCtl_distance_lt {s : CpuhpMachine} {n : ℕ} (h : s.Consecutive n)
    (hatt : Attainable s.stat.min s.stat.max s.possible) (hneed : needAdjuest s.stat = true) :
    (doCoreCtl s).distance < s.distance := by
  obtain ⟨hnext, hlimits⟩ := doCoreCtl_consecutive h
  obtain ⟨-, hmin, hmax⟩ : _ ∧ (doCoreCtl s).stat.min = s.stat.min ∧
      (doCoreCtl s).stat.max = s.stat.max := by
    simpa [CpuhpMachine.limits] using hlimits
  have hout := (needAdjuest_iff h).mp hneed
  have hle := hatt.le
  have hpos := hatt.max_pos
  have hpossible := hatt.min_le
  rw [CpuhpMachine.distance, CpuhpMachine.distance, hnext.count, h.count, hmin, hmax, nextCount]
  split
  · rw [if_neg (by omega)]
    omega
  · rw [if_pos (by omega), if_pos (by omega)]
    omega

/-- Other bounds are never reached. -/
theorem needAdjuest_of_not_attainable {s : CpuhpMachine} {n : ℕ} (h : s.Consecutive n)
    (hatt : ¬ Attainable s.stat.min s.stat.max s.possible) : needAdjuest s.stat = true := by
  by_contra hneed
  rw [needAdjuest_iff h] at hneed
  have hpos := h.pos
  have hle := h.le
  exact hatt ⟨by omega, by omega, by omega⟩

/-- The loop ends for attainable bounds, and for no others. -/
theorem CpuhpMachine.Consecutive.reaches_iff {m : CpuhpMachine} {n : ℕ}
    (h : m.Consecutive n) :
    ReachesBounds m ↔ Attainable m.stat.min m.stat.max m.possible := by
  have hwithin : m.Within m := ⟨⟨n, h⟩, rfl⟩
  have hlimits : ∀ s, m.Within s →
      (Attainable s.stat.min s.stat.max s.possible ↔
        Attainable m.stat.min m.stat.max m.possible) := by
    rintro s ⟨-, hs⟩
    obtain ⟨hp, hmin, hmax⟩ : s.possible = m.possible ∧ s.stat.min = m.stat.min ∧
        s.stat.max = m.stat.max := by
      simpa [limits] using hs
    rw [hp, hmin, hmax]
  constructor
  · rintro ⟨fuel, t, ht, -⟩
    by_contra hatt
    refine Loop.not_halts_of_invariant (P := m.Within) ?_ hwithin ⟨fuel, t, ht⟩
    intro s hs
    obtain ⟨k, hk⟩ := hs.1
    exact ⟨needAdjuest_of_not_attainable hk fun hs' => hatt ((hlimits s hs).mp hs'), hs.step⟩
  · intro hatt
    obtain ⟨fuel, t, ht⟩ : Loop.Halts (fun s => needAdjuest s.stat) doCoreCtl m := by
      refine Loop.halts_of_measure (P := m.Within) CpuhpMachine.distance ?_ hwithin
      intro s hs hneed
      obtain ⟨k, hk⟩ := hs.1
      exact ⟨hs.step, doCoreCtl_distance_lt hk ((hlimits s hs).mpr hatt) hneed⟩
    exact ⟨fuel, t, ht, (Loop.run_invariant (fun s hs _ => hs.step) hwithin ht).2⟩

/-! ### Bounds from user space -/

/-- A write is refused and stores nothing, or is accepted and stores its two
values. -/
theorem cpuhpQosWrite_cases (stat : CpuhpStatus) (w : QosWrite) :
    (cpuhpQosWrite stat w).1 < 0 ∧ (cpuhpQosWrite stat w).2 = stat ∨
    0 ≤ (cpuhpQosWrite stat w).1 ∧ (cpuhpQosWrite stat w).2 =
      { stat with min := w.min.toUInt32, max := w.max.toUInt32 } := by
  unfold cpuhpQosWrite
  split
  · exact .inl ⟨show -eNoBufs < 0 by decide, rfl⟩
  · split
    · exact .inl ⟨show -eInval < 0 by decide, rfl⟩
    · split
      · exact .inl ⟨show -eFault < 0 by decide, rfl⟩
      · split
        · exact .inl ⟨show -eFault < 0 by decide, rfl⟩
        · exact .inr ⟨Int.natCast_nonneg w.count, rfl⟩

theorem cpuhpQosWrite_spec {stat : CpuhpStatus} {w : QosWrite}
    (h : 0 ≤ (cpuhpQosWrite stat w).1) :
    (cpuhpQosWrite stat w).2 =
      { stat with min := w.min.toUInt32, max := w.max.toUInt32 } := by
  rcases cpuhpQosWrite_cases stat w with ⟨hneg, -⟩ | ⟨-, hstored⟩
  · exact absurd h (not_le_of_gt hneg)
  · exact hstored

theorem cpuhpQosWrite_refused {stat : CpuhpStatus} {w : QosWrite}
    (h : ¬ 0 ≤ (cpuhpQosWrite stat w).1) : (cpuhpQosWrite stat w).2 = stat := by
  rcases cpuhpQosWrite_cases stat w with ⟨-, hsame⟩ | ⟨hpos, -⟩
  · exact hsame
  · exact absurd hpos h

/-- **The control loop reaches its target exactly for attainable bounds**:
whatever number of CPUs is online when a write is accepted, the loop ends if
and only if, as unsigned numbers, the minimum is at most the maximum, the
maximum is not 0 and the minimum is at most the number of possible CPUs. -/
theorem reachesBounds_iff (m : CpuhpMachine) (n : ℕ) (h : m.Consecutive n) (w : QosWrite)
    (hw : 0 ≤ (cpuhpQosWrite m.stat w).1) :
    ReachesBounds { m with stat := (cpuhpQosWrite m.stat w).2 } ↔
      Attainable w.min.toUInt32 w.max.toUInt32 m.possible := by
  rw [cpuhpQosWrite_spec hw]
  have hafter : CpuhpMachine.Consecutive
      { m with stat := { m.stat with min := w.min.toUInt32, max := w.max.toUInt32 } } n :=
    ⟨h.online, h.count, h.pos, h.le⟩
  exact hafter.reaches_iff

/-- Four possible CPUs, two of them online. -/
def twoOnline : CpuhpMachine := ⟨4, {0, 1}, ⟨0, 4, 2⟩⟩

theorem twoOnline_consecutive : twoOnline.Consecutive 2 := ⟨by decide, rfl, by decide, by decide⟩

/-- A write that meets no error. -/
def writeBounds (min max : Int32) : QosWrite := ⟨0, 8, min, max, false, false⟩

theorem reachesBounds_iff_twoOnline :
    ReachesBounds { twoOnline with stat := (cpuhpQosWrite twoOnline.stat (writeBounds 3 4)).2 } ↔
      Attainable (writeBounds 3 4).min.toUInt32 (writeBounds 3 4).max.toUInt32
        twoOnline.possible :=
  reachesBounds_iff twoOnline 2 ⟨by decide, rfl, by decide, by decide⟩ (writeBounds 3 4)
    (by decide)

/-- The bounds 3..1 are accepted and keep the loop going for ever. -/
theorem not_reachesBounds_twoOnline :
    twoOnline.Consecutive 2 ∧ 0 ≤ (cpuhpQosWrite twoOnline.stat (writeBounds 3 1)).1 ∧
      ¬ ReachesBounds
        { twoOnline with stat := (cpuhpQosWrite twoOnline.stat (writeBounds 3 1)).2 } := by
  refine ⟨twoOnline_consecutive, by decide, ?_⟩
  have hafter : CpuhpMachine.Consecutive
      { twoOnline with stat := (cpuhpQosWrite twoOnline.stat (writeBounds 3 1)).2 } 2 :=
    ⟨by decide, rfl, by decide, by decide⟩
  rw [hafter.reaches_iff]
  intro hatt
  exact absurd hatt.le (by decide)

end CodeSnippet
