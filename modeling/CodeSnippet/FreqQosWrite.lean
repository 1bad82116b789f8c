/-
CodeSnippet/FreqQosWrite.lean

Writing a minimum and a maximum frequency to src/kernel_module/qos/cpufreq-qos.c
and src/kernel_module/qos/devfreq-qos.c.  Both drivers store the two values in
the device first, hand them to the two requests of the handle, and look only
then whether both requests took them.

The calls that update a request are a parameter: they set the request, or refuse
and leave it as it is.

Main results:
  * `write_eq` — the run of a write.
  * `failedWrite_keeps_iff` — when a write that fails leaves everything as it was.
-/
import CodeSnippet.CInt

namespace CodeSnippet

/-! ### The drivers -/

def hzPerKhz : Int32 := 1000

/-- `sizeof(s32)` -/
def sizeofS32 : ℕ := 4

/-- The fields `min` and `max` of the device and the values of the requests of
the handle. -/
structure FreqQosState where
  min : Int32
  max : Int32
  qosReqMin : Int32
  qosReqMax : Int32
  deriving DecidableEq

/-- `freq_qos_update_request` and `dev_pm_qos_update_request`: from the value of
a request and the new one to the return value and the value afterwards. -/
abbrev UpdateRequest := Int32 → Int32 → ℤ × Int32

/-- A call of write: what `copy_from_user` returns for the two halves of the
buffer, the number of bytes that it did not copy, and the values there. -/
structure QosWriteCall where
  ppos : ℤ
  count : ℕ
  copyMin : ℕ
  copyMax : ℕ
  min : Int32
  max : Int32

/-- The two updates: `writen` and the state afterwards. -/
def updateRequests (updateMin updateMax : UpdateRequest) (st : FreqQosState) (min max : Int32) :
    ℕ × FreqQosState :=
  let writen := 0
  let (ret, value) := updateMin st.qosReqMin min
  let st := { st with qosReqMin := value }
  let writen := if ret ≥ 0 then writen + sizeofS32 else writen
  let (ret, value) := updateMax st.qosReqMax max
  let st := { st with qosReqMax := value }
  let writen := if ret ≥ 0 then writen + sizeofS32 else writen
  (writen, st)

/-- The return value and the state; `policy` is a field of the device. -/
def cpuFreqQosWrite (policy : Option ℕ) (updateMin updateMax : UpdateRequest) (st : FreqQosState)
    (call : QosWriteCall) : ℤ × FreqQosState :=
  if call.ppos ≠ 0 then (-eNoBufs, st)
  else if policy = none then (-eNoEnt, st)
  else if call.count ≠ sizeofS32 * 2 then (-eInval, st)
  else if call.copyMin ≠ 0 then (-eFault, st)
  else if call.copyMax ≠ 0 then (-eFault, st)
  else
    let st := { st with min := call.min, max := call.max }
    let (writen, st) := updateRequests updateMin updateMax st call.min call.max
    (if writen = call.count then writen else -eInval, st)

/-- The return value and the state. -/
def devFreqQosWrite (updateMin updateMax : UpdateRequest) (st : FreqQosState)
    (call : QosWriteCall) : ℤ × FreqQosState :=
  if call.ppos ≠ 0 then (-eNoBufs, st)
  else if call.count ≠ sizeofS32 * 2 then (-eInval, st)
  else if call.copyMin ≠ 0 then (-eFault, st)
  else if call.copyMax ≠ 0 then (-eFault, st)
  else
    let st := { st with min := call.min / hzPerKhz, max := call.max / hzPerKhz }
    let (writen, st) := updateRequests updateMin updateMax st st.min st.max
    if writen ≠ call.count then (-eInval, st) else (writen, st)

/-- The device of an open file. -/
inductive FreqQosDevice
  | cpufreq (policy : Option ℕ)
  | devfreq
  deriving DecidableEq

namespace FreqQosDevice

def fopsWrite : FreqQosDevice → UpdateRequest → UpdateRequest → FreqQosState → QosWriteCall →
    ℤ × FreqQosState
  | cpufreq policy => cpuFreqQosWrite policy
  | devfreq => devFreqQosWrite

/-- The value that the driver stores and hands to the request. -/
def stored : FreqQosDevice → Int32 → Int32
  | cpufreq _, value => value
  | devfreq, value => value / hzPerKhz

/-- The write is turned down before anything is stored. -/
def TurnsDown (device : FreqQosDevice) (call : QosWriteCall) : Prop :=
  call.ppos ≠ 0 ∨ device = cpufreq none ∨ call.count ≠ sizeofS32 * 2 ∨ call.copyMin ≠ 0 ∨
    call.copyMax ≠ 0

instance (device : FreqQosDevice) (call : QosWriteCall) : Decidable (device.TurnsDown call) :=
  inferInstanceAs (Decidable (_ ∨ _))

end FreqQosDevice

/-! ### One write -/

/-- An update sets the request, or returns a negative number and leaves it. -/
def SetsOrRefuses (update : UpdateRequest) : Prop :=
  ∀ old value, (0 ≤ (update old value).1 ∧ (update old value).2 = value) ∨
    ((update old value).1 < 0 ∧ (update old value).2 = old)

/-- The request takes the value. -/
def Takes (update : UpdateRequest) (old value : Int32) : Prop := 0 ≤ (update old value).1

instance (update : UpdateRequest) (old value : Int32) : Decidable (Takes update old value) :=
  inferInstanceAs (Decidable (_ ≤ _))

theorem SetsOrRefuses.value_eq {update : UpdateRequest} (h : SetsOrRefuses update)
    (old value : Int32) :
    (update old value).2 = if Takes update old value then value else old := by
  rcases h old value with ⟨hret, hvalue⟩ | ⟨hret, hvalue⟩
  · rw [hvalue, if_pos (show Takes update old value from hret)]
  · rw [hvalue, if_neg (show ¬ Takes update old value from not_le.mpr hret)]

variable {updateMin updateMax : UpdateRequest}

/-- The state when both values are stored and handed to the requests. -/
def afterUpdates (updateMin updateMax : UpdateRequest) (st : FreqQosState) (min max : Int32) :
    FreqQosState :=
  ⟨min, max, if Takes updateMin st.qosReqMin min then min else st.qosReqMin,
    if Takes updateMax st.qosReqMax max then max else st.qosReqMax⟩

/-- The updates behind the stores: `writen` has its full value when both requests
take theirs. -/
theorem updateRequests_eq (hmin : SetsOrRefuses updateMin) (hmax : SetsOrRefuses updateMax)
    (st : FreqQosState) (min max : Int32) :
    ∃ writen, updateRequests updateMin updateMax { st with min := min, max := max } min max =
        (writen, afterUpdates updateMin updateMax st min max) ∧
      (writen = sizeofS32 * 2 ↔
        Takes updateMin st.qosReqMin min ∧ Takes updateMax st.qosReqMax max) := by
  rw [afterUpdates, ← hmin.value_eq, ← hmax.value_eq]
  refine ⟨_, rfl, ?_⟩
  by_cases h₁ : 0 ≤ (updateMin st.qosReqMin min).1 <;>
    by_cases h₂ : 0 ≤ (updateMax st.qosReqMax max).1 <;>
      simp [Takes, sizeofS32, h₁, h₂]

/-- **The run of a write** that is not turned down: it stores both values,
whatever the requests do with them, and fails unless both take theirs. -/
theorem write_eq (hmin : SetsOrRefuses updateMin) (hmax : SetsOrRefuses updateMax)
    {device : FreqQosDevice} {call : QosWriteCall} (hcall : ¬ device.TurnsDown call)
    (st : FreqQosState) :
    (device.fopsWrite updateMin updateMax st call).2 =
        afterUpdates updateMin updateMax st (device.stored call.min) (device.stored call.max) ∧
      ((device.fopsWrite updateMin updateMax st call).1 < 0 ↔
        ¬ (Takes updateMin st.qosReqMin (device.stored call.min) ∧
          Takes updateMax st.qosReqMax (device.stored call.max))) := by
  simp only [FreqQosDevice.TurnsDown, not_or, not_not] at hcall
  obtain ⟨hppos, hdevice, hcount, hcopyMin, hcopyMax⟩ := hcall
  obtain ⟨writen, hrun, hboth⟩ :=
    updateRequests_eq hmin hmax st (device.stored call.min) (device.stored call.max)
  have hwrite : device.fopsWrite updateMin updateMax st call =
      (if writen = sizeofS32 * 2 then (writen : ℤ) else -eInval,
        afterUpdates updateMin updateMax st (device.stored call.min) (device.stored call.max)) := by
    cases device with
    | cpufreq policy =>
        have hpolicy : policy ≠ none := fun e => hdevice (congrArg _ e)
        simp only [FreqQosDevice.stored] at hrun ⊢
        simp [FreqQosDevice.fopsWrite, cpuFreqQosWrite, hppos, hpolicy, hcount, hcopyMin,
          hcopyMax, hrun]
    | devfreq =>
        simp only [FreqQosDevice.stored] at hrun ⊢
        simp only [FreqQosDevice.fopsWrite, devFreqQosWrite, hppos, hcount, hcopyMin, hcopyMax,
          hrun, ne_eq, not_true_eq_false, if_false]
        split_ifs <;> rfl
  rw [hwrite, ← hboth]
  refine ⟨rfl, ?_⟩
  by_cases hfull : writen = sizeofS32 * 2
  · simp [hfull]
  · simp [hfull, eInval]

/-- A write that is turned down returns a negative number and does nothing. -/
theorem write_turnedDown {device : FreqQosDevice} {call : QosWriteCall}
    (hcall : device.TurnsDown call) (st : FreqQosState) :
    (device.fopsWrite updateMin updateMax st call).2 = st := by
  by_contra hne
  apply hne
  rw [FreqQosDevice.TurnsDown] at hcall
  cases device with
  | cpufreq policy =>
      rw [FreqQosDevice.fopsWrite, cpuFreqQosWrite]
      split_ifs <;> simp_all
  | devfreq =>
      rw [FreqQosDevice.fopsWrite, devFreqQosWrite]
      split_ifs <;> simp_all

/-- **When a failing write changes nothing**: when it is turned down, or does not
fail, or writes what the device and the requests that take it have already. -/
theorem failedWrite_keeps_iff (hmin : SetsOrRefuses updateMin) (hmax : SetsOrRefuses updateMax)
    (device : FreqQosDevice) (st : FreqQosState) (call : QosWriteCall) :
    ((device.fopsWrite updateMin updateMax st call).1 < 0 →
        (device.fopsWrite updateMin updateMax st call).2 = st) ↔
      device.TurnsDown call ∨
        (Takes updateMin st.qosReqMin (device.stored call.min) ∧
          Takes updateMax st.qosReqMax (device.stored call.max)) ∨
        (st.min = device.stored call.min ∧ st.max = device.stored call.max ∧
          (Takes updateMin st.qosReqMin (device.stored call.min) →
            st.qosReqMin = device.stored call.min) ∧
          (Takes updateMax st.qosReqMax (device.stored call.max) →
            st.qosReqMax = device.stored call.max)) := by
  by_cases hcall : device.TurnsDown call
  · exact ⟨fun _ => .inl hcall, fun _ _ => write_turnedDown hcall st⟩
  · obtain ⟨hstate, hfails⟩ := write_eq hmin hmax hcall st
    rw [hstate, hfails]
    generalize device.stored call.min = min, device.stored call.max = max
    have hsame : afterUpdates updateMin updateMax st min max = st ↔
        st.min = min ∧ st.max = max ∧ (Takes updateMin st.qosReqMin min → st.qosReqMin = min) ∧
          (Takes updateMax st.qosReqMax max → st.qosReqMax = max) := by
      obtain ⟨min', max', reqMin, reqMax⟩ := st
      simp only [afterUpdates, FreqQosState.mk.injEq, ite_eq_right_iff]
      simp only [eq_comm]
    rw [hsame, or_iff_right hcall, or_iff_not_imp_left]

/-- `freq_qos_update_request` of a kernel that refuses negative values. -/
def updateNonNegative : UpdateRequest := fun old value =>
  if value < 0 then (-eInval, old) else (if old = value then 0 else 1, value)

theorem updateNonNegative_setsOrRefuses : SetsOrRefuses updateNonNegative := by
  intro old value
  unfold updateNonNegative
  split
  · exact .inr ⟨show -eInval < 0 by decide, rfl⟩
  · refine .inl ⟨?_, rfl⟩
    show (0 : ℤ) ≤ if old = value then 0 else 1
    split <;> decide

/-- `failedWrite_keeps_iff` for a write that fails a second time. -/
theorem failedWrite_keeps_iff_again :
    (FreqQosDevice.devfreq.fopsWrite updateNonNegative updateNonNegative ⟨5, -1, 5, 7⟩
        ⟨0, 8, 0, 0, 5000, -1000⟩).1 < 0 ∧
      (FreqQosDevice.devfreq.fopsWrite updateNonNegative updateNonNegative ⟨5, -1, 5, 7⟩
        ⟨0, 8, 0, 0, 5000, -1000⟩).2 = ⟨5, -1, 5, 7⟩ := by
  have hfails : (FreqQosDevice.devfreq.fopsWrite updateNonNegative updateNonNegative
      ⟨5, -1, 5, 7⟩ ⟨0, 8, 0, 0, 5000, -1000⟩).1 < 0 := by decide
  exact ⟨hfails, (failedWrite_keeps_iff updateNonNegative_setsOrRefuses
    updateNonNegative_setsOrRefuses .devfreq ⟨5, -1, 5, 7⟩ ⟨0, 8, 0, 0, 5000, -1000⟩).mpr
      (by decide) hfails⟩

/-- The minimum is taken and the maximum refused. -/
theorem not_failedWrite_keeps : ¬ ∀ (updateMin updateMax : UpdateRequest),
    SetsOrRefuses updateMin → SetsOrRefuses updateMax →
    ∀ (device : FreqQosDevice) (st : FreqQosState) (call : QosWriteCall),
      (device.fopsWrite updateMin updateMax st call).1 < 0 →
        (device.fopsWrite updateMin updateMax st call).2 = st := by
  intro h
  have hkeeps := h updateNonNegative updateNonNegative updateNonNegative_setsOrRefuses
    updateNonNegative_setsOrRefuses (.cpufreq (some 0)) ⟨0, 0, 0, 2147483647⟩ ⟨0, 8, 0, 0, 5, -1⟩
    (by decide)
  exact absurd hkeeps (by decide)

end CodeSnippet
