/-
CodeSnippet/FreqQosHandle.lean

The frequency requests of open files.  src/kernel_module/qos/cpufreq-qos.c and
src/kernel_module/qos/devfreq-qos.c register a minimum and a maximum request for
every open, in a handle that they allocate, and take them back at close.  The
two drivers differ in the types of their requests only.

The kernel calls close for the files whose open has returned 0.  The calls that
add a request either register it or return a negative number.

Main results:
  * `taken_matches` — an open that adds both requests, and a close, keep the
    requests in step with the open files.
  * `opens_matches_iff` — the requests match the open files all the time exactly
    when no request is refused.
-/
import CodeSnippet.CInt
import CodeSnippet.Transition

namespace CodeSnippet

open Transition

/-! ### The drivers -/

/-- `enum freq_qos_req_type` and `enum dev_pm_qos_req_type`. -/
inductive QosReqType
  | freqQosMin
  | freqQosMax
  | devPmQosMinFrequency
  | devPmQosMaxFrequency
  deriving DecidableEq

def freqQosMinDefaultValue : ℤ := 0

def freqQosMaxDefaultValue : ℤ := 2147483647

/-- What `kzalloc` returned, and the field `dev`, whose constraints the requests
are for. -/
structure QosHandle where
  addr : ℕ
  dev : ℕ
  deriving DecidableEq

/-- The requests that are part of a handle. -/
inductive QosReqField
  | qosReqMin
  | qosReqMax
  deriving DecidableEq

structure QosRequest where
  handle : QosHandle
  field : QosReqField
  reqType : QosReqType
  value : ℤ
  deriving DecidableEq

/-- The registered requests, the allocated handles, and the handles of the open
files. -/
structure QosFiles where
  registered : List QosRequest
  allocated : List QosHandle
  opened : List QosHandle

namespace QosFiles

def blank : QosFiles := ⟨[], [], []⟩

/-- `freq_qos_add_request` and `dev_pm_qos_add_request`, when they return
`ret`. -/
def addRequest (st : QosFiles) (ret : ℤ) (r : QosRequest) : QosFiles :=
  if ret < 0 then st else { st with registered := r :: st.registered }

/-- `freq_qos_remove_request` and `dev_pm_qos_remove_request`. -/
def removeRequest (st : QosFiles) (handle : QosHandle) (field : QosReqField) : QosFiles :=
  { st with registered :=
      st.registered.filter fun r => ¬ (r.handle.addr = handle.addr ∧ r.field = field) }

def kzalloc (st : QosFiles) (handle : QosHandle) : QosFiles :=
  { st with allocated := handle :: st.allocated }

def kfree (st : QosFiles) (handle : QosHandle) : QosFiles :=
  { st with allocated := st.allocated.filter fun h => h.addr ≠ handle.addr }

end QosFiles

/-- A call of open for the device `dev`: the address that `kzalloc` returns, if
any, and what the two calls that add a request return. -/
structure QosOpenCall where
  dev : ℕ
  addr : Option ℕ
  addMin : ℤ
  addMax : ℤ

/-- The types of a driver's requests. -/
structure QosReqTypes where
  min : QosReqType
  max : QosReqType

def QosReqTypes.minRequest (types : QosReqTypes) (handle : QosHandle) : QosRequest :=
  ⟨handle, .qosReqMin, types.min, freqQosMinDefaultValue⟩

def QosReqTypes.maxRequest (types : QosReqTypes) (handle : QosHandle) : QosRequest :=
  ⟨handle, .qosReqMax, types.max, freqQosMaxDefaultValue⟩

/-- The return value and the state. -/
def freqQosOpen (types : QosReqTypes) (st : QosFiles) (call : QosOpenCall) : ℤ × QosFiles :=
  match call.addr with
  | none => (-eNoMem, st)
  | some addr =>
      let handle : QosHandle := ⟨addr, call.dev⟩
      let st := st.kzalloc handle
      let ret := call.addMin
      let st := st.addRequest ret (types.minRequest handle)
      -- neither early return frees the handle
      if ret < 0 then (ret, st)
      else
        let ret := call.addMax
        let st := st.addRequest ret (types.maxRequest handle)
        if ret < 0 then (ret, st) else (0, st)

def freqQosClose (st : QosFiles) (handle : QosHandle) : ℤ × QosFiles :=
  let st := st.removeRequest handle .qosReqMin
  let st := st.removeRequest handle .qosReqMax
  (0, st.kfree handle)

def cpuFreqReqTypes : QosReqTypes := ⟨.freqQosMin, .freqQosMax⟩

def devFreqReqTypes : QosReqTypes := ⟨.devPmQosMinFrequency, .devPmQosMaxFrequency⟩

def cpuFreqQosOpen : QosFiles → QosOpenCall → ℤ × QosFiles := freqQosOpen cpuFreqReqTypes

def cpuFreqQosClose : QosFiles → QosHandle → ℤ × QosFiles := freqQosClose

def devFreqQosOpen : QosFiles → QosOpenCall → ℤ × QosFiles := freqQosOpen devFreqReqTypes

def devFreqQosClose : QosFiles → QosHandle → ℤ × QosFiles := freqQosClose

inductive QosDriver
  | cpufreq
  | devfreq

namespace QosDriver

def types : QosDriver → QosReqTypes
  | cpufreq => cpuFreqReqTypes
  | devfreq => devFreqReqTypes

def fopsOpen : QosDriver → QosFiles → QosOpenCall → ℤ × QosFiles
  | cpufreq => cpuFreqQosOpen
  | devfreq => devFreqQosOpen

def fopsRelease : QosDriver → QosFiles → QosHandle → ℤ × QosFiles
  | cpufreq => cpuFreqQosClose
  | devfreq => devFreqQosClose

end QosDriver

/-! ### Opening and closing files -/

inductive QosFileEvent
  | open (call : QosOpenCall)
  | close (handle : QosHandle)

/-- The file keeps the handle in `private_data` when open has returned 0. -/
def openFile (driver : QosDriver) (st : QosFiles) (call : QosOpenCall) : QosFiles :=
  let (ret, st) := driver.fopsOpen st call
  match call.addr with
  | some addr => if ret = 0 then { st with opened := ⟨addr, call.dev⟩ :: st.opened } else st
  | none => st

def closeFile (driver : QosDriver) (st : QosFiles) (handle : QosHandle) : QosFiles :=
  let (_, st) := driver.fopsRelease st handle
  { st with opened := st.opened.filter fun h => h.addr ≠ handle.addr }

/-- `kzalloc` returns no memory that is in use, and only open files are
closed. -/
def qosFiles (driver : QosDriver) : EventSystem QosFiles QosFileEvent where
  init := fun st => st = .blank
  take := fun st e => match e with
    | .open call =>
        if ∀ h ∈ st.allocated, call.addr ≠ some h.addr then some (openFile driver st call) else none
    | .close handle => if handle ∈ st.opened then some (closeFile driver st handle) else none

/-- The registered requests are a minimum and a maximum request for each open
handle, and only the open handles are allocated. -/
structure QosFiles.Matches (types : QosReqTypes) (st : QosFiles) : Prop where
  registered : st.registered.Perm
    (st.opened.flatMap fun h => [types.minRequest h, types.maxRequest h])
  allocated : ∀ h ∈ st.allocated, h ∈ st.opened

/-- No request of an open is refused. -/
def QosFileEvent.Adds : QosFileEvent → Prop
  | .open call => call.addr ≠ none → 0 ≤ call.addMin ∧ 0 ≤ call.addMax
  | .close _ => True

/-! ### One call -/

theorem fopsOpen_eq (driver : QosDriver) : driver.fopsOpen = freqQosOpen driver.types := by
  cases driver <;> rfl

theorem fopsRelease_eq (driver : QosDriver) : driver.fopsRelease = freqQosClose := by
  cases driver <;> rfl

theorem openFile_noMemory (driver : QosDriver) (st : QosFiles) {call : QosOpenCall}
    (h : call.addr = none) : openFile driver st call = st := by
  simp [openFile, fopsOpen_eq, freqQosOpen, h]

theorem openFile_adds (driver : QosDriver) (st : QosFiles) {call : QosOpenCall} {addr : ℕ}
    (h : call.addr = some addr) (hmin : 0 ≤ call.addMin) (hmax : 0 ≤ call.addMax) :
    openFile driver st call =
      ⟨driver.types.maxRequest ⟨addr, call.dev⟩ :: driver.types.minRequest ⟨addr, call.dev⟩ ::
        st.registered, ⟨addr, call.dev⟩ :: st.allocated, ⟨addr, call.dev⟩ :: st.opened⟩ := by
  simp [openFile, fopsOpen_eq, freqQosOpen, h, QosFiles.addRequest, QosFiles.kzalloc,
    not_lt.mpr hmin, not_lt.mpr hmax]

/-- The early returns leave the handle behind. -/
theorem openFile_refused (driver : QosDriver) (st : QosFiles) {call : QosOpenCall} {addr : ℕ}
    (h : call.addr = some addr) (hrefused : ¬ (0 ≤ call.addMin ∧ 0 ≤ call.addMax)) :
    (openFile driver st call).allocated = ⟨addr, call.dev⟩ :: st.allocated ∧
      (openFile driver st call).opened = st.opened := by
  by_cases hmin : call.addMin < 0
  · simp [openFile, fopsOpen_eq, freqQosOpen, h, QosFiles.addRequest, QosFiles.kzalloc, hmin,
      hmin.ne]
  · have hmax : call.addMax < 0 := not_le.mp fun hmax => hrefused ⟨not_lt.mp hmin, hmax⟩
    simp [openFile, fopsOpen_eq, freqQosOpen, h, QosFiles.addRequest, QosFiles.kzalloc, hmin,
      hmax, hmax.ne]

/-- Close leaves nothing of its handle. -/
theorem closeFile_eq (driver : QosDriver) (st : QosFiles) (handle : QosHandle) :
    closeFile driver st handle =
      ⟨st.registered.filter fun r => r.handle.addr ≠ handle.addr,
        st.allocated.filter fun h => h.addr ≠ handle.addr,
        st.opened.filter fun h => h.addr ≠ handle.addr⟩ := by
  simp only [closeFile, fopsRelease_eq, freqQosClose, QosFiles.removeRequest, QosFiles.kfree,
    List.filter_filter]
  congr 2
  funext r
  -- one of the two calls takes back the request, whichever field it is in
  cases r.field <;> by_cases h : r.handle.addr = handle.addr <;> simp [h]

theorem closeFile_requests (types : QosReqTypes) (opened : List QosHandle) (addr : ℕ) :
    ((opened.flatMap fun h => [types.minRequest h, types.maxRequest h]).filter
        fun r => r.handle.addr ≠ addr) =
      (opened.filter fun h => h.addr ≠ addr).flatMap
        fun h => [types.minRequest h, types.maxRequest h] := by
  induction opened with
  | nil => rfl
  | cons h opened ih =>
      rw [List.flatMap_cons, List.filter_append, ih]
      by_cases e : h.addr = addr <;>
        simp [e, QosReqTypes.minRequest, QosReqTypes.maxRequest]

/-- A call whose requests are not refused keeps the requests in step. -/
theorem taken_matches {driver : QosDriver} {st t : QosFiles} {e : QosFileEvent}
    (h : st.Matches driver.types) (hadds : e.Adds) (htake : (qosFiles driver).take st e = some t) :
    t.Matches driver.types := by
  cases e with
  | «open» call =>
      obtain ⟨-, hopen⟩ := Option.ite_none_right_eq_some.mp htake
      rw [← Option.some_inj.mp hopen]
      rcases haddr : call.addr with _ | addr
      · rw [openFile_noMemory driver st haddr]
        exact h
      · obtain ⟨hmin, hmax⟩ := hadds (by simp [haddr])
        rw [openFile_adds driver st haddr hmin hmax]
        constructor
        · exact (List.Perm.swap ..).trans ((h.registered.cons _).cons _)
        · intro handle hmem
          rcases List.mem_cons.mp hmem with rfl | hmem
          · exact List.mem_cons_self
          · exact List.mem_cons_of_mem _ (h.allocated handle hmem)
  | close handle =>
      obtain ⟨-, hclose⟩ := Option.ite_none_right_eq_some.mp htake
      rw [← Option.some_inj.mp hclose, closeFile_eq]
      constructor
      · rw [← closeFile_requests]
        exact h.registered.filter _
      · intro other hmem
        obtain ⟨hmem, hne⟩ := List.mem_filter.mp hmem
        exact List.mem_filter.mpr ⟨h.allocated other hmem, hne⟩

/-! ### Sequences of calls -/

/-- The handles of the open files are allocated. -/
theorem run_opened {driver : QosDriver} {es : List QosFileEvent} {st : QosFiles}
    (hrun : (qosFiles driver).run .blank es = some st) :
    ∀ handle ∈ st.opened, handle ∈ st.allocated := by
  have hreach : Reachable (qosFiles driver).system st :=
    EventSystem.reachable_run (.init rfl) (fun _ _ _ => trivial) hrun
  refine EventSystem.invariant (P := fun st => ∀ handle ∈ st.opened, handle ∈ st.allocated)
    ?_ ?_ hreach
  · rintro _ rfl handle hmem
    cases hmem
  · rintro st e t hst - htake
    cases e with
    | «open» call =>
        obtain ⟨-, hopen⟩ := Option.ite_none_right_eq_some.mp htake
        rw [← Option.some_inj.mp hopen]
        rcases haddr : call.addr with _ | addr
        · rw [openFile_noMemory driver st haddr]
          exact hst
        · by_cases hadds : 0 ≤ call.addMin ∧ 0 ≤ call.addMax
          · rw [openFile_adds driver st haddr hadds.1 hadds.2]
            exact List.cons_subset_cons _ hst
          · obtain ⟨hallocated, hopened⟩ := openFile_refused driver st haddr hadds
            rw [hallocated, hopened]
            exact fun handle hmem => List.mem_cons_of_mem _ (hst handle hmem)
    | close handle =>
        obtain ⟨-, hclose⟩ := Option.ite_none_right_eq_some.mp htake
        rw [← Option.some_inj.mp hclose, closeFile_eq]
        exact List.filter_subset _ hst

theorem run_matches {driver : QosDriver} {es : List QosFileEvent} {st : QosFiles}
    (hadds : ∀ e ∈ es, e.Adds) (hrun : (qosFiles driver).run .blank es = some st) :
    st.Matches driver.types := by
  have hreach : Reachable ((qosFiles driver).under fun _ e => e.Adds) st :=
    EventSystem.reachable_run (.init rfl) (fun e hmem _ => hadds e hmem) hrun
  refine EventSystem.invariant (P := fun st => st.Matches driver.types) ?_ ?_ hreach
  · rintro _ rfl
    exact ⟨.nil, fun _ hmem => hmem⟩
  · intro st e t hst hadds htake
    exact taken_matches hst hadds htake

/-- An open whose requests are refused leaves a handle that no file has. -/
theorem refused_not_matches {driver : QosDriver} {st t : QosFiles} {e : QosFileEvent}
    (hopened : ∀ handle ∈ st.opened, handle ∈ st.allocated) (hrefused : ¬ e.Adds)
    (htake : (qosFiles driver).take st e = some t) : ¬ t.Matches driver.types := by
  intro hmatches
  cases e with
  | «open» call =>
      obtain ⟨hfresh, hopen⟩ := Option.ite_none_right_eq_some.mp htake
      rcases haddr : call.addr with _ | addr
      · exact hrefused fun h => absurd haddr h
      · obtain ⟨hallocated, hsame⟩ := openFile_refused driver st haddr fun h => hrefused fun _ => h
        rw [← Option.some_inj.mp hopen] at hmatches
        -- the handle would have to be that of an older file
        have hmem := hmatches.allocated ⟨addr, call.dev⟩ (hallocated ▸ List.mem_cons_self)
        rw [hsame] at hmem
        exact hfresh _ (hopened _ hmem) haddr
  | close handle => exact hrefused trivial

/-- **The requests match the open files** after every call of a sequence exactly
when no open of the sequence has a request refused. -/
theorem opens_matches_iff (driver : QosDriver) (es : List QosFileEvent) (st : QosFiles)
    (h : (qosFiles driver).run .blank es = some st) :
    (∀ fs, fs <+: es → ∀ t, (qosFiles driver).run .blank fs = some t →
      t.Matches driver.types) ↔ ∀ e ∈ es, e.Adds := by
  constructor
  · intro hmatches e hmem
    by_contra hrefused
    -- the run up to the refused open and the state that it leaves
    obtain ⟨fs, gs, rfl⟩ := List.append_of_mem hmem
    obtain ⟨t, hfs, hrest⟩ := EventSystem.run_append_inv h
    obtain ⟨u, htake, -⟩ := Option.bind_eq_some_iff.mp hrest
    have hrun : (qosFiles driver).run .blank (fs ++ [e]) = some u :=
      EventSystem.run_append hfs (by simp [EventSystem.run, htake])
    have hinit : fs ++ [e] <+: fs ++ e :: gs := ⟨gs, by simp⟩
    exact refused_not_matches (run_opened hfs) hrefused htake (hmatches _ hinit u hrun)
  · intro hadds fs hinit t hrun
    exact run_matches (fun e hmem => hadds e (hinit.subset hmem)) hrun

/-- `opens_matches_iff` for two opens and a close. -/
theorem opens_matches_iff_twoFiles :
    ∃ st, (qosFiles .devfreq).run .blank [.open ⟨0, some 1, 0, 1⟩, .open ⟨3, some 2, 1, 1⟩,
      .open ⟨3, none, -1, -1⟩, .close ⟨1, 0⟩] = some st ∧ st.Matches devFreqReqTypes := by
  have hrun : (qosFiles .devfreq).run .blank [.open ⟨0, some 1, 0, 1⟩, .open ⟨3, some 2, 1, 1⟩,
      .open ⟨3, none, -1, -1⟩, .close ⟨1, 0⟩] = some _ := rfl
  refine ⟨_, hrun, (opens_matches_iff .devfreq _ _ hrun).mpr ?_ _ (List.prefix_refl _) _ hrun⟩
  simp [QosFileEvent.Adds]

/-- The maximum request of an open is refused: the minimum request stays. -/
theorem not_matches : ¬ ∀ (driver : QosDriver) (es : List QosFileEvent) (st : QosFiles),
    (qosFiles driver).run .blank es = some st → st.Matches driver.types := by
  intro h
  have hrun : (qosFiles .cpufreq).run .blank [.open ⟨0, some 1, 0, -22⟩] =
      some ⟨[cpuFreqReqTypes.minRequest ⟨1, 0⟩], [⟨1, 0⟩], []⟩ := rfl
  have hperm := (h .cpufreq _ _ hrun).registered
  exact absurd (List.perm_nil.mp hperm) (List.cons_ne_nil _ _)

end CodeSnippet
