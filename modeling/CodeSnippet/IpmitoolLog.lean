/-
CodeSnippet/IpmitoolLog.lean

The logger of log/ipmitool_log.c.  The program keeps it behind the pointer
`logpriv`: `log_init` allocates the structure and a copy of the name, the first
message does so if nobody has, and `log_halt` frees both.  Any allocation can
fail.  The name is lent to the system log besides, which reads it with every
message it is sent until `closelog`.

What the logger is for is said without memory: `Logger` is its name, where it
writes and the level up to which it writes, and a closed logger is `none`.

Main results:
  * `log_refines` — in every sequence of calls the program answers, writes and
    fails as the logger does.
  * `logHalt_leaves` — behind `log_halt` the memory is that from before the
    first call, and the system log is closed.
-/
import CodeSnippet.Calls
import CodeSnippet.CharStream
import CodeSnippet.CInt
import CodeSnippet.CString
import CodeSnippet.HeapExtends

namespace CodeSnippet

open Memory Calls

namespace IpmitoolLog

/-! ### log.h -/

/-- `LOG_NOTICE` -/
def logNotice : ℤ := 5

/-- `LOG_NAME_DEFAULT` -/
def logNameDefault : List UInt8 := bytes "log"

/-- `LOG_MSG_LENGTH` -/
def logMsgLength : ℕ := 1024

/-! ### Memory -/

/-- `struct logpriv_s` -/
structure LogPriv where
  name : Ptr
  daemon : ℤ
  level : ℤ
  deriving DecidableEq

/-- What `malloc` and `strdup` allocate. -/
inductive LogCell
  | uninit
  | priv (p : LogPriv)
  | text (s : List UInt8)
  deriving DecidableEq

/-- What keeps the program from going on. -/
inductive LogFault
  | memory (f : Fault)
  /-- `verbose + LOG_NOTICE` does not fit `int` -/
  | overflow
  deriving DecidableEq

/-- What a call finds for its allocations; `none` returns `NULL`. -/
structure LogMemory where
  malloc : Option (Allocator LogCell)
  strdup : Option (Allocator LogCell)

/-- What is written.  The system log puts a name in front of the line; without
one it takes that of the program. -/
inductive LogOutput
  | syslog (ident : Option (List UInt8)) (level : ℤ) (line : List UInt8)
  | stderr (text : List UInt8)
  deriving DecidableEq

/-- The variable `logpriv`, the memory, and the name the system log was opened
with. -/
structure Log where
  logpriv : Ptr
  heap : Heap LogCell
  openlog : Option Ptr

def inMemory {α : Type} (x : Except Fault α) : Except LogFault α := x.mapError .memory

@[simp] theorem inMemory_ok {α : Type} (x : α) : inMemory (.ok x) = .ok x := rfl

@[simp] theorem inMemory_error {α : Type} (f : Fault) :
    inMemory (.error f : Except Fault α) = .error (.memory f) := rfl

/-- A pointer to something else counts as dangling. -/
def loadPriv (h : Heap LogCell) (p : Ptr) : Except LogFault LogPriv := do
  match ← inMemory (h.load p) with
  | .priv s => .ok s
  | _ => .error (.memory .dangling)

def loadText (h : Heap LogCell) (p : Ptr) : Except LogFault (List UInt8) := do
  match ← inMemory (h.load p) with
  | .text s => .ok s
  | _ => .error (.memory .dangling)

def strdup (malloc : Option (Allocator LogCell)) (s : List UInt8) (h : Heap LogCell) :
    Ptr × Heap LogCell :=
  match malloc with
  | none => (none, h)
  | some m => (some (m.malloc h), h.set (m.malloc h) (some (.text s)))

/-! ### ipmitool_log.c -/

/-- `verbose + LOG_NOTICE` -/
def levelOf (verbose : ℤ) : Except LogFault ℤ :=
  match checkedInt (verbose + logNotice) with
  | none => .error .overflow
  | some level => .ok level

/-- `fprintf(stderr, "ipmitool: malloc failure\n")` -/
def mallocFailure : LogOutput := .stderr (bytes "ipmitool: malloc failure\n")

def logInit (memory : LogMemory) (name : Option (List UInt8)) (isdaemon verbose : ℤ) (st : Log) :
    Except LogFault (List LogOutput × Log) :=
  if st.logpriv ≠ none then .ok ([], st)
  else
    match memory.malloc with
    | none => .ok ([], { st with logpriv := none })
    | some m => do
        let logpriv := some (m.malloc st.heap)
        let heap := st.heap.set (m.malloc st.heap) (some .uninit)
        let (copy, heap) := strdup memory.strdup (name.getD logNameDefault) heap
        let out := if copy = none then [mallocFailure] else []
        let level ← levelOf verbose
        let heap ← inMemory (heap.store logpriv (.priv ⟨copy, isdaemon, level⟩))
        .ok (out, ⟨logpriv, heap, if isdaemon ≠ 0 then some copy else st.openlog⟩)

def logReinit (memory : LogMemory) (st : Log) : Except LogFault (List LogOutput × Log) :=
  logInit memory none 0 0 st

def logHalt (st : Log) : Except LogFault Log :=
  if st.logpriv = none then .ok st
  else do
    let priv ← loadPriv st.heap st.logpriv
    let heap ←
      if priv.name ≠ none then do
        let heap ← inMemory (st.heap.free priv.name)
        inMemory (heap.store st.logpriv (.priv { priv with name := none }))
      else .ok st.heap
    let openlog := if priv.daemon ≠ 0 then none else st.openlog
    let heap ← inMemory (heap.free st.logpriv)
    .ok ⟨none, heap, openlog⟩

/-- The string in `logmsg` behind `vsnprintf`. -/
def logmsg (text : List UInt8) : List UInt8 := Block.untilNul (text.take (logMsgLength - 1))

/-- `syslog(level, "%s", line)`; the name must still be there. -/
def syslog (st : Log) (level : ℤ) (line : List UInt8) : Except LogFault LogOutput :=
  match st.openlog with
  | none | some none => .ok (.syslog none level line)
  | some (some ident) => do
      let ident ← loadText st.heap (some ident)
      .ok (.syslog (some ident) level line)

/-- `lprintf` and `lperror`, which differ in what they write behind the message.
`text` is the message as its format makes it. -/
def logPrint (behind : List UInt8) (memory : LogMemory) (level : ℤ) (text : List UInt8)
    (st : Log) : Except LogFault (List LogOutput × Log) := do
  let (out, st) ← (if st.logpriv = none then logReinit memory st else .ok ([], st))
  let priv ← loadPriv st.heap st.logpriv
  if priv.level < level then .ok (out, st)
  else
    let line := logmsg text ++ behind
    if priv.daemon ≠ 0 then do
      let written ← syslog st level line
      .ok (out ++ [written], st)
    else .ok (out ++ [.stderr (line ++ bytes "\n")], st)

def lprintf : LogMemory → ℤ → List UInt8 → Log → Except LogFault (List LogOutput × Log) :=
  logPrint []

def lperror (strerror : List UInt8) :
    LogMemory → ℤ → List UInt8 → Log → Except LogFault (List LogOutput × Log) :=
  logPrint (bytes ": " ++ strerror)

def logLevelGet (st : Log) : Except LogFault ℤ := do
  let priv ← loadPriv st.heap st.logpriv
  .ok priv.level

def logLevelSet (level : ℤ) (st : Log) : Except LogFault Log := do
  let priv ← loadPriv st.heap st.logpriv
  let heap ← inMemory (st.heap.store st.logpriv (.priv { priv with level }))
  .ok { st with heap }

/-- A call of one of the functions. -/
inductive LogCall
  | init (memory : LogMemory) (name : Option (List UInt8)) (isdaemon verbose : ℤ)
  | halt
  | levelGet
  | levelSet (level : ℤ)
  | lprintf (memory : LogMemory) (level : ℤ) (text : List UInt8)
  | lperror (memory : LogMemory) (level : ℤ) (text strerror : List UInt8)

/-- What is returned, and what is written. -/
abbrev LogAnswer := Option ℤ × List LogOutput

def call : LogCall → Log → Except LogFault (LogAnswer × Log)
  | .init memory name isdaemon verbose, st => do
      let (out, st) ← logInit memory name isdaemon verbose st
      .ok ((none, out), st)
  | .halt, st => do
      let st ← logHalt st
      .ok ((none, []), st)
  | .levelGet, st => do
      let level ← logLevelGet st
      .ok ((some level, []), st)
  | .levelSet level, st => do
      let st ← logLevelSet level st
      .ok ((none, []), st)
  | .lprintf memory level text, st => do
      let (out, st) ← lprintf memory level text st
      .ok ((none, out), st)
  | .lperror memory level text strerror, st => do
      let (out, st) ← lperror strerror memory level text st
      .ok ((none, out), st)

/-! ### The logger -/

/-- An open logger. -/
structure Logger where
  name : Option (List UInt8)
  daemon : Bool
  level : ℤ
  deriving DecidableEq

namespace Logger

/-- A closed logger is opened.  Without memory it stays closed, and without
memory for the name it has none and says so. -/
def openWith (memory : LogMemory) (name : Option (List UInt8)) (isdaemon verbose : ℤ) :
    Except LogFault (List LogOutput × Option Logger) :=
  if memory.malloc.isNone then .ok ([], none)
  else do
    let level ← levelOf verbose
    .ok (if memory.strdup.isNone then [mallocFailure] else [],
      some ⟨memory.strdup.map fun _ => name.getD logNameDefault, decide (isdaemon ≠ 0), level⟩)

/-- A line is written if its level is not above that of the logger. -/
def write (l : Logger) (level : ℤ) (line : List UInt8) : List LogOutput :=
  if l.level < level then []
  else if l.daemon then [.syslog l.name level line]
  else [.stderr (line ++ bytes "\n")]

/-- A message opens a closed logger. -/
def print (behind : List UInt8) (memory : LogMemory) (level : ℤ) (text : List UInt8)
    (t : Option Logger) : Except LogFault (List LogOutput × Option Logger) := do
  let (out, t) ← (if t.isNone then openWith memory none 0 0 else .ok ([], t))
  match t with
  | none => .error (.memory .null)
  | some l => .ok (out ++ l.write level (logmsg text ++ behind), some l)

def call : LogCall → Option Logger → Except LogFault (LogAnswer × Option Logger)
  | .init memory name isdaemon verbose, none => do
      let (out, t) ← openWith memory name isdaemon verbose
      .ok ((none, out), t)
  | .init .., some l => .ok ((none, []), some l)
  | .halt, _ => .ok ((none, []), none)
  | .levelGet, some l => .ok ((some l.level, []), some l)
  | .levelSet level, some l => .ok ((none, []), some { l with level })
  | .levelGet, none | .levelSet _, none => .error (.memory .null)
  | .lprintf memory level text, t => do
      let (out, t) ← print [] memory level text t
      .ok ((none, out), t)
  | .lperror memory level text strerror, t => do
      let (out, t) ← print (bytes ": " ++ strerror) memory level text t
      .ok ((none, out), t)

end Logger

/-! ### The program keeps a logger -/

/-- The name at a pointer. -/
inductive NameAt (h : Heap LogCell) : Ptr → Option (List UInt8) → Prop
  | null : NameAt h none none
  | text {a : ℕ} {s : List UInt8} (ha : h.cell a = some (.text s)) : NameAt h (some a) (some s)

/-- The program keeps a logger in memory that was free in `h₀`. -/
inductive Holds (h₀ : Heap LogCell) : Log → Option Logger → Prop
  | closed : Holds h₀ ⟨none, h₀, none⟩ none
  | opened {h : Heap LogCell} {p : ℕ} {name : Ptr} {daemon level : ℤ}
      {text : Option (List UInt8)} (hpriv : h.cell p = some (.priv ⟨name, daemon, level⟩))
      (hname : NameAt h name text) (hx : h₀.Extends h (p :: name.toList))
      (hp : p ∉ name.toList) :
      Holds h₀ ⟨some p, h, if daemon ≠ 0 then some name else none⟩
        (some ⟨text, decide (daemon ≠ 0), level⟩)

variable {h₀ : Heap LogCell} {st : Log} {t : Option Logger}

theorem loadPriv_eq {h : Heap LogCell} {p : ℕ} {s : LogPriv} (hp : h.cell p = some (.priv s)) :
    loadPriv h (some p) = .ok s := by
  rw [loadPriv, Heap.load_eq hp]
  rfl

theorem loadText_eq {h : Heap LogCell} {a : ℕ} {s : List UInt8} (ha : h.cell a = some (.text s)) :
    loadText h (some a) = .ok s := by
  rw [loadText, Heap.load_eq ha]
  rfl

theorem inMemory_store {h : Heap LogCell} {a : ℕ} {c : LogCell} (ha : h.cell a = some c)
    (d : LogCell) : inMemory (h.store (some a) d) = .ok (h.set a (some d)) := by
  rw [Heap.store_eq ha, inMemory_ok]

theorem inMemory_free {h : Heap LogCell} {a : ℕ} {c : LogCell} (ha : h.cell a = some c) :
    inMemory (h.free (some a)) = .ok (h.set a none) := by
  rw [Heap.free_eq ha, inMemory_ok]

/-- A name stays where it is when another cell is written. -/
theorem NameAt.set {h : Heap LogCell} {name : Ptr} {text : Option (List UInt8)}
    (hname : NameAt h name text) {p : ℕ} (hp : p ∉ name.toList) (c : Option LogCell) :
    NameAt (h.set p c) name text := by
  cases hname with
  | null => exact .null
  | text ha =>
      refine .text ?_
      rw [Heap.set_cell_ne (fun he => hp (by simp [he])), ha]

/-- `strdup` behind the allocation of the structure. -/
theorem strdup_eq {h : Heap LogCell} {p : ℕ} (hx : h₀.Extends h [p])
    (malloc : Option (Allocator LogCell)) (s : List UInt8) :
    ∃ name h', strdup malloc s h = (name, h') ∧ NameAt h' name (malloc.map fun _ => s) ∧
      h₀.Extends h' (p :: name.toList) ∧ p ∉ name.toList ∧ (name = none ↔ malloc.isNone) := by
  cases malloc with
  | none => exact ⟨none, h, rfl, .null, hx, List.not_mem_nil, by simp⟩
  | some m =>
      have hne : p ≠ m.malloc h := by
        intro he
        obtain ⟨c, hc⟩ := hx.allocated p (List.mem_singleton_self p)
        have hfree := m.fresh h
        rw [← he, hc] at hfree
        cases hfree
      refine ⟨some (m.malloc h), _, rfl, .text (Heap.set_cell_self ..), ?_, ?_, by simp⟩
      · exact (hx.alloc (m.fresh h) (.text s)).congr fun a => (List.Perm.swap ..).mem_iff
      · simpa using hne

/-- `log_init` opens a closed logger. -/
theorem logInit_closed (h₀ : Heap LogCell) (memory : LogMemory) (name : Option (List UInt8))
    (isdaemon verbose : ℤ) :
    Matches (Holds h₀) (logInit memory name isdaemon verbose ⟨none, h₀, none⟩)
      (Logger.openWith memory name isdaemon verbose) := by
  rw [logInit, if_neg (fun h => h rfl), Logger.openWith]
  rcases hmalloc : memory.malloc with - | m
  · exact ⟨rfl, .closed⟩
  · have hx : h₀.Extends (h₀.set (m.malloc h₀) (some .uninit)) [m.malloc h₀] :=
      (Heap.Extends.refl h₀).alloc (m.fresh h₀) .uninit
    obtain ⟨copy, h', hstrdup, hname, hx', hp, hnull⟩ :=
      strdup_eq hx memory.strdup (name.getD logNameDefault)
    obtain ⟨c, hc⟩ := hx'.allocated (m.malloc h₀) List.mem_cons_self
    rw [if_neg (by simp)]
    simp only [hstrdup, inMemory_store hc, ok_bind]
    rcases levelOf verbose with e | level
    · rfl
    · refine ⟨?_, ?_⟩
      · by_cases hcopy : copy = none
        · rw [if_pos hcopy, if_pos (hnull.mp hcopy)]
        · rw [if_neg hcopy, if_neg (fun h => hcopy (hnull.mpr h))]
      · exact .opened (Heap.set_cell_self ..) (hname.set hp _)
          (hx'.update List.mem_cons_self _) hp

/-- `log_halt` closes it. -/
theorem logHalt_eq (h : Holds h₀ st t) : logHalt st = .ok ⟨none, h₀, none⟩ := by
  cases h with
  | closed => rfl
  | @opened h p name daemon level text hpriv hname hx hp =>
      rw [logHalt, if_neg (Option.some_ne_none p), loadPriv_eq hpriv, ok_bind]
      have hopen : (if daemon ≠ 0 then none else if daemon ≠ 0 then some name else none) =
          (none : Option Ptr) := by
        split <;> rfl
      cases hname with
      | null =>
          rw [if_neg (fun h => h rfl), ok_bind]
          simp only [hopen, inMemory_free hpriv, ok_bind]
          have hx : h₀.Extends h [p] := hx
          rw [Heap.set_none, hx.without_eq]
      | @text a s ha =>
          have hpa : p ≠ a := by simpa using hp
          have hpriv' : (h.set a none).cell p = some (.priv ⟨some a, daemon, level⟩) := by
            rw [Heap.set_cell_ne hpa, hpriv]
          rw [if_pos (Option.some_ne_none a)]
          simp only [inMemory_free ha, ok_bind, inMemory_store hpriv', hopen,
            inMemory_free (Heap.set_cell_self (h.set a none) p (some _))]
          have hcells : ∀ b, b ∈ [a] ++ [p] ↔ b ∈ p :: (some a).toList := by
            intro b
            simp [or_comm]
          rw [Heap.set_set, Heap.set_none, Heap.set_none, Heap.without_without,
            Heap.without_congr hcells, hx.without_eq]

/-- While the logger is open its name is what the system log finds. -/
theorem syslog_eq {h : Heap LogCell} {p : ℕ} {name : Ptr} {text : Option (List UInt8)}
    (hname : NameAt h name text) (level : ℤ) (line : List UInt8) :
    syslog ⟨some p, h, some name⟩ level line = .ok (.syslog text level line) := by
  cases hname with
  | null => rfl
  | text ha =>
      show (loadText h _ >>= _) = _
      rw [loadText_eq ha, ok_bind]

/-- **A message.** -/
theorem logPrint_matches (h : Holds h₀ st t) (behind : List UInt8) (memory : LogMemory) (level : ℤ)
    (text : List UInt8) :
    Matches (Holds h₀) (logPrint behind memory level text st)
      (Logger.print behind memory level text t) := by
  have hopen : Matches (Holds h₀)
      (if st.logpriv = none then logReinit memory st else .ok ([], st))
      (if t.isNone then Logger.openWith memory none 0 0 else .ok ([], t)) := by
    cases h with
    | closed => exact logInit_closed h₀ memory none 0 0
    | opened hpriv hname hx hp => exact ⟨rfl, .opened hpriv hname hx hp⟩
  refine hopen.bind fun out st₁ t₁ h₁ => ?_
  cases h₁ with
  | closed => rfl
  | @opened h p name daemon bound ident hpriv hname hx hp =>
      have hholds := Holds.opened hpriv hname hx hp
      show Matches _ (loadPriv h (some p) >>= _) (Except.ok _)
      rw [loadPriv_eq hpriv, ok_bind, Logger.write]
      by_cases hlevel : bound < level
      · rw [if_pos hlevel, if_pos hlevel, List.append_nil]
        exact ⟨rfl, hholds⟩
      · rw [if_neg hlevel, if_neg hlevel]
        by_cases hdaemon : daemon ≠ 0
        · have hsyslog := syslog_eq (p := p) hname level (logmsg text ++ behind)
          simp only [hdaemon, if_true, ne_eq, not_false_eq_true, decide_true, hsyslog,
            ok_bind] at hholds ⊢
          exact ⟨rfl, hholds⟩
        · simp only [hdaemon, if_false, decide_false] at hholds ⊢
          exact ⟨rfl, hholds⟩

/-- **One call.** -/
theorem call_matches (c : LogCall) (st : Log) (t : Option Logger) (h : Holds h₀ st t) :
    Matches (Holds h₀) (call c st) (Logger.call c t) := by
  cases c with
  | init memory name isdaemon verbose =>
      cases h with
      | closed =>
          exact (logInit_closed h₀ memory name isdaemon verbose).bind
            fun out st' t' h' => ⟨rfl, h'⟩
      | opened hpriv hname hx hp => exact ⟨rfl, .opened hpriv hname hx hp⟩
  | halt =>
      rw [call, logHalt_eq h]
      exact ⟨rfl, .closed⟩
  | levelGet =>
      cases h with
      | closed => rfl
      | opened hpriv hname hx hp =>
          rw [call, logLevelGet, loadPriv_eq hpriv]
          exact ⟨rfl, .opened hpriv hname hx hp⟩
  | levelSet level =>
      cases h with
      | closed => rfl
      | opened hpriv hname hx hp =>
          rw [call, logLevelSet, loadPriv_eq hpriv, ok_bind, inMemory_store hpriv]
          exact ⟨rfl, .opened (Heap.set_cell_self ..) (hname.set hp _)
            (hx.update List.mem_cons_self _) hp⟩
  | lprintf memory level text =>
      exact (logPrint_matches h [] memory level text).bind fun out st' t' h' => ⟨rfl, h'⟩
  | lperror memory level text strerror =>
      exact (logPrint_matches h (bytes ": " ++ strerror) memory level text).bind
        fun out st' t' h' => ⟨rfl, h'⟩

/-! ### Any calls -/

/-- **The program is the logger.**  In every sequence of calls it answers and
writes what the logger does, it fails where the logger fails and in the same
way, and it keeps the logger in memory of its own. -/
theorem log_refines (h₀ : Heap LogCell) (calls : List LogCall) :
    Matches (Holds h₀) (run call calls ⟨none, h₀, none⟩) (run Logger.call calls none) :=
  run_matches call_matches .closed calls

/-- **What is left behind `log_halt`**: nothing. -/
theorem logHalt_leaves {h₀ : Heap LogCell} {calls : List LogCall} {answers : List LogAnswer}
    (hrun : run call calls ⟨none, h₀, none⟩ = .ok (answers, st)) :
    logHalt st = .ok ⟨none, h₀, none⟩ := by
  obtain ⟨t, -, hholds⟩ := (run_matches call_matches .closed calls).of_ok hrun
  exact logHalt_eq hholds

/-- Both allocations succeed. -/
def enough : LogMemory := ⟨some (firstFree _), some (firstFree _)⟩

/-- A daemon that writes up to `LOG_INFO`, and two messages. -/
def daemonCalls : List LogCall :=
  [.init enough (some (bytes "sel")) 1 1, .lprintf enough 6 (bytes "ready"),
    .lprintf enough 7 (bytes "poll")]

/-- `logHalt_leaves` for the daemon. -/
theorem logHalt_leaves_daemon : ∃ st,
    run call daemonCalls ⟨none, .empty, none⟩ =
        .ok ([(none, []), (none, [.syslog (some (bytes "sel")) 6 (bytes "ready")]), (none, [])],
          st) ∧
      logHalt st = .ok ⟨none, .empty, none⟩ := by
  have hlogger : run Logger.call daemonCalls none =
      .ok ([(none, []), (none, [.syslog (some (bytes "sel")) 6 (bytes "ready")]), (none, [])],
        some ⟨some (bytes "sel"), true, 6⟩) := rfl
  obtain ⟨st, hrun, -⟩ := (run_matches call_matches .closed daemonCalls).of_ok_right hlogger
  exact ⟨st, hrun, logHalt_leaves hrun⟩

end IpmitoolLog

end CodeSnippet
