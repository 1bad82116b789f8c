/-
CodeSnippet/WorkSetup.lean

Loading and unloading src/kernel_module/workqueue_test: what
`proc_workqueue_unbound_test_init` acquires, in a loop over `num_work` entries,
and what `proc_workqueue_unbound_test_remove` releases.

A failing loop returns without releasing anything.  The CPU hotplug state is
removed in the callback for one entry, that is, as often as there are entries.

Main results:
  * `init_eq_some_iff` — how the loop can end.
  * `remove_eq` — what is released then.
  * `exact_iff` — when both are exact.
-/
import CodeSnippet.Ledger

namespace CodeSnippet

namespace WorkSetup

/-! ### Source -/

/-- What is acquired and released. -/
inductive Resource
  | myKretprobe
  | myWqOfflineKretprobe
  /-- `struct test_work` -/
  | entry (id : ℕ)
  | work (id : ℕ)
  | timer (id : ℕ)
  | kthread (id : ℕ)
  | cpuhpState
  | procTestInfo
  deriving DecidableEq

/-- The answers of the kernel.  `idr_alloc` and `kzalloc` are called once in each
round of the loop, and so is `kthread_run`, which returns a task or an error
pointer.  `cpuhp_setup_state` returns a positive state or an error. -/
structure Kernel where
  registerMyKretprobe : ℤ
  registerMyWqOfflineKretprobe : ℤ
  idrAlloc : ℕ → Option {rc : ℤ // rc < 0}
  kzalloc : ℕ → Bool
  kthreadRun : ℕ → Bool
  cpuhpSetupState : ℤ
  procCreate : Bool

/-- The fields of `struct test_work` that are needed to release it; `kthread` is
false for an error pointer. -/
structure TestEntry where
  id : ℕ
  kthread : Bool

/-- The variables of the module. -/
structure State where
  testWorkIdr : List (ℕ × Option TestEntry)
  gCpuhpState : ℤ
  procTestInfo : Bool
  ledger : Ledger Resource

def State.blank : State := ⟨[], -1, false, .blank⟩

def kretprobeInit (k : Kernel) (l : Ledger Resource) : ℤ × Ledger Resource :=
  if k.registerMyKretprobe < 0 then (-1, l)
  else
    let l := l.acquire .myKretprobe
    if k.registerMyWqOfflineKretprobe < 0 then (-1, l)
    else (0, l.acquire .myWqOfflineKretprobe)

def kretprobeExit (l : Ledger Resource) : Ledger Resource :=
  (l.release .myKretprobe).release .myWqOfflineKretprobe

def idrReplace (idr : List (ℕ × Option TestEntry)) (entry : TestEntry) (id : ℕ) :
    List (ℕ × Option TestEntry) :=
  idr.map fun p => if p.1 = id then (p.1, some entry) else p

/-- The loop of `proc_workqueue_unbound_test_init` from the `i`-th round on, with
`n` rounds left. -/
def initLoop (k : Kernel) : ℕ → ℕ → State → Option (ℤ × State)
  | 0, _, s => some (0, s)
  | n + 1, i, s =>
      match k.idrAlloc i with
      | some rc => some (rc, s)
      | none =>
          -- no id has been given back, so that the lowest free id is their number
          let rc := s.testWorkIdr.length
          let idr := s.testWorkIdr ++ [(rc, none)]
          if k.kzalloc i then
            let l := ((s.ledger.acquire (.entry rc)).acquire (.work rc)).acquire (.timer rc)
            let l := if k.kthreadRun i then l.acquire (.kthread rc) else l
            let entry : TestEntry := ⟨rc, k.kthreadRun i⟩
            initLoop k n (i + 1) { s with testWorkIdr := idrReplace idr entry entry.id, ledger := l }
          else none

/-- `proc_workqueue_unbound_test_init`.  When CPUs come online, timers are
cancelled and started again. -/
def init (k : Kernel) (numWork : ℕ) : Option (ℤ × State) := do
  let (_, l) := kretprobeInit k State.blank.ledger
  let (rc, s) ← initLoop k numWork 0 { State.blank with ledger := l }
  if rc < 0 then some (rc, s)
  else
    let l := if 0 < k.cpuhpSetupState then s.ledger.acquire .cpuhpState else s.ledger
    let l := if k.procCreate then l.acquire .procTestInfo else l
    some (0, { s with gCpuhpState := k.cpuhpSetupState, procTestInfo := k.procCreate, ledger := l })

/-- `cpuhp_remove_state`, where only a state that is positive can be removed. -/
def cpuhpRemoveState (state : ℤ) (l : Ledger Resource) : Option (Ledger Resource) :=
  if 0 < state then some (l.release .cpuhpState) else none

/-- `kthread_stop(entry->kthread)` -/
def kthreadStop (entry : TestEntry) (l : Ledger Resource) : Option (Ledger Resource) :=
  if entry.kthread then some (l.release (.kthread entry.id)) else none

def itemIdrFree (s : State) (p : Option TestEntry) : Option State :=
  match p with
  | none => some s
  | some entry => do
      let l ← if s.gCpuhpState ≠ -1 then cpuhpRemoveState s.gCpuhpState s.ledger else some s.ledger
      let l ← kthreadStop entry l
      let l := ((l.release (.timer entry.id)).release (.work entry.id)).release (.entry entry.id)
      some { s with ledger := l }

/-- `proc_workqueue_unbound_test_remove` -/
def remove (s : State) : Option State := do
  let l := if s.procTestInfo then s.ledger.release .procTestInfo else s.ledger
  let s ← s.testWorkIdr.foldlM (fun s p => itemIdrFree s p.2) { s with ledger := l }
  some { s with testWorkIdr := [], ledger := kretprobeExit s.ledger }

/-! ### Exactness -/

/-- Everything is released once: what belongs to an entry, and the hotplug state
and the proc entry where they exist. -/
structure TornDown (k : Kernel) (numWork : ℕ) (released : List Resource) : Prop where
  entries : ∀ i < numWork, ∀ r ∈ [Resource.kthread i, .timer i, .work i, .entry i],
    released.count r = 1
  cpuhpState : released.count .cpuhpState = if 0 < k.cpuhpSetupState then 1 else 0
  procTestInfo : released.count .procTestInfo = if k.procCreate then 1 else 0

/-- A failing initialisation leaves nothing behind, and a successful one can be
undone. -/
def Exact (k : Kernel) (numWork : ℕ) : Prop :=
  ∀ rc s, init k numWork = some (rc, s) →
    (rc < 0 → s.ledger.Balanced) ∧
    (0 ≤ rc → ∃ s', remove s = some s' ∧ TornDown k numWork s'.ledger.released)

/-- The `i`-th round goes through. -/
def Kernel.Serves (k : Kernel) (i : ℕ) : Prop := k.idrAlloc i = none ∧ k.kzalloc i = true

/-- The loop ends in its `i`-th round, where there is no id. -/
def Kernel.FailsAt (k : Kernel) (numWork i : ℕ) (rc : {rc : ℤ // rc < 0}) : Prop :=
  i < numWork ∧ (∀ j < i, k.Serves j) ∧ k.idrAlloc i = some rc

/-- The loop goes through. -/
def Kernel.Succeeds (k : Kernel) (numWork : ℕ) : Prop := ∀ i < numWork, k.Serves i

/-! ### The loop -/

/-- The element of `test_work_idr` that the `i`-th round leaves. -/
def Kernel.element (k : Kernel) (i : ℕ) : ℕ × Option TestEntry := (i, some ⟨i, k.kthreadRun i⟩)

/-- What the `i`-th round acquires. -/
def Kernel.acquiredAt (k : Kernel) (i : ℕ) : List Resource :=
  [.entry i, .work i, .timer i] ++ if k.kthreadRun i then [.kthread i] else []

/-- What `kretprobe_init` acquires. -/
def Kernel.kretprobes (k : Kernel) : List Resource :=
  if k.registerMyKretprobe < 0 then []
  else if k.registerMyWqOfflineKretprobe < 0 then [.myKretprobe]
  else [.myKretprobe, .myWqOfflineKretprobe]

/-- The state behind `i` rounds. -/
def Kernel.entered (k : Kernel) (i : ℕ) : State where
  testWorkIdr := (List.range i).map k.element
  gCpuhpState := -1
  procTestInfo := false
  ledger := ⟨k.kretprobes ++ (List.range i).flatMap k.acquiredAt, []⟩

variable {k : Kernel} {numWork : ℕ}

theorem kretprobeInit_ledger (k : Kernel) :
    { State.blank with ledger := (kretprobeInit k State.blank.ledger).2 } = k.entered 0 := by
  have hledger : (kretprobeInit k State.blank.ledger).2 = ⟨k.kretprobes ++ [], []⟩ := by
    unfold kretprobeInit Kernel.kretprobes
    split
    · rfl
    · split
      · rfl
      · rfl
  rw [hledger]
  rfl

theorem idrReplace_last (k : Kernel) (i : ℕ) :
    idrReplace ((List.range i).map k.element ++ [(i, none)]) ⟨i, k.kthreadRun i⟩ i =
      (List.range (i + 1)).map k.element := by
  rw [idrReplace, List.map_append, List.map_map, List.range_succ, List.map_append]
  congr 1
  · apply List.map_congr_left
    intro j hj
    exact if_neg (List.mem_range.mp hj).ne
  · exact congrArg (fun p => [p]) (if_pos rfl)

theorem initLoop_step {n i : ℕ} (h : k.Serves i) :
    initLoop k (n + 1) i (k.entered i) = initLoop k n (i + 1) (k.entered (i + 1)) := by
  obtain ⟨hidr, hzalloc⟩ := h
  have hid : (k.entered i).testWorkIdr.length = i := by
    rw [Kernel.entered, List.length_map, List.length_range]
  rw [initLoop, hidr]
  simp only [hid, hzalloc, if_true]
  congr 1
  rw [Kernel.entered, Kernel.entered, idrReplace_last, List.range_succ, List.flatMap_append,
    List.flatMap_singleton, Kernel.acquiredAt]
  congr 1
  split
  · simp [Ledger.acquire]
  · simp [Ledger.acquire]

/-- A round that does not go through ends the loop with the error of
`idr_alloc`, or, behind a failed `kzalloc`, without a defined result. -/
theorem initLoop_stop {n i : ℕ} {rc : ℤ} {s : State} (h : ¬ k.Serves i) :
    initLoop k (n + 1) i (k.entered i) = some (rc, s) ↔
      ∃ e, k.idrAlloc i = some e ∧ rc = e.1 ∧ s = k.entered i := by
  rw [initLoop]
  rcases hidr : k.idrAlloc i with _ | e
  · have hzalloc : ¬ k.kzalloc i = true := fun hz => h ⟨hidr, hz⟩
    simp only [if_neg hzalloc]
    constructor
    · intro hnone
      cases hnone
    · rintro ⟨e, he, -⟩
      cases he
  · simp only [Option.some.injEq, Prod.mk.injEq, exists_eq_left']
    exact and_congr eq_comm eq_comm

/-- **How the loop ends**, by induction on the rounds that are left. -/
theorem initLoop_eq_some_iff {n i : ℕ} {rc : ℤ} {s : State} :
    initLoop k n i (k.entered i) = some (rc, s) ↔
      (∃ d e, i ≤ d ∧ d < i + n ∧ (∀ j, i ≤ j → j < d → k.Serves j) ∧ k.idrAlloc d = some e ∧
        rc = e.1 ∧ s = k.entered d) ∨
      ((∀ j, i ≤ j → j < i + n → k.Serves j) ∧ rc = 0 ∧ s = k.entered (i + n)) := by
  induction n generalizing i with
  | zero =>
      rw [initLoop, Option.some.injEq, Prod.mk.injEq]
      constructor
      · rintro ⟨rfl, rfl⟩
        exact .inr ⟨fun j hle hlt => absurd hlt (Nat.not_lt.mpr hle), rfl, rfl⟩
      · rintro (⟨d, e, hle, hlt, -⟩ | ⟨-, rfl, rfl⟩)
        · exact absurd hlt (Nat.not_lt.mpr hle)
        · exact ⟨rfl, rfl⟩
  | succ n ih =>
      have hend : i + (n + 1) = i + 1 + n := by omega
      by_cases hserves : k.Serves i
      · -- the first round goes through, and the others follow
        have hrounds : ∀ m, (∀ j, i + 1 ≤ j → j < m → k.Serves j) ↔
            ∀ j, i ≤ j → j < m → k.Serves j := by
          intro m
          constructor
          · intro h j hle hlt
            rcases Nat.eq_or_lt_of_le hle with rfl | hgt
            · exact hserves
            · exact h j hgt hlt
          · exact fun h j hle hlt => h j (Nat.le_of_succ_le hle) hlt
        rw [initLoop_step hserves, ih, hrounds, ← hend]
        refine or_congr_left ⟨?_, ?_⟩
        · rintro ⟨d, e, hle, hlt, hall, hfail⟩
          exact ⟨d, e, by omega, hlt, (hrounds d).mp hall, hfail⟩
        · rintro ⟨d, e, hle, hlt, hall, hidr, hfail⟩
          have hne : i ≠ d := by
            rintro rfl
            rw [hserves.1] at hidr
            cases hidr
          exact ⟨d, e, by omega, hlt, (hrounds d).mpr hall, hidr, hfail⟩
      · rw [initLoop_stop hserves]
        constructor
        · rintro ⟨e, hidr, hrc, hs⟩
          refine .inl ⟨i, e, le_rfl, by omega, ?_, hidr, hrc, hs⟩
          exact fun j hle hlt => absurd hlt (Nat.not_lt.mpr hle)
        · rintro (⟨d, e, hle, -, hall, hidr, hrc, hs⟩ | ⟨hall, -⟩)
          · obtain rfl : i = d := by
              by_contra hne
              exact hserves (hall i le_rfl (Nat.lt_of_le_of_ne hle hne))
            exact ⟨e, hidr, hrc, hs⟩
          · exact absurd (hall i le_rfl (by omega)) hserves

/-- The state behind a successful initialisation. -/
def Kernel.loaded (k : Kernel) (numWork : ℕ) : State where
  testWorkIdr := (List.range numWork).map k.element
  gCpuhpState := k.cpuhpSetupState
  procTestInfo := k.procCreate
  ledger :=
    let l := (k.entered numWork).ledger
    let l := if 0 < k.cpuhpSetupState then l.acquire .cpuhpState else l
    if k.procCreate then l.acquire .procTestInfo else l

/-- **How the initialisation ends.** -/
theorem init_eq_some_iff {rc : ℤ} {s : State} :
    init k numWork = some (rc, s) ↔
      (∃ i e, k.FailsAt numWork i e ∧ rc = e.1 ∧ s = k.entered i) ∨
      (k.Succeeds numWork ∧ rc = 0 ∧ s = k.loaded numWork) := by
  have hinit : init k numWork = (initLoop k numWork 0 (k.entered 0)).bind fun p =>
      if p.1 < 0 then some p
      else some (0, { p.2 with
        gCpuhpState := k.cpuhpSetupState
        procTestInfo := k.procCreate
        ledger :=
          let l := if 0 < k.cpuhpSetupState then p.2.ledger.acquire .cpuhpState else p.2.ledger
          if k.procCreate then l.acquire .procTestInfo else l }) := by
    rw [← kretprobeInit_ledger]
    rfl
  rw [hinit, Option.bind_eq_some_iff]
  simp only [Prod.exists, initLoop_eq_some_iff, Nat.zero_add, Nat.zero_le, true_and, true_imp_iff]
  constructor
  · rintro ⟨rc', s', ⟨i, e, hlt, hall, hidr, rfl, rfl⟩ | ⟨hall, rfl, rfl⟩, hend⟩
    · rw [if_pos e.2] at hend
      cases hend
      exact .inl ⟨i, e, ⟨hlt, hall, hidr⟩, rfl, rfl⟩
    · cases hend
      exact .inr ⟨hall, rfl, rfl⟩
  · rintro (⟨i, e, ⟨hlt, hall, hidr⟩, rfl, rfl⟩ | ⟨hall, rfl, rfl⟩)
    · exact ⟨e.1, _, .inl ⟨i, e, hlt, hall, hidr, rfl, rfl⟩, if_pos e.2⟩
    · exact ⟨0, _, .inr ⟨hall, rfl, rfl⟩, rfl⟩

/-- What a failing initialisation leaves behind. -/
theorem entered_balanced_iff {i : ℕ} :
    (k.entered i).ledger.Balanced ↔ i = 0 ∧ k.registerMyKretprobe < 0 := by
  have hprobes : k.kretprobes = [] ↔ k.registerMyKretprobe < 0 := by
    unfold Kernel.kretprobes
    split
    · exact iff_of_true rfl ‹_›
    · split <;> exact iff_of_false (List.cons_ne_nil _ _) ‹_›
  have hrounds : (List.range i).flatMap k.acquiredAt = [] ↔ i = 0 := by
    constructor
    · intro h
      by_contra hi
      have hmem : Resource.entry 0 ∈ (List.range i).flatMap k.acquiredAt :=
        List.mem_flatMap.mpr ⟨0, List.mem_range.mpr (Nat.pos_of_ne_zero hi), List.mem_cons_self ..⟩
      rw [h] at hmem
      cases hmem
    · rintro rfl
      rfl
  show [].Perm (k.kretprobes ++ (List.range i).flatMap k.acquiredAt) ↔ _
  rw [List.nil_perm, List.append_eq_nil_iff, hprobes, hrounds, and_comm]

/-! ### The callback for every entry -/

/-- What the callback releases for the `i`-th entry. -/
def Kernel.releasedAt (k : Kernel) (i : ℕ) : List Resource :=
  (if k.cpuhpSetupState ≠ -1 then [.cpuhpState] else []) ++
    [.kthread i, .timer i, .work i, .entry i]

/-- The callback can deal with the `i`-th entry. -/
def Kernel.Frees (k : Kernel) (i : ℕ) : Prop :=
  (k.cpuhpSetupState = -1 ∨ 0 < k.cpuhpSetupState) ∧ k.kthreadRun i = true

/-- The state with more resources released. -/
def State.releasing (s : State) (l : List Resource) : State :=
  { s with ledger := ⟨s.ledger.acquired, s.ledger.released ++ l⟩ }

theorem State.releasing_nil (s : State) : s.releasing [] = s := by
  rw [State.releasing, List.append_nil]

theorem State.releasing_releasing (s : State) (l l' : List Resource) :
    (s.releasing l).releasing l' = s.releasing (l ++ l') := by
  rw [State.releasing, State.releasing, State.releasing, List.append_assoc]

theorem itemIdrFree_eq_some_iff {s s' : State} (hg : s.gCpuhpState = k.cpuhpSetupState) (i : ℕ) :
    itemIdrFree s (k.element i).2 = some s' ↔ k.Frees i ∧ s' = s.releasing (k.releasedAt i) := by
  rw [Kernel.element, itemIdrFree, Kernel.Frees, Kernel.releasedAt, State.releasing, ← hg]
  by_cases hnone : s.gCpuhpState = -1
  · rw [if_neg (not_not_intro hnone), if_neg (not_not_intro hnone), List.nil_append]
    by_cases hthread : k.kthreadRun i = true
    · simp [kthreadStop, hthread, hnone, Ledger.release, eq_comm]
    · simp [kthreadStop, hthread]
  · rw [if_pos hnone, if_pos hnone, cpuhpRemoveState]
    by_cases hpos : 0 < s.gCpuhpState
    · by_cases hthread : k.kthreadRun i = true
      · simp [kthreadStop, hthread, hpos, Ledger.release, eq_comm]
      · simp [kthreadStop, hthread, hpos]
    · simp [hnone, hpos]

/-- **The callbacks for all entries**, by induction on their number. -/
theorem freeAll_eq_some_iff {n : ℕ} {s s' : State} (hg : s.gCpuhpState = k.cpuhpSetupState) :
    ((List.range n).map k.element).foldlM (fun s p => itemIdrFree s p.2) s = some s' ↔
      (∀ i < n, k.Frees i) ∧ s' = s.releasing ((List.range n).flatMap k.releasedAt) := by
  induction n generalizing s' with
  | zero =>
      show some s = some s' ↔ _
      rw [Option.some.injEq, List.range_zero, List.flatMap_nil, State.releasing_nil, eq_comm]
      exact (and_iff_right fun i hi => absurd hi (Nat.not_lt_zero i)).symm
  | succ n ih =>
      have hlast : ∀ t : State, [k.element n].foldlM (fun s p => itemIdrFree s p.2) t =
          itemIdrFree t (k.element n).2 := by
        intro t
        simp only [List.foldlM_cons, List.foldlM_nil, bind_pure]
      rw [List.range_succ, List.map_append, List.foldlM_append, List.flatMap_append,
        List.flatMap_singleton, ← State.releasing_releasing, Nat.forall_lt_succ_right, and_assoc]
      constructor
      · intro h
        obtain ⟨t, hinit, hn⟩ := Option.bind_eq_some_iff.mp h
        obtain ⟨hfrees, rfl⟩ := ih.mp hinit
        rw [List.map_singleton, hlast] at hn
        exact ⟨hfrees, (itemIdrFree_eq_some_iff (by exact hg) n).mp hn⟩
      · rintro ⟨hfrees, hn⟩
        refine Option.bind_eq_some_iff.mpr ⟨_, ih.mpr ⟨hfrees, rfl⟩, ?_⟩
        rw [List.map_singleton, hlast]
        exact (itemIdrFree_eq_some_iff (by exact hg) n).mpr hn

/-- All that the removal releases. -/
def Kernel.releasedBy (k : Kernel) (numWork : ℕ) : List Resource :=
  (if k.procCreate then [.procTestInfo] else []) ++ (List.range numWork).flatMap k.releasedAt ++
    [.myKretprobe, .myWqOfflineKretprobe]

/-- **What the removal releases**, where it comes to its end. -/
theorem remove_loaded_iff {P : List Resource → Prop} :
    (∃ s, remove (k.loaded numWork) = some s ∧ P s.ledger.released) ↔
      (∀ i < numWork, k.Frees i) ∧ P (k.releasedBy numWork) := by
  let l := if k.procCreate then (k.loaded numWork).ledger.release .procTestInfo
    else (k.loaded numWork).ledger
  have hl : l.released = if k.procCreate then [.procTestInfo] else [] := by
    show (ite _ _ _ : Ledger Resource).released = _
    unfold Kernel.loaded
    split_ifs <;> rfl
  have hremove : remove (k.loaded numWork) =
      (((List.range numWork).map k.element).foldlM (fun s p => itemIdrFree s p.2)
        { k.loaded numWork with ledger := l }).bind fun s =>
          some { s with testWorkIdr := [], ledger := kretprobeExit s.ledger } := rfl
  have hreleased : ∀ rounds : List Resource,
      (kretprobeExit ⟨l.acquired, l.released ++ rounds⟩).released =
        (if k.procCreate then [.procTestInfo] else []) ++ rounds ++
          [.myKretprobe, .myWqOfflineKretprobe] := by
    intro rounds
    rw [← hl]
    exact List.append_assoc _ [_] [_]
  rw [hremove, Kernel.releasedBy, ← hreleased]
  constructor
  · rintro ⟨s, hs, hP⟩
    obtain ⟨t, hfree, ht⟩ := Option.bind_eq_some_iff.mp hs
    obtain ⟨hfrees, rfl⟩ := (freeAll_eq_some_iff (by rfl)).mp hfree
    cases ht
    exact ⟨hfrees, hP⟩
  · rintro ⟨hfrees, hP⟩
    have hfree := (freeAll_eq_some_iff (k := k) (s := { k.loaded numWork with ledger := l })
      (by rfl)).mpr ⟨hfrees, rfl⟩
    exact ⟨_, Option.bind_eq_some_iff.mpr ⟨_, hfree, rfl⟩, hP⟩

/-! ### Counting -/

/-- What one of the rounds releases once. -/
theorem count_rounds_of_one {f : ℕ → List Resource} {r : Resource} {i : ℕ}
    (h : ∀ j, (f j).count r = if j = i then 1 else 0) (n : ℕ) :
    ((List.range n).flatMap f).count r = if i < n then 1 else 0 := by
  induction n with
  | zero => rfl
  | succ n ih =>
      rw [List.range_succ, List.flatMap_append, List.flatMap_singleton, List.count_append, ih, h]
      split_ifs <;> omega

/-- What every round releases equally often. -/
theorem count_rounds_of_all {f : ℕ → List Resource} {r : Resource} {c : ℕ}
    (h : ∀ j, (f j).count r = c) (n : ℕ) : ((List.range n).flatMap f).count r = n * c := by
  induction n with
  | zero => simp
  | succ n ih =>
      rw [List.range_succ, List.flatMap_append, List.flatMap_singleton, List.count_append, ih, h,
        Nat.succ_mul]

theorem count_releasedAt (k : Kernel) {i : ℕ} {r : Resource}
    (hr : r ∈ [Resource.kthread i, .timer i, .work i, .entry i]) (j : ℕ) :
    (k.releasedAt j).count r = if j = i then 1 else 0 := by
  unfold Kernel.releasedAt
  simp only [List.mem_cons, List.not_mem_nil, or_false] at hr
  rcases hr with rfl | rfl | rfl | rfl <;> split_ifs <;> simp_all

theorem count_releasedBy (k : Kernel) (numWork : ℕ) {i : ℕ} {r : Resource}
    (hr : r ∈ [Resource.kthread i, .timer i, .work i, .entry i]) :
    (k.releasedBy numWork).count r = if i < numWork then 1 else 0 := by
  have hproc : (if k.procCreate then [Resource.procTestInfo] else []).count r = 0 := by
    simp only [List.mem_cons, List.not_mem_nil, or_false] at hr
    rcases hr with rfl | rfl | rfl | rfl <;> split_ifs <;> rfl
  have hprobes : [Resource.myKretprobe, .myWqOfflineKretprobe].count r = 0 := by
    simp only [List.mem_cons, List.not_mem_nil, or_false] at hr
    rcases hr with rfl | rfl | rfl | rfl <;> rfl
  rw [Kernel.releasedBy, List.count_append, List.count_append, hproc, hprobes,
    count_rounds_of_one (count_releasedAt k hr), Nat.zero_add, Nat.add_zero]

/-- The hotplug state is released with every entry. -/
theorem count_cpuhpState (k : Kernel) (numWork : ℕ) :
    (k.releasedBy numWork).count .cpuhpState = if k.cpuhpSetupState = -1 then 0 else numWork := by
  have hround : ∀ j, (k.releasedAt j).count .cpuhpState =
      if k.cpuhpSetupState = -1 then 0 else 1 := by
    intro j
    unfold Kernel.releasedAt
    split_ifs <;> simp_all
  have hproc : (if k.procCreate then [Resource.procTestInfo] else []).count .cpuhpState = 0 := by
    split_ifs <;> rfl
  rw [Kernel.releasedBy, List.count_append, List.count_append, hproc, count_rounds_of_all hround]
  split_ifs <;> simp

theorem count_procTestInfo (k : Kernel) (numWork : ℕ) :
    (k.releasedBy numWork).count .procTestInfo = if k.procCreate then 1 else 0 := by
  have hround : ∀ j, (k.releasedAt j).count .procTestInfo = 0 := by
    intro j
    unfold Kernel.releasedAt
    split_ifs <;> rfl
  rw [Kernel.releasedBy, List.count_append, List.count_append, count_rounds_of_all hround]
  split_ifs <;> rfl

/-- The proc entry and the entries are released once in any case. -/
theorem tornDown_iff : TornDown k numWork (k.releasedBy numWork) ↔
    (if k.cpuhpSetupState = -1 then 0 else numWork) =
      if 0 < k.cpuhpSetupState then 1 else 0 := by
  rw [← count_cpuhpState]
  constructor
  · exact fun h => h.cpuhpState
  · intro h
    refine ⟨fun i hi r hr => ?_, h, count_procTestInfo k numWork⟩
    rw [count_releasedBy k numWork hr, if_pos hi]

/-- When a loaded module can be removed. -/
theorem remove_tornDown_iff :
    (∃ s, remove (k.loaded numWork) = some s ∧ TornDown k numWork s.ledger.released) ↔
      (∀ i < numWork, k.kthreadRun i = true) ∧
        (k.cpuhpSetupState = -1 ∨ (0 < k.cpuhpSetupState ∧ numWork = 1) ∨
          (k.cpuhpSetupState ≤ 0 ∧ numWork = 0)) := by
  rw [remove_loaded_iff, tornDown_iff]
  constructor
  · rintro ⟨hfrees, hcount⟩
    refine ⟨fun i hi => (hfrees i hi).2, ?_⟩
    rcases Nat.eq_zero_or_pos numWork with rfl | hpos
    · split_ifs at hcount <;> omega
    · have hstate := (hfrees 0 hpos).1
      split_ifs at hcount <;> omega
  · rintro ⟨hthreads, hstate⟩
    refine ⟨fun i hi => ⟨by omega, hthreads i hi⟩, ?_⟩
    split_ifs <;> omega

theorem Exact.entered (h : Exact k numWork) {i : ℕ} {rc : {rc : ℤ // rc < 0}}
    (hfails : k.FailsAt numWork i rc) : (k.entered i).ledger.Balanced :=
  (h _ _ (init_eq_some_iff.mpr (.inl ⟨i, rc, hfails, rfl, rfl⟩))).1 rc.2

theorem Exact.loaded (h : Exact k numWork) (hsucceeds : k.Succeeds numWork) :
    ∃ s, remove (k.loaded numWork) = some s ∧ TornDown k numWork s.ledger.released :=
  (h _ _ (init_eq_some_iff.mpr (.inr ⟨hsucceeds, rfl, rfl⟩))).2 le_rfl

/-- **When the module is loaded and unloaded without a trace.** -/
theorem exact_iff (k : Kernel) (numWork : ℕ) :
    Exact k numWork ↔
      (∀ i rc, k.FailsAt numWork i rc → i = 0 ∧ k.registerMyKretprobe < 0) ∧
      (k.Succeeds numWork → (∀ i < numWork, k.kthreadRun i = true) ∧
        (k.cpuhpSetupState = -1 ∨ (0 < k.cpuhpSetupState ∧ numWork = 1) ∨
          (k.cpuhpSetupState ≤ 0 ∧ numWork = 0))) := by
  rw [← remove_tornDown_iff]
  constructor
  · intro h
    exact ⟨fun i rc hfails => entered_balanced_iff.mp (h.entered hfails), h.loaded⟩
  · rintro ⟨hfails, hsucceeds⟩ rc s hend
    rcases init_eq_some_iff.mp hend with ⟨i, e, hfail, rfl, rfl⟩ | ⟨hsucceed, rfl, rfl⟩
    · exact ⟨fun _ => entered_balanced_iff.mpr (hfails i e hfail), fun h => absurd e.2 (by omega)⟩
    · exact ⟨fun h => absurd h (lt_irrefl 0), fun _ => hsucceeds hsucceed⟩

/-- Everything goes well. -/
def obliging : Kernel where
  registerMyKretprobe := 0
  registerMyWqOfflineKretprobe := 0
  idrAlloc := fun _ => none
  kzalloc := fun _ => true
  kthreadRun := fun _ => true
  cpuhpSetupState := 200
  procCreate := true

/-- There is no memory for a second id. -/
def scant : Kernel :=
  { obliging with idrAlloc := fun i => if i = 1 then some ⟨-12, by decide⟩ else none }

/-- With two entries the hotplug state is removed twice, without entries it
stays; and an initialisation that fails in its second round leaves the first
entry, its timer and its thread behind. -/
theorem not_exact :
    ¬ (∀ (k : Kernel) (numWork : ℕ), Exact k numWork) ∧
    (obliging.releasedBy 2).count .cpuhpState = 2 ∧
    (obliging.releasedBy 0).count .cpuhpState = 0 ∧
    (∃ s, init scant 2 = some (-12, s) ∧ s.ledger.released = [] ∧
      [.entry 0, .work 0, .timer 0, .kthread 0] ⊆ s.ledger.acquired) := by
  refine ⟨fun hevery => ?_, rfl, rfl, _, rfl, rfl, by decide⟩
  have hremove := remove_tornDown_iff.mp ((hevery obliging 2).loaded fun _ _ => ⟨rfl, rfl⟩)
  exact absurd hremove.2 (by decide)

end WorkSetup

end CodeSnippet
