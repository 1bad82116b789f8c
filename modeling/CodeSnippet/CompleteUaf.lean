/-
CodeSnippet/CompleteUaf.lean

Readers of the proc file of src/kernel_module/completion/complete-uaf.c, each
with the thread that its call of `complete_uaf_test_proc_show` starts.

The reader and its thread share a `test_work`, whose field `complete` points to
a completion on the reader's stack.  Each side exchanges the field for NULL,
and the pointer goes to the side that comes first.  The memory of a `test_work`
may be used again once it is freed, by another reader or by anyone else, and an
exchange that comes late acts on whatever is there by then.

Main results:
  * `Kept.take` — a condition on single calls and their memory that their own
    steps keep is kept by every step of any reader or thread.
-/
import CodeSnippet.Transition

namespace CodeSnippet.CompleteUaf

open Transition

variable {ι : Type} [DecidableEq ι]

/-! ### Readers and threads -/

/-- `struct test_work`, and whether the memory is allocated.  `ι` is the type
of the readers; a completion is given by the reader on whose stack it is, a
process by the reader that it runs. -/
structure TestWork (ι : Type) where
  live : Bool
  complete : Option ι
  callerPid : Option ι

/-- What `complete_uaf_test_proc_show` does next: `waiting` is inside of
`wait_for_completion_killable`, `fixWait` inside of `wait_for_completion`. -/
inductive ShowPc
  | kzalloc | fill | kthreadRun | waiting | xchg | fixWait | returned
  deriving DecidableEq

/-- What the thread of the call does next.  `comp` is its local variable. -/
inductive CompletionPc (ι : Type)
  | notCreated | killPid | xchg
  | complete (comp : Option ι)
  | kfree | exited
  deriving DecidableEq

/-- One call with its completion and its thread, and what became of its
`test_work`: how often it was allocated and freed, and whether its field was
exchanged after it had been freed. -/
structure ShowCall (ι : Type) where
  pc : ShowPc
  thread : CompletionPc ι
  workdata : ℕ
  done : Bool
  killed : Bool
  allocs : ℕ
  frees : ℕ
  late : Bool
  deriving DecidableEq

structure UafState (ι : Type) where
  calls : ι → ShowCall ι
  mem : ℕ → TestWork ι

namespace UafState

/-- What the pointer `workdata` of a call points to. -/
def work (s : UafState ι) (i : ι) : TestWork ι := s.mem (s.calls i).workdata

/-- Call `i` goes on as `c`; its `test_work` is not touched. -/
def goOn (s : UafState ι) (i : ι) (c : ShowCall ι) : UafState ι :=
  { s with calls := Function.update s.calls i c }

/-- Call `i` goes on as `c`, with its `test_work` changed to `w`. -/
def put (s : UafState ι) (i : ι) (c : ShowCall ι) (w : TestWork ι) : UafState ι :=
  { calls := Function.update s.calls i c, mem := Function.update s.mem c.workdata w }

/-- `SIGKILL` to the process of `i`. -/
def kill (s : UafState ι) (i : ι) : UafState ι := s.goOn i { s.calls i with killed := true }

/-- `complete` on the completion of `i`. -/
def completed (s : UafState ι) (i : ι) : UafState ι := s.goOn i { s.calls i with done := true }

end UafState

/-- The steps of the calls and of their threads; the answers of `kzalloc` and
`kthread_run` are part of them.  Besides, a process may be killed, and memory
that is not allocated may come to hold anything. -/
inductive UafEvent (ι : Type)
  | kzalloc (i : ι) (a : Option ℕ)
  | fill (i : ι)
  | kthreadRun (i : ι) (ok : Bool)
  | waitReturns (i : ι)
  | waitKilled (i : ι)
  | showXchg (i : ι)
  | fixWaitReturns (i : ι)
  | killPid (i : ι)
  | threadXchg (i : ι)
  | complete (i : ι)
  | kfree (i : ι)
  | sigkill (i : ι)
  | reuse (a : ℕ) (complete callerPid : Option ι)

omit [DecidableEq ι] in
/-- `xchg(&workdata->complete, NULL)`, as far as the call's history goes. -/
def ShowCall.exchanged (c : ShowCall ι) : ShowCall ι := { c with late := c.late || 0 < c.frees }

def UafState.take (useFix : Bool) (s : UafState ι) : UafEvent ι → Option (UafState ι)
  | .kzalloc i a =>
      let c := s.calls i
      if c.pc = .kzalloc then
        match a with
        | none => some (s.goOn i { c with pc := .returned })
        | some a =>
            -- no memory is handed out twice, and it comes zeroed
            if (s.mem a).live then none
            else some (s.put i { c with pc := .fill, workdata := a, allocs := c.allocs + 1 }
              ⟨true, none, none⟩)
      else none
  | .fill i =>
      let c := s.calls i
      if c.pc = .fill then
        some (s.put i { c with pc := .kthreadRun }
          { s.work i with complete := some i, callerPid := some i })
      else none
  | .kthreadRun i ok =>
      let c := s.calls i
      if c.pc = .kthreadRun then
        if ok then some (s.goOn i { c with pc := .waiting, thread := .killPid })
        -- without a thread the reader frees `workdata` itself
        else some (s.put i { c with pc := .returned, frees := c.frees + 1 }
          { s.work i with live := false })
      else none
  | .waitReturns i =>
      let c := s.calls i
      if c.pc = .waiting ∧ c.done then some (s.goOn i { c with pc := .returned }) else none
  | .waitKilled i =>
      let c := s.calls i
      -- the kill counts as long as the completion is not done
      if c.pc = .waiting ∧ c.killed ∧ c.done = false then some (s.goOn i { c with pc := .xchg })
      else none
  | .showXchg i =>
      let c := s.calls i
      if c.pc = .xchg then
        -- a reader that finds NULL knows that its thread has the pointer
        some (s.put i { c.exchanged with
            pc := if (s.work i).complete.isNone && useFix then .fixWait else .returned }
          { s.work i with complete := none })
      else none
  | .fixWaitReturns i =>
      let c := s.calls i
      if c.pc = .fixWait ∧ c.done then some (s.goOn i { c with pc := .returned }) else none
  | .killPid i =>
      if (s.calls i).thread = .killPid then
        let s := match (s.work i).callerPid with
          | none => s
          | some j => s.kill j
        some (s.goOn i { s.calls i with thread := .xchg })
      else none
  | .threadXchg i =>
      let c := s.calls i
      if c.thread = .xchg then
        some (s.put i { c.exchanged with thread := .complete (s.work i).complete }
          { s.work i with complete := none })
      else none
  | .complete i =>
      match (s.calls i).thread with
      | .complete comp =>
          let s := match comp with
            | none => s
            | some j => s.completed j
          some (s.goOn i { s.calls i with thread := .kfree })
      | _ => none
  | .kfree i =>
      let c := s.calls i
      if c.thread = .kfree then
        some (s.put i { c with thread := .exited, frees := c.frees + 1 }
          { s.work i with live := false })
      else none
  | .sigkill i => some (s.kill i)
  | .reuse a complete callerPid =>
      if (s.mem a).live then none
      else some { s with mem := Function.update s.mem a ⟨false, complete, callerPid⟩ }

/-- A call before its first step. -/
def ShowCall.entered (c : ShowCall ι) : Prop :=
  c.pc = .kzalloc ∧ c.thread = .notCreated ∧ c.done = false ∧ c.allocs = 0 ∧ c.frees = 0 ∧
    c.late = false

/-- All calls before their first step; nothing is known of the memory. -/
def completeUaf (ι : Type) [DecidableEq ι] (useFix : Bool) : EventSystem (UafState ι) (UafEvent ι) where
  init := fun s => ∀ i, (s.calls i).entered
  take := UafState.take useFix

/-! ### Owners -/

/-- The call, or its thread, has a `test_work` that is not freed yet. -/
def ShowCall.Owns (c : ShowCall ι) : Prop :=
  c.pc = .fill ∨ c.pc = .kthreadRun ∨ c.thread = .killPid ∨ c.thread = .xchg ∨
    (∃ comp, c.thread = .complete comp) ∨ c.thread = .kfree

section Owns

variable {ι : Type} {c : ShowCall ι}

theorem ShowCall.Owns.fill (h : c.pc = .fill) : c.Owns := .inl h

theorem ShowCall.Owns.kthreadRun (h : c.pc = .kthreadRun) : c.Owns := .inr (.inl h)

theorem ShowCall.Owns.killPid (h : c.thread = .killPid) : c.Owns := .inr (.inr (.inl h))

theorem ShowCall.Owns.threadXchg (h : c.thread = .xchg) : c.Owns :=
  .inr (.inr (.inr (.inl h)))

theorem ShowCall.Owns.of_first (h : c.thread = .killPid ∨ c.thread = .xchg) : c.Owns := by
  rcases h with h | h
  · exact .killPid h
  · exact .threadXchg h

theorem ShowCall.Owns.complete {comp : Option ι} (h : c.thread = .complete comp) : c.Owns :=
  .inr (.inr (.inr (.inr (.inl ⟨comp, h⟩))))

theorem ShowCall.Owns.kfree (h : c.thread = .kfree) : c.Owns :=
  .inr (.inr (.inr (.inr (.inr h))))

end Owns

/-- Every call with its `test_work` meets `L`, and no two calls own the same
memory. -/
structure UafState.All (L : ι → ShowCall ι → TestWork ι → Prop) (s : UafState ι) : Prop where
  each : ∀ i, L i (s.calls i) (s.work i)
  apart : ∀ i j, i ≠ j → (s.calls i).Owns → (s.calls j).Owns →
    (s.calls i).workdata ≠ (s.calls j).workdata

/-- A local condition that says nothing about memory that the call does not own. -/
def OwnOnly (L : ι → ShowCall ι → TestWork ι → Prop) : Prop :=
  ∀ i c w w', ¬ c.Owns → L i c w → L i c w'

section All

variable {L : ι → ShowCall ι → TestWork ι → Prop} {s : UafState ι}

/-- A change of one call and of its `test_work`. -/
theorem UafState.All.put (hL : OwnOnly L) (h : s.All L) {i : ι} {c : ShowCall ι} {w : TestWork ι}
    (hi : L i c w)
    (hapart : c.Owns → ∀ j ≠ i, (s.calls j).Owns → (s.calls j).workdata ≠ c.workdata)
    (hothers : ∀ j ≠ i, (s.calls j).Owns → (s.calls j).workdata = c.workdata →
      L j (s.calls j) w) :
    (s.put i c w).All L := by
  constructor
  · intro j
    by_cases e : j = i
    · -- the call that was changed
      subst e
      have hwork : (s.put j c w).work j = w := by simp [UafState.work, UafState.put]
      rw [hwork]
      simpa [UafState.put] using hi
    · have hcall : (s.put i c w).calls j = s.calls j := Function.update_of_ne e ..
      rw [UafState.work, hcall]
      by_cases ha : (s.calls j).workdata = c.workdata
      · have hmem : (s.put i c w).mem (s.calls j).workdata = w := by
          rw [ha]
          exact Function.update_self ..
        rw [hmem]
        -- another call that points to the same memory
        by_cases hown : (s.calls j).Owns
        · exact hothers j e hown ha
        · exact hL j _ _ _ hown (h.each j)
      · have hmem : (s.put i c w).mem (s.calls j).workdata = s.work j := Function.update_of_ne ha ..
        rw [hmem]
        exact h.each j
  · intro j k hne hj hk
    by_cases ej : j = i
    · subst ej
      have hcall : (s.put j c w).calls k = s.calls k := Function.update_of_ne hne.symm ..
      have hself : (s.put j c w).calls j = c := Function.update_self ..
      rw [hcall] at hk ⊢
      rw [hself] at hj ⊢
      exact (hapart hj k hne.symm hk).symm
    · have hcall : (s.put i c w).calls j = s.calls j := Function.update_of_ne ej ..
      rw [hcall] at hj ⊢
      by_cases ek : k = i
      · subst ek
        have hself : (s.put k c w).calls k = c := Function.update_self ..
        rw [hself] at hk ⊢
        exact hapart hk j ej hj
      · have hcall' : (s.put i c w).calls k = s.calls k := Function.update_of_ne ek ..
        rw [hcall'] at hk ⊢
        exact h.apart j k hne hj hk

/-- A change by the owner of the memory. -/
theorem UafState.All.put_own (hL : OwnOnly L) (h : s.All L) {i : ι} {c : ShowCall ι}
    {w : TestWork ι} (hown : (s.calls i).Owns) (hwork : c.workdata = (s.calls i).workdata)
    (hi : L i c w) : (s.put i c w).All L := by
  have hapart : ∀ j ≠ i, (s.calls j).Owns → (s.calls j).workdata ≠ c.workdata := by
    intro j hne hj
    rw [hwork]
    exact h.apart j i hne hj hown
  exact h.put hL hi (fun _ => hapart) fun j hne hj e => absurd e (hapart j hne hj)

/-- A change of one call only. -/
theorem UafState.All.goOn (hL : OwnOnly L) (h : s.All L) {i : ι} {c : ShowCall ι}
    (hwork : c.workdata = (s.calls i).workdata) (hown : c.Owns → (s.calls i).Owns)
    (hi : L i c (s.work i)) : (s.goOn i c).All L := by
  have hput : s.goOn i c = s.put i c (s.work i) := by
    rw [UafState.put, hwork]
    show _ = UafState.mk _ (Function.update s.mem _ (s.mem _))
    rw [Function.update_eq_self]
    rfl
  rw [hput]
  apply h.put hL hi
  · intro hc j hne hj
    rw [hwork]
    exact h.apart j i hne hj (hown hc)
  · intro j hne hj e
    have hsame : s.work i = s.work j := by rw [UafState.work, UafState.work, e, hwork]
    rw [hsame]
    exact h.each j

omit [DecidableEq ι] in
/-- Memory that nobody owns may come to hold anything. -/
theorem UafState.All.reuse (hL : OwnOnly L) (hlive : ∀ i c w, L i c w → c.Owns → w.live = true)
    (h : s.All L) {a : ℕ} (ha : (s.mem a).live = false) (w : TestWork ι) :
    UafState.All L { s with mem := Function.update s.mem a w } := by
  refine ⟨?_, h.apart⟩
  intro i
  by_cases e : (s.calls i).workdata = a
  · have hown : ¬ (s.calls i).Owns := by
      intro hown
      -- memory that is owned is allocated
      have hwork := hlive i _ _ (h.each i) hown
      rw [UafState.work, e, ha] at hwork
      cases hwork
    exact hL i _ _ _ hown (h.each i)
  · have hmem : Function.update s.mem a w (s.calls i).workdata = s.work i :=
      Function.update_of_ne e ..
    rw [UafState.work]
    show L i (s.calls i) (Function.update s.mem a w (s.calls i).workdata)
    rw [hmem]
    exact h.each i

omit [DecidableEq ι] in
/-- Memory that `kzalloc` returns belongs to no call. -/
theorem UafState.All.fresh (hlive : ∀ i c w, L i c w → c.Owns → w.live = true) (h : s.All L)
    {a : ℕ} (ha : ¬ (s.mem a).live = true) {j : ι} (hj : (s.calls j).Owns) :
    (s.calls j).workdata ≠ a := by
  intro e
  have hwork := hlive j _ _ (h.each j) hj
  rw [UafState.work, e] at hwork
  exact ha hwork

end All

omit [DecidableEq ι] in
/-- A call that is through with `kthread_run` owns memory through its thread. -/
theorem ShowCall.Owns.of_thread {c c' : ShowCall ι} (h : c'.Owns) (hthread : c'.thread = c.thread)
    (hfill : c'.pc ≠ .fill) (hrun : c'.pc ≠ .kthreadRun) : c.Owns := by
  rcases h with e | e | h
  · exact absurd e hfill
  · exact absurd e hrun
  · rw [hthread] at h
    exact .inr (.inr h)

/-! ### Local conditions -/

/-- A local condition that every step keeps, for the call that takes it and for
the calls whose memory it touches; a thread frees only under `ok`. -/
structure Kept (L : ι → ShowCall ι → TestWork ι → Prop) (ok : ShowCall ι → Prop) : Prop where
  ownOnly : OwnOnly L
  live : ∀ {i c w}, L i c w → c.Owns → w.live = true
  enomem : ∀ {i c w}, L i c w → c.pc = .kzalloc → L i { c with pc := .returned } w
  kzalloc : ∀ {i c w} (a : ℕ), L i c w → c.pc = .kzalloc →
    L i { c with pc := .fill, workdata := a, allocs := c.allocs + 1 } ⟨true, none, none⟩
  fill : ∀ {i c w}, L i c w → c.pc = .fill →
    L i { c with pc := .kthreadRun } { w with complete := some i, callerPid := some i }
  kthreadRun : ∀ {i c w}, L i c w → c.pc = .kthreadRun →
    L i { c with pc := .waiting, thread := .killPid } w
  notRun : ∀ {i c w}, L i c w → c.pc = .kthreadRun →
    L i { c with pc := .returned, frees := c.frees + 1 } { w with live := false }
  waitReturns : ∀ {i c w}, L i c w → c.pc = .waiting ∨ c.pc = .fixWait → c.done = true →
    L i { c with pc := .returned } w
  waitKilled : ∀ {i c w}, L i c w → c.pc = .waiting → c.done = false → L i { c with pc := .xchg } w
  showXchg : ∀ {i c w}, L i c w → c.pc = .xchg →
    L i { c.exchanged with pc := if w.complete.isNone && true then .fixWait else .returned }
      { w with complete := none }
  stray : ∀ {i c w j c'}, L i c w → c.pc = .xchg → ¬ c.Owns → L j c' w →
    L j c' { w with complete := none }
  killPid : ∀ {i c w}, L i c w → c.thread = .killPid → L i { c with thread := .xchg } w
  threadXchg : ∀ {i c w}, L i c w → c.thread = .xchg →
    L i { c.exchanged with thread := .complete w.complete } { w with complete := none }
  own : ∀ {i c w j}, L i c w → c.thread = .complete (some j) → j = i
  complete : ∀ {i c w comp}, L i c w → c.thread = .complete comp →
    L i { c with done := c.done || comp.isSome, thread := .kfree } w
  kfree : ∀ {i c w}, L i c w → c.thread = .kfree → ok c →
    L i { c with thread := .exited, frees := c.frees + 1 } { w with live := false }
  killed : ∀ {i c w}, L i c w → L i { c with killed := true } w

section Kept

variable {L : ι → ShowCall ι → TestWork ι → Prop} {ok : ShowCall ι → Prop} {s t : UafState ι}

theorem Kept.kill (hL : Kept L ok) (h : s.All L) (i : ι) : (s.kill i).All L :=
  h.goOn hL.ownOnly rfl id (hL.killed (h.each i))

/-- A reader that goes on to `pc`, after `kthread_run` and without an exchange. -/
theorem Kept.goOn (hL : Kept L ok) (h : s.All L) {i : ι} {pc : ShowPc} (hfill : pc ≠ .fill)
    (hrun : pc ≠ .kthreadRun) (hi : L i { s.calls i with pc := pc } (s.work i)) :
    (s.goOn i { s.calls i with pc := pc }).All L :=
  h.goOn hL.ownOnly rfl (fun hown => hown.of_thread rfl hfill hrun) hi

theorem Kept.take_kzalloc (hL : Kept L ok) (h : s.All L) {i : ι} {a : Option ℕ}
    (ht : s.take true (.kzalloc i a) = some t) : t.All L := by
  simp only [UafState.take] at ht
  split at ht
  · rename_i hpc
    cases a with
    | none =>
        cases ht
        exact hL.goOn h (by simp) (by simp) (hL.enomem (h.each i) hpc)
    | some a =>
        simp only at ht
        split at ht
        · cases ht
        · rename_i ha
          cases ht
          have hfresh : ∀ j, (s.calls j).Owns → (s.calls j).workdata ≠ a := fun j hj =>
            h.fresh (fun _ _ _ => hL.live) ha hj
          exact h.put hL.ownOnly (hL.kzalloc a (h.each i) hpc) (fun _ j _ hj => hfresh j hj)
            fun j _ hj e => absurd e (hfresh j hj)
  · cases ht

theorem Kept.take_kthreadRun (hL : Kept L ok) (h : s.All L) {i : ι} {started : Bool}
    (ht : s.take true (.kthreadRun i started) = some t) : t.All L := by
  simp only [UafState.take] at ht
  split at ht
  · rename_i hpc
    split at ht
    · cases ht
      exact h.goOn hL.ownOnly rfl (fun _ => .kthreadRun hpc) (hL.kthreadRun (h.each i) hpc)
    · cases ht
      exact h.put_own hL.ownOnly (.kthreadRun hpc) rfl (hL.notRun (h.each i) hpc)
  · cases ht

theorem Kept.take_showXchg (hL : Kept L ok) (h : s.All L) {i : ι}
    (ht : s.take true (.showXchg i) = some t) : t.All L := by
  simp only [UafState.take] at ht
  split at ht
  · rename_i hpc
    cases ht
    have hi := hL.showXchg (h.each i) hpc
    by_cases hown : (s.calls i).Owns
    · exact h.put_own hL.ownOnly hown rfl hi
    · -- the memory is somebody else's by now
      refine h.put hL.ownOnly hi ?_ ?_
      · intro hown'
        refine absurd (hown'.of_thread (c := s.calls i) rfl ?_ ?_) hown
        all_goals
          show (if _ then _ else _) ≠ _
          split <;> simp
      · intro j _ _ e
        have hsame : s.work i = s.work j := by rw [UafState.work, UafState.work, e]; rfl
        have hstray : L j (s.calls j) (s.work i) → _ := hL.stray (h.each i) hpc hown
        rw [hsame] at hstray ⊢
        exact hstray (h.each j)
  · cases ht

theorem Kept.take_killPid (hL : Kept L ok) (h : s.All L) {i : ι}
    (ht : s.take true (.killPid i) = some t) : t.All L := by
  simp only [UafState.take] at ht
  split at ht
  · rename_i hthread
    have hnext : ∀ u : UafState ι, u.All L → (u.calls i).thread = .killPid →
        (u.goOn i { u.calls i with thread := .xchg }).All L := by
      intro u hu hthread
      exact hu.goOn hL.ownOnly rfl (fun _ => .killPid hthread)
        (hL.killPid (hu.each i) hthread)
    cases ht
    split
    · exact hnext s h hthread
    · rename_i j _
      apply hnext (s.kill j) (hL.kill h j)
      by_cases e : i = j
      · subst e
        simpa [UafState.kill, UafState.goOn] using hthread
      · simpa [UafState.kill, UafState.goOn, e] using hthread
  · cases ht

/-- The thread completes the call that it belongs to, if any. -/
theorem Kept.take_complete (hL : Kept L ok) (h : s.All L) {i : ι}
    (ht : s.take true (.complete i) = some t) : t.All L := by
  simp only [UafState.take] at ht
  split at ht
  · rename_i comp hthread
    have hown : (s.calls i).Owns := .complete hthread
    have hi := hL.complete (h.each i) hthread
    cases comp with
    | none =>
        cases ht
        rw [Option.isSome_none, Bool.or_false] at hi
        exact h.goOn hL.ownOnly rfl (fun _ => hown) hi
    | some j =>
        obtain rfl := hL.own (h.each i) hthread
        cases ht
        have htwice : (s.completed j).goOn j { (s.completed j).calls j with thread := .kfree } =
            s.goOn j { s.calls j with done := true, thread := .kfree } := by
          simp [UafState.completed, UafState.goOn]
        rw [htwice]
        rw [Option.isSome_some, Bool.or_true] at hi
        exact h.goOn hL.ownOnly rfl (fun _ => hown) hi
  · cases ht

/-- **One step** of any reader or thread, with the fix on. -/
theorem Kept.take (hL : Kept L ok) (h : s.All L) {e : UafEvent ι} (ht : s.take true e = some t)
    (hok : ∀ i, e = .kfree i → ok (s.calls i)) : t.All L := by
  cases e with
  | kzalloc i a => exact hL.take_kzalloc h ht
  | fill i =>
      simp only [UafState.take] at ht
      split at ht
      · rename_i hpc
        cases ht
        exact h.put_own hL.ownOnly (.fill hpc) rfl (hL.fill (h.each i) hpc)
      · cases ht
  | kthreadRun i started => exact hL.take_kthreadRun h ht
  | waitReturns i =>
      simp only [UafState.take] at ht
      split at ht
      · rename_i hguard
        cases ht
        exact hL.goOn h (by simp) (by simp) (hL.waitReturns (h.each i) (.inl hguard.1) hguard.2)
      · cases ht
  | waitKilled i =>
      simp only [UafState.take] at ht
      split at ht
      · rename_i hguard
        obtain ⟨hpc, -, hdone⟩ := hguard
        cases ht
        exact hL.goOn h (by simp) (by simp) (hL.waitKilled (h.each i) hpc hdone)
      · cases ht
  | showXchg i => exact hL.take_showXchg h ht
  | fixWaitReturns i =>
      simp only [UafState.take] at ht
      split at ht
      · rename_i hguard
        cases ht
        exact hL.goOn h (by simp) (by simp) (hL.waitReturns (h.each i) (.inr hguard.1) hguard.2)
      · cases ht
  | killPid i => exact hL.take_killPid h ht
  | threadXchg i =>
      simp only [UafState.take] at ht
      split at ht
      · rename_i hthread
        cases ht
        exact h.put_own hL.ownOnly (.threadXchg hthread) rfl
          (hL.threadXchg (h.each i) hthread)
      · cases ht
  | complete i => exact hL.take_complete h ht
  | kfree i =>
      simp only [UafState.take] at ht
      split at ht
      · rename_i hthread
        cases ht
        exact h.put_own hL.ownOnly (.kfree hthread) rfl
          (hL.kfree (h.each i) hthread (hok i rfl))
      · cases ht
  | sigkill i =>
      cases ht
      exact hL.kill h i
  | reuse a complete callerPid =>
      simp only [UafState.take] at ht
      split at ht
      · cases ht
      · rename_i ha
        cases ht
        exact h.reuse hL.ownOnly (fun _ _ _ => hL.live) (Bool.eq_false_of_not_eq_true ha) _

end Kept

end CodeSnippet.CompleteUaf
