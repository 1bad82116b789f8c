/-
CodeSnippet/UnbondUnload.lean

The runs of the machine of `UnbondTest`: what every step keeps, which steps bring
the kernel down, and what is left when the module has been unloaded.

Main results:
  * `Good.take` — every step.
  * `unbond_oops_iff` — the steps that bring the kernel down.
  * `unbond_unloads` — timers follow the CPUs, and unloading can be completed.
-/
import CodeSnippet.UnbondTest

namespace CodeSnippet

open Transition

namespace UnbondTest

/-! ### What is still to come -/

section Steps

variable {ι : Type} {k : Machine ι} {quiet : Prop} {s s' : State ι} {c : ι}

theorem State.code_some (s : State ι) {t : State ι} (h : s.remaining ≠ []) :
    s.code (some t) = t := by
  rw [State.code, if_neg h]
  rfl

/-- The calls that are still to come while something of the module is active. -/
theorem Good.left_of_started (h : Good k quiet s) (hstarted : (s.entry c).timer = .started) :
    .cpuhpRemoveState ∈ s.remaining := by
  by_contra hnot
  exact (h.entry c).done _ hnot hstarted

theorem Good.left_of_thread (h : Good k quiet s) (hthread : (s.entry c).thread ≠ .exited) :
    .kthreadStop c ∈ s.remaining := by
  by_contra hnot
  exact hthread ((h.entry c).done _ hnot rfl)

theorem Good.left_of_work (h : Good k quiet s) {w : WorkOf} (hidle : ¬ ((s.entry c).works w).Idle)
    (hw : w.IsKowork → quiet) : .cancelWorkSync c w ∈ s.remaining := by
  by_contra hnot
  exact hidle ((h.entry c).done _ hnot rfl hw)

theorem Good.online_of_work (h : Good k quiet s) {w : WorkOf}
    (hidle : ¬ ((s.entry c).works w).Idle) :
    k.online c = true := by
  by_contra hoff
  exact hidle ((h.entry c).fresh (by simpa using hoff) w)

theorem Good.kworks_iff (h : Good k quiet s) :
    (s.entry c).kworks = true ↔ (k.kzalloc c).1 = true ∧ .kfreeKworks c ∈ s.remaining := by
  by_cases hleft : .kfreeKworks c ∈ s.remaining
  · rw [(h.entry c).pending _ hleft rfl]
    exact (and_iff_left hleft).symm
  · rw [(h.entry c).done _ hleft rfl]
    simp [hleft]

theorem Good.koworks_iff (h : Good k quiet s) :
    (s.entry c).koworks = true ↔ (k.kzalloc c).2 = true ∧ .kfreeKoworks c ∈ s.remaining := by
  by_cases hleft : .kfreeKoworks c ∈ s.remaining
  · rw [(h.entry c).pending _ hleft rfl]
    exact (and_iff_left hleft).symm
  · rw [(h.entry c).done _ hleft rfl]
    simp [hleft]

/-- A work that is not idle is in memory, except for one of `koworks` behind its
`kfree`. -/
theorem Good.allocated_iff (h : Good k quiet s) {w : WorkOf}
    (hidle : ¬ ((s.entry c).works w).Idle) :
    (s.entry c).allocated w = true ↔ (w.IsKowork → .kfreeKoworks c ∈ s.remaining) := by
  obtain ⟨hkworks, hkoworks⟩ := h.loads c (h.online_of_work hidle)
  cases w with
  | work i => exact iff_of_true rfl False.elim
  | kwork i =>
      refine iff_of_true (h.kworks_iff.mpr ⟨hkworks, ?_⟩) False.elim
      exact mem_of_stage_lt h.suffix (h.left_of_work hidle False.elim) (by simp [Call.stage])
  | kowork i =>
      show (s.entry c).koworks = true ↔ (True → _)
      rw [h.koworks_iff, and_iff_right hkoworks, true_imp_iff]

theorem testKthreadFunc_eq_none (h : Good k quiet s) (hasleep : (s.entry c).thread = .asleep)
    {seeds : Fin maxKthreadWorker → UInt32} :
    UnbondTest.testKthreadFunc k.panicOnWarn seeds (s.entry c) = none ↔
      ∃ i, bitSet (seeds i) i = true ∧ ((k.kzalloc c).1 = false ∨
        k.panicOnWarn = true ∧ k.online c = false ∧
          ((s.entry c).works (.kwork i)).stuck = false) := by
  have hexited : (s.entry c).thread ≠ .exited := by simp [hasleep]
  have hleft : .kfreeKworks c ∈ s.remaining :=
    mem_of_stage_lt h.suffix (h.left_of_thread hexited) (by simp [Call.stage])
  have hawake : EntryFixed k (s.online c) s.callbacks c { s.entry c with thread := .awake } :=
    { (h.entry c).toEntryFixed with }
  have hkworks : (s.entry c).kworks = (k.kzalloc c).1 := (h.entry c).pending _ hleft rfl
  rw [UnbondTest.testKthreadFunc, ← hkworks]
  split
  · rename_i hnull
    obtain ⟨hnull, i, hi⟩ := hnull
    exact iff_of_true rfl ⟨i, hi, .inl hnull⟩
  · rename_i hnull
    refine hawake.scheduleWorks_eq_none.trans ?_
    constructor
    · rintro ⟨hpanic, hoff, w, hw, hstuck⟩
      cases w with
      | kwork i => exact ⟨i, hw, .inr ⟨hpanic, hoff, hstuck⟩⟩
      | _ => cases hw
    · rintro ⟨i, hi, hfail | ⟨hpanic, hoff, hstuck⟩⟩
      · exact absurd ⟨hfail, i, hi⟩ hnull
      · exact ⟨hpanic, hoff, .kwork i, hi, hstuck⟩

theorem wqRetHandler_eq_none (h : Good k quiet s) {delaySeed : UInt32} :
    UnbondTest.wqRetHandler k.panicOnWarn delaySeed (s.entry c) = none ↔
      ∃ i, bitSet delaySeed i = true ∧
        (((k.kzalloc c).2 = false ∨ .kfreeKoworks c ∉ s.remaining) ∨
          k.panicOnWarn = true ∧ k.online c = false ∧
            ((s.entry c).works (.kowork i)).stuck = false) := by
  have hkoworks : (s.entry c).koworks = false ↔
      (k.kzalloc c).2 = false ∨ .kfreeKoworks c ∉ s.remaining := by
    rw [← Bool.not_eq_true, h.koworks_iff, not_and_or, Bool.not_eq_true]
  rw [UnbondTest.wqRetHandler]
  split
  · rename_i hnull
    obtain ⟨hnull, i, hi⟩ := hnull
    exact iff_of_true rfl ⟨i, hi, .inl (hkoworks.mp hnull)⟩
  · rename_i hnull
    rw [(h.entry c).scheduleWorks_eq_none]
    constructor
    · rintro ⟨hpanic, hoff, w, hw, hstuck⟩
      cases w with
      | kowork i => exact ⟨i, hw, .inr ⟨hpanic, hoff, hstuck⟩⟩
      | _ => cases hw
    · rintro ⟨i, hi, hfail | ⟨hpanic, hoff, hstuck⟩⟩
      · exact absurd ⟨hkoworks.mpr hfail, i, hi⟩ hnull
      · exact ⟨hpanic, hoff, .kowork i, hi, hstuck⟩

/-- The works that the timer queues are initialised. -/
theorem hrtimerFunc_ne_none (h : Good k quiet s) (hstarted : (s.entry c).timer = .started) :
    UnbondTest.hrtimerFunc k.panicOnWarn (s.entry c) ≠ none := by
  intro hnone
  have hoff := ((h.entry c).scheduleWorks_eq_none.mp hnone).2.1
  rw [(h.entry c).zeroed.mpr hoff] at hstarted
  cases hstarted

/-! ### Calls about all CPUs -/

/-- The callbacks stop the timers of the CPUs that are online. -/
theorem Good.cpuhpRemoveState (h : Good k quiet s) {rest : List (Call ι)}
    (hremaining : s.remaining = .cpuhpRemoveState :: rest) (hsetup : 0 < k.cpuhpSetupState) :
    Good k quiet { s with
      callbacks := false
      entry := fun c => if s.online c then wqTestCpuOffline (s.entry c) else s.entry c
      remaining := rest } := by
  have hsuffix := h.suffix
  have hnodup := h.suffix.sublist.nodup (removeCalls_nodup k.nodup)
  have hcallbacks : s.callbacks = true := h.callbacks.mpr ⟨hsetup, by simp [hremaining]⟩
  rw [hremaining] at hsuffix hnodup
  have hexit := h.exit
  rw [hremaining, List.mem_cons, or_iff_right (by simp)] at hexit
  refine ⟨h.loads, (List.suffix_cons _ rest).trans hsuffix, h.probe, h.state, ?_, hexit,
    fun c => ?_⟩
  · exact iff_of_false (by simp) fun hleft => (List.nodup_cons.mp hnodup).1 hleft.2
  · have hentry := h.entry c
    rw [hremaining] at hentry
    show EntryOk k quiet rest (s.online c) false c (if s.online c then _ else _)
    rcases hon : s.online c with - | -
    · have hidle : (s.entry c).timer ≠ .started := fun hstarted => by
        have := (hentry.follows hcallbacks).mp hstarted
        rw [hon] at this
        cases this
      rw [hon] at hentry
      exact { hentry.drop hidle with follows := by simp }
    · have hzeroed : (s.entry c).timer ≠ .zeroed := by
        rw [(hentry.follows hcallbacks).mpr hon]
        simp
      rw [if_pos rfl, hentry.wqTestCpuOffline_eq hzeroed]
      have hstops : EntryOk k quiet (.cpuhpRemoveState :: rest) false s.callbacks c
          { s.entry c with timer := .idle } :=
        hentry.setTimer (by simp) hzeroed (by simp) (by simp)
      exact { hstops.drop (by simp [TestEntry.Done]) with follows := by simp }

theorem Good.kretprobeExit (h : Good k quiet s) {rest : List (Call ι)}
    (hremaining : s.remaining = .kretprobeExit :: rest) :
    Good k quiet { s with myKretprobe := false, remaining := rest } := by
  have hsuffix := h.suffix
  have hcallbacks := h.callbacks
  have hnodup := h.suffix.sublist.nodup (removeCalls_nodup k.nodup)
  rw [hremaining] at hsuffix hnodup
  rw [hremaining, List.mem_cons, or_iff_right (by simp)] at hcallbacks
  refine ⟨h.loads, (List.suffix_cons _ rest).trans hsuffix, h.probe, h.state, hcallbacks,
    iff_of_false (by simp) fun hleft => (List.nodup_cons.mp hnodup).1 hleft.2, fun c => ?_⟩
  have hentry := h.entry c
  rw [hremaining] at hentry
  exact hentry.drop trivial

/-! ### What a step does -/

/-- The steps that bring the kernel down: a work that is no longer in memory, a
thread or a probe that uses an array for which there was no memory or warns about a
work without `INIT_WORK`, a timer that was never initialised, a probe whose module is
gone, and the unloading where a call of `init` failed or a thread has returned. -/
def Hazard (k : Machine ι) (s : State ι) : Event ι → Prop
  | .run c w => w.IsKowork ∧ .kfreeKoworks c ∉ s.remaining
  | .finish _ w => w.IsKowork ∧ s.remaining = []
  | .threadWakes c seeds => ∃ i, bitSet (seeds i) i = true ∧ ((k.kzalloc c).1 = false ∨
      k.panicOnWarn = true ∧ k.online c = false ∧ ((s.entry c).works (.kwork i)).stuck = false)
  | .online c => s.callbacks = true ∧ k.online c = false
  | .offline c => s.myWqOfflineKretprobe = true ∧ (s.remaining = [] ∨
      ∃ i, bitSet s.delaySeed i = true ∧
        (((k.kzalloc c).2 = false ∨ .kfreeKoworks c ∉ s.remaining) ∨
          k.panicOnWarn = true ∧ k.online c = false ∧
            ((s.entry c).works (.kowork i)).stuck = false))
  | .remove =>
      (∃ c rest, s.remaining = .kthreadStop c :: rest ∧
        (k.kthreadRun c = false ∨ (s.entry c).thread = .returned)) ∨
      (∃ rest, s.remaining = .cpuhpRemoveState :: rest ∧ k.cpuhpSetupState ≤ 0) ∨
        ∃ rest, s.remaining = .kretprobeExit :: rest ∧ k.registerMyKretprobe < 0 ∧
          k.unregisterKretprobe = false
  | .timer _ | .threadSleeps _ _ | .threadWoken _ => False

/-- A CPU goes offline only while the works that the probe queues are still to be
cancelled, and no thread is woken before its timeout. -/
def State.Quiet (s : State ι) : Event ι → Prop
  | .offline c => s.myWqOfflineKretprobe = true →
      ∀ i, .cancelWorkSync c (.kowork i) ∈ s.remaining
  | .threadWoken _ => False
  | _ => True

/-- One step either brings the kernel down or keeps what holds. -/
def Outcome (k : Machine ι) (quiet : Prop) (s : State ι) (e : Event ι) (s' : State ι) : Prop :=
  s'.oops = true ∧ Hazard k s e ∨ s'.oops = false ∧ ¬ Hazard k s e ∧ Good k quiet s'

/-- Code of the module that runs. -/
theorem Outcome.code {e : Event ι} {r : Option (State ι)}
    (hhazard : Hazard k s e ↔ s.remaining = [] ∨ r = none)
    (hgood : ∀ t, r = some t → t.oops = false ∧ Good k quiet t) :
    Outcome k quiet s e (s.code r) := by
  rw [State.code]
  split
  · rename_i hnil
    exact .inl ⟨rfl, hhazard.mpr (.inl hnil)⟩
  · rename_i hne
    rcases r with _ | t
    · exact .inl ⟨rfl, hhazard.mpr (.inr rfl)⟩
    · obtain ⟨hup, ht⟩ := hgood t rfl
      refine .inr ⟨hup, fun hh => ?_, ht⟩
      rcases hhazard.mp hh with hnil | hnone
      · exact hne hnil
      · cases hnone

/-- Nothing of the module but its second probe. -/
structure State.Unloaded (k : Machine ι) (s : State ι) : Prop where
  up : s.oops = false
  remaining : s.remaining = []
  timer : ∀ c, (s.entry c).timer ≠ .started
  thread : ∀ c, (s.entry c).thread = .exited
  works : ∀ c w, ((s.entry c).works w).Idle
  arrays : ∀ c, (s.entry c).kworks = false ∧ (s.entry c).koworks = false
  callbacks : s.callbacks = false
  myKretprobe : s.myKretprobe = false
  myWqOfflineKretprobe : s.myWqOfflineKretprobe = (kretprobeInit k).2.2

theorem Good.unloaded (h : Good k True s) (hup : s.oops = false) (hremaining : s.remaining = []) :
    s.Unloaded k := by
  have hdone : ∀ c a, (s.entry c).Done True c a :=
    fun c a => (h.entry c).done a (by simp [hremaining])
  refine ⟨hup, hremaining, fun c => hdone c .cpuhpRemoveState,
    fun c => hdone c (.kthreadStop c) rfl,
    fun c w => hdone c (.cancelWorkSync c w) rfl fun _ => trivial,
    fun c => ⟨hdone c (.kfreeKworks c) rfl, hdone c (.kfreeKoworks c) rfl⟩, ?_,
    ?_, h.probe⟩
  · by_contra hcallbacks
    have hleft := (h.callbacks.mp (by simpa using hcallbacks)).2
    rw [hremaining] at hleft
    cases hleft
  · by_contra hprobe
    have hleft := (h.exit.mp (by simpa using hprobe)).2
    rw [hremaining] at hleft
    cases hleft

/-! ### Events -/

variable [DecidableEq ι]

theorem State.setEntry_entry (s : State ι) (c d : ι) (e : TestEntry ι) :
    (s.setEntry c e).entry d = if d = c then e else s.entry d :=
  Function.update_apply ..

theorem Good.setEntry (h : Good k quiet s) {e : TestEntry ι}
    (he : EntryOk k quiet s.remaining (s.online c) s.callbacks c e) :
    Good k quiet (s.setEntry c e) := by
  refine ⟨h.loads, h.suffix, h.probe, h.state, h.callbacks, h.exit, fun d => ?_⟩
  rw [State.setEntry_entry]
  split
  · rename_i hd
    subst hd
    exact he
  · exact h.entry d

/-- A work that starts or ends. -/
theorem Good.setWork (h : Good k quiet s) {w : WorkOf} (hidle : ¬ ((s.entry c).works w).Idle)
    (queued running : Bool) : Good k quiet (s.setEntry c
      ((s.entry c).setWork w { (s.entry c).works w with queued, running })) := by
  refine h.setEntry ((h.entry c).setWork rfl (fun hoff => ?_) fun hw hleft => ?_)
  · exact absurd ((h.entry c).fresh hoff w) hidle
  · exact absurd (h.left_of_work hidle hw) hleft

theorem Good.hrtimerFunc (h : Good k quiet s) (hstarted : (s.entry c).timer = .started)
    {e : TestEntry ι} (he : hrtimerFunc k.panicOnWarn (s.entry c) = some e) :
    Good k quiet (s.setEntry c e) := by
  refine h.setEntry ((h.entry c).scheduleWorks (fun w _ _ => ?_) he)
  exact mem_of_stage_lt h.suffix (h.left_of_started hstarted) (by simp [Call.stage])

theorem Good.testKthreadFunc (h : Good k quiet s) (hasleep : (s.entry c).thread = .asleep)
    {seeds : Fin maxKthreadWorker → UInt32} {e : TestEntry ι}
    (he : testKthreadFunc k.panicOnWarn seeds (s.entry c) = some e) :
    Good k quiet (s.setEntry c e) := by
  obtain ⟨-, he⟩ := Option.ite_none_left_eq_some.mp he
  have hexited : (s.entry c).thread ≠ .exited := by simp [hasleep]
  have hawake : EntryOk k quiet s.remaining (s.online c) s.callbacks c
      { s.entry c with thread := .awake } :=
    (h.entry c).setThread (by simp [hasleep]) (by simp) (by simp)
      fun _ => h.left_of_thread hexited
  refine h.setEntry (hawake.scheduleWorks (fun w _ _ => ?_) he)
  exact mem_of_stage_lt h.suffix (h.left_of_thread hexited) (by simp [Call.stage])

/-- A CPU that comes online or goes offline, when nothing follows it. -/
theorem Good.setOnline (h : Good k quiet s) (hcallbacks : s.callbacks = false) (online : Bool) :
    Good k quiet (s.setOnline c online) := by
  refine ⟨h.loads, h.suffix, h.probe, h.state, h.callbacks, h.exit, fun d => ?_⟩
  exact { h.entry d with follows := fun hcall => absurd (hcallbacks.symm.trans hcall) (by simp) }

/-- A CPU that the timer follows. -/
theorem Good.follow (h : Good k quiet s) (hcallbacks : s.callbacks = true) {online : Bool}
    {t : HrTimer} (ht : t ≠ .zeroed) (hzeroed : (s.entry c).timer ≠ .zeroed)
    (hfollows : t = .started ↔ online = true) :
    Good k quiet ((s.setOnline c online).setEntry c { s.entry c with timer := t }) := by
  refine ⟨h.loads, h.suffix, h.probe, h.state, h.callbacks, h.exit, fun d => ?_⟩
  rw [State.setEntry_entry]
  show EntryOk k quiet s.remaining (Function.update s.online c online d) s.callbacks d _
  rw [Function.update_apply]
  split
  · rename_i hd
    subst hd
    exact (h.entry d).setTimer ht hzeroed (fun _ => (h.callbacks.mp hcallbacks).2)
      fun _ => hfollows
  · exact h.entry d

theorem Good.offline (h : Good k quiet s) (hon : s.online c = true) :
    Good k quiet (s.cpuOffline c) := by
  rw [State.cpuOffline]
  rcases hcall : s.callbacks with - | -
  · rw [if_neg (by simp)]
    exact (h.setOnline hcall false).setEntry ((h.setOnline hcall false).entry c)
  · have hstarted : (s.entry c).timer = .started := ((h.entry c).follows hcall).mpr hon
    have hzeroed : (s.entry c).timer ≠ .zeroed := by simp [hstarted]
    rw [if_pos rfl, (h.entry c).wqTestCpuOffline_eq hzeroed]
    exact h.follow hcall (by simp) hzeroed (by simp)

theorem Good.wqRetHandler (h : Good k quiet s)
    (hquiet : quiet → ∀ i, .cancelWorkSync c (.kowork i) ∈ s.remaining) {delaySeed : UInt32}
    {e : TestEntry ι} (he : wqRetHandler k.panicOnWarn delaySeed (s.entry c) = some e) :
    Good k quiet (s.setEntry c e) := by
  obtain ⟨-, he⟩ := Option.ite_none_left_eq_some.mp he
  refine h.setEntry ((h.entry c).scheduleWorks (fun w hw hkowork => ?_) he)
  cases w with
  | kowork i => exact hquiet (hkowork trivial) i
  | _ => cases hw

/-! ### Unloading -/

/-- A call that is about one CPU. -/
theorem Good.callEntry (h : Good k quiet s) {call : Call ι} {rest : List (Call ι)}
    (hremaining : s.remaining = call :: rest) (hremove : call ≠ .cpuhpRemoveState)
    (hexit : call ≠ .kretprobeExit)
    {e : TestEntry ι} (he : EntryOk k quiet rest (s.online c) s.callbacks c e)
    (hothers : ∀ d ≠ c, (s.entry d).Done quiet d call) :
    Good k quiet { s.setEntry c e with remaining := rest } := by
  have hsuffix := h.suffix
  rw [hremaining] at hsuffix
  refine ⟨h.loads, (List.suffix_cons call rest).trans hsuffix, h.probe, h.state, ?_, ?_,
    fun d => ?_⟩
  · have hcallbacks := h.callbacks
    rw [hremaining, List.mem_cons, or_iff_right (Ne.symm hremove)] at hcallbacks
    exact hcallbacks
  · have hprobe := h.exit
    rw [hremaining, List.mem_cons, or_iff_right (Ne.symm hexit)] at hprobe
    exact hprobe
  · show EntryOk k quiet rest (s.online d) s.callbacks d ((s.setEntry c e).entry d)
    rw [State.setEntry_entry]
    split
    · rename_i hd
      subst hd
      exact he
    · rename_i hd
      have hentry := h.entry d
      rw [hremaining] at hentry
      exact hentry.drop (hothers d hd)

theorem Good.kthreadStop (h : Good k quiet s) {rest : List (Call ι)}
    (hremaining : s.remaining = .kthreadStop c :: rest) (hfailed : (s.entry c).thread ≠ .failed) :
    Good k quiet { s.setEntry c { s.entry c with thread := .exited } with remaining := rest } := by
  have hentry := h.entry c
  rw [hremaining] at hentry
  refine h.callEntry hremaining (by simp) (by simp) (EntryOk.drop (hentry.setThread hfailed
    (by simp) (by simp) (absurd rfl)) fun _ => rfl) fun d hd hcd => absurd hcd.symm hd

theorem Good.cancelWorkSync (h : Good k quiet s) {rest : List (Call ι)} {w : WorkOf}
    (hremaining : s.remaining = .cancelWorkSync c w :: rest)
    (hrunning : ((s.entry c).works w).running = false) :
    Good k quiet { s.setEntry c
      ((s.entry c).setWork w { (s.entry c).works w with queued := false }) with
        remaining := rest } := by
  have hentry := h.entry c
  rw [hremaining] at hentry
  have hidle : Work.Idle { (s.entry c).works w with queued := false } := ⟨rfl, hrunning⟩
  refine h.callEntry hremaining (by simp) (by simp) (EntryOk.drop (hentry.setWork rfl
    (fun _ => hidle) fun _ _ => hidle) fun _ _ => ?_) fun d hd hcd => absurd hcd.symm hd
  show Work.Idle (Function.update (s.entry c).works w _ w)
  rw [Function.update_self]
  exact hidle

/-- The works of a CPU without `entry->cpu` are skipped. -/
theorem Good.skipWork (h : Good k quiet s) {rest : List (Call ι)} {w : WorkOf}
    (hremaining : s.remaining = .cancelWorkSync c w :: rest) (hcpu : (s.entry c).cpu = none) :
    Good k quiet { s with remaining := rest } := by
  have hoff : k.online c = false := by
    by_contra hon
    rw [(h.entry c).cpu, if_pos (by simpa using hon)] at hcpu
    cases hcpu
  have hentry := h.entry c
  rw [hremaining] at hentry
  have hnext := h.callEntry hremaining (by simp) (by simp)
    (hentry.drop fun _ _ => hentry.fresh hoff w) fun d hd hcd => absurd hcd.symm hd
  rwa [show s.setEntry c (s.entry c) = s from by rw [State.setEntry, Function.update_eq_self]]
    at hnext

/-- Both arrays of a CPU are freed alike. -/
theorem Good.kfree (h : Good k quiet s) {call : Call ι} {rest : List (Call ι)}
    (hremaining : s.remaining = call :: rest) {e : TestEntry ι}
    (he : call = .kfreeKworks c ∧ e = { s.entry c with kworks := false } ∨
      call = .kfreeKoworks c ∧ e = { s.entry c with koworks := false }) :
    Good k quiet { s.setEntry c e with remaining := rest } := by
  have hentry := h.entry c
  have hnodup := h.suffix.sublist.nodup (removeCalls_nodup k.nodup)
  rw [hremaining] at hentry hnodup
  have hnotin := (List.nodup_cons.mp hnodup).1
  rcases he with ⟨rfl, rfl⟩ | ⟨rfl, rfl⟩
  · refine h.callEntry hremaining (by simp) (by simp) (hentry.exec hnotin ?_ (fun _ => rfl) ?_ ?_)
      fun d hd hcd => absurd hcd.symm hd
    · exact { hentry.toEntryFixed with }
    · intro a hne hold
      cases a with
      | kfreeKworks d => exact fun _ => rfl
      | _ => exact hold
    · intro a hne hold
      cases a with
      | kfreeKworks d =>
          rintro rfl
          exact absurd rfl hne
      | _ => exact hold
  · refine h.callEntry hremaining (by simp) (by simp) (hentry.exec hnotin ?_ (fun _ => rfl) ?_ ?_)
      fun d hd hcd => absurd hcd.symm hd
    · exact { hentry.toEntryFixed with }
    · intro a hne hold
      cases a with
      | kfreeKoworks d => exact fun _ => rfl
      | _ => exact hold
    · intro a hne hold
      cases a with
      | kfreeKoworks d =>
          rintro rfl
          exact absurd rfl hne
      | _ => exact hold

/-- One call of `remove`. -/
theorem Good.remove (hsetup : k.cpuhpSetupState ≠ -1) (h : Good k quiet s) (hup : s.oops = false)
    {call : Call ι} {rest : List (Call ι)} (hremaining : s.remaining = call :: rest)
    (he : s.exec k call = some s') : Outcome k quiet s .remove { s' with remaining := rest } := by
  have hstop : (∀ c, call = .kthreadStop c →
        ¬ (k.kthreadRun c = false ∨ (s.entry c).thread = .returned)) →
      (call = .cpuhpRemoveState → ¬ k.cpuhpSetupState ≤ 0) →
      (call = .kretprobeExit →
        ¬ (k.registerMyKretprobe < 0 ∧ k.unregisterKretprobe = false)) →
      ¬ Hazard k s .remove := by
    rintro hthread hstate hprobe (⟨c, rest', hrest, hbad⟩ | ⟨rest', hrest, hle⟩ |
      ⟨rest', hrest, hbad⟩)
    · rw [hremaining] at hrest
      exact hthread c (List.cons.inj hrest).1 hbad
    · rw [hremaining] at hrest
      exact hstate (List.cons.inj hrest).1 hle
    · rw [hremaining] at hrest
      exact hprobe (List.cons.inj hrest).1 hbad
  cases call with
  | kthreadStop c =>
      have hrun := ((h.entry c).pending (.kthreadStop c) (by simp [hremaining]) rfl).1
      rw [State.exec] at he
      split at he
      · rename_i hbad
        cases he
        exact .inl ⟨rfl, .inl ⟨c, rest, hremaining, hbad.imp_left hrun.mp⟩⟩
      · rename_i hok
        cases he
        refine .inr ⟨hup, hstop ?_ nofun nofun,
          h.kthreadStop hremaining fun hfailed => hok (.inl hfailed)⟩
        rintro _ ⟨⟩ hbad
        exact hok (hbad.imp_left hrun.mpr)
  | cpuhpRemoveState =>
      rw [State.exec, if_neg (by rwa [h.state])] at he
      split at he
      · rename_i hle
        rw [h.state] at hle
        cases he
        exact .inl ⟨rfl, .inr (.inl ⟨rest, hremaining, hle⟩)⟩
      · rename_i hle
        rw [h.state] at hle
        cases he
        exact .inr ⟨hup, hstop nofun (fun _ => hle) nofun,
          h.cpuhpRemoveState hremaining (not_le.mp hle)⟩
  | cancelWorkSync c w =>
      have hsafe : ¬ Hazard k s .remove := hstop nofun nofun nofun
      rw [State.exec] at he
      split at he
      · rename_i hcpu
        cases he
        exact .inr ⟨hup, hsafe, h.skipWork hremaining hcpu⟩
      · split at he
        · cases he
        · rename_i hrunning
          cases he
          exact .inr ⟨hup, hsafe, h.cancelWorkSync hremaining (by simpa using hrunning)⟩
  | kretprobeExit =>
      have hprobe : s.myKretprobe = false ↔ k.registerMyKretprobe < 0 := by
        rw [← Bool.not_eq_true, h.exit, hremaining, and_iff_left (List.mem_cons_self ..),
          kretprobeInit]
        split
        · simp [*]
        · split <;> simp [*]
      rw [State.exec] at he
      split at he
      · rename_i hbad
        cases he
        exact .inl ⟨rfl, .inr (.inr ⟨rest, hremaining, hbad.imp_left hprobe.mp⟩)⟩
      · rename_i hok
        cases he
        exact .inr ⟨hup, hstop nofun nofun fun _ hbad => hok (hbad.imp_left hprobe.mpr),
          h.kretprobeExit hremaining⟩
  | kfreeKworks c =>
      cases he
      exact .inr ⟨hup, hstop nofun nofun nofun, h.kfree hremaining (.inl ⟨rfl, rfl⟩)⟩
  | kfreeKoworks c =>
      cases he
      exact .inr ⟨hup, hstop nofun nofun nofun, h.kfree hremaining (.inr ⟨rfl, rfl⟩)⟩

theorem State.take_up {e : Event ι} (h : s.take k e = some s') : s.oops = false := by
  unfold State.take at h
  split at h
  · cases h
  · rename_i hup
    simpa using hup

omit [DecidableEq ι] in
/-- Once everything has been taken back, only the works of the probe can go on. -/
theorem Good.isKowork_of_nil (h : Good k quiet s) {w : WorkOf}
    (hidle : ¬ ((s.entry c).works w).Idle) (hnil : s.remaining = []) : w.IsKowork := by
  by_contra hw
  exact List.ne_nil_of_mem (h.left_of_work hidle fun hw' => absurd hw' hw) hnil

theorem Good.take_run (h : Good k quiet s) (hup : s.oops = false) {w : WorkOf}
    (hqueued : ((s.entry c).works w).queued = true) :
    Outcome k quiet s (.run c w)
      (s.code ((testWorkFunc w (s.entry c)).map (s.setEntry c))) := by
  have hidle : ¬ ((s.entry c).works w).Idle := fun hidle => by simp [hidle.1] at hqueued
  refine .code ?_ ?_
  · -- only the array of a kowork may have been freed by now
    rw [Option.map_eq_none_iff, testWorkFunc, ite_eq_right_iff]
    simp only [reduceCtorEq, imp_false, h.allocated_iff hidle, Classical.not_imp]
    refine ⟨.inr, fun hor => hor.elim (fun hnil => ⟨h.isKowork_of_nil hidle hnil, ?_⟩) id⟩
    simp [hnil]
  · intro t ht
    obtain ⟨entry, hentry, rfl⟩ := Option.map_eq_some_iff.mp ht
    obtain ⟨-, hentry⟩ := Option.ite_none_right_eq_some.mp hentry
    obtain rfl := Option.some.inj hentry
    exact ⟨hup, h.setWork hidle false true⟩

theorem Good.take_threadSleeps (h : Good k quiet s) (hup : s.oops = false)
    (hawake : (s.entry c).thread = .awake) (seed : UInt32) :
    Outcome k quiet s (.threadSleeps c seed)
      (s.code (some { s.setEntry c { s.entry c with thread := .asleep } with
        delaySeed := seed })) := by
  have hleft := h.left_of_thread (c := c) (by simp [hawake])
  refine .code (iff_of_false id (by simp [List.ne_nil_of_mem hleft])) ?_
  rintro _ ⟨⟩
  have hentry : EntryOk k quiet s.remaining (s.online c) s.callbacks c
      { s.entry c with thread := .asleep } :=
    (h.entry c).setThread (by simp [hawake]) (by simp) (by simp) fun _ => hleft
  have hgood := h.setEntry hentry
  exact ⟨hup, hgood.loads, hgood.suffix, hgood.probe, hgood.state, hgood.callbacks,
    hgood.exit, hgood.entry⟩

theorem Good.take_online (h : Good k quiet s) (hup : s.oops = false) (c : ι) :
    Outcome k quiet s (.online c)
      (if s.callbacks then s.code ((wqTestCpuOnline (s.entry c)).map
        ((s.setOnline c true).setEntry c))
      else s.setOnline c true) := by
  split
  · rename_i hcallbacks
    have hne := List.ne_nil_of_mem (h.callbacks.mp hcallbacks).2
    -- the timer is the one of `sched_test_work`, or it was never initialised
    refine .code ?_ ?_
    · rw [or_iff_right hne, Option.map_eq_none_iff, wqTestCpuOnline, ite_eq_left_iff]
      simp [Hazard, hcallbacks, (h.entry c).zeroed]
    · intro t ht
      obtain ⟨entry, hentry, rfl⟩ := Option.map_eq_some_iff.mp ht
      obtain ⟨hzeroed, hentry⟩ := Option.ite_none_left_eq_some.mp hentry
      obtain rfl := Option.some.inj hentry
      exact ⟨hup, h.follow hcallbacks (by simp) hzeroed (by simp)⟩
  · rename_i hcallbacks
    exact .inr ⟨hup, fun hh => hcallbacks hh.1, h.setOnline (by simpa using hcallbacks) true⟩

theorem Good.take_offline (h : Good k quiet s) (hup : s.oops = false) (hon : s.online c = true)
    (hquiet : quiet → s.Quiet (.offline c)) :
    Outcome k quiet s (.offline c)
      (if s.myWqOfflineKretprobe then s.code ((UnbondTest.wqRetHandler k.panicOnWarn s.delaySeed
        ((s.cpuOffline c).entry c)).map ((s.cpuOffline c).setEntry c))
      else s.cpuOffline c) := by
  have hgood := h.offline hon
  split
  · rename_i hprobe
    refine .code ?_ ?_
    · -- the callback that came first stops the timer and leaves the works alone
      have hworks : ((s.cpuOffline c).entry c).works = (s.entry c).works := by
        rw [State.cpuOffline, State.setEntry_entry, if_pos rfl]
        split
        · rw [wqTestCpuOffline]
          split <;> rfl
        · rfl
      rw [Option.map_eq_none_iff, wqRetHandler_eq_none hgood, hworks]
      exact and_iff_right hprobe
    · intro t ht
      obtain ⟨entry, hentry, rfl⟩ := Option.map_eq_some_iff.mp ht
      exact ⟨hup, hgood.wqRetHandler (fun hq => hquiet hq hprobe) hentry⟩
  · rename_i hprobe
    exact .inr ⟨hup, fun hh => hprobe hh.1, hgood⟩

/-- **Every step.** -/
theorem Good.take (hsetup : k.cpuhpSetupState ≠ -1) (h : Good k quiet s) {e : Event ι}
    (hquiet : quiet → s.Quiet e) (he : s.take k e = some s') : Outcome k quiet s e s' := by
  unfold State.take at he
  split at he
  · cases he
  rename_i hup
  rw [Bool.not_eq_true] at hup
  cases e with
  | timer c =>
      obtain ⟨hstarted, he⟩ := Option.ite_none_right_eq_some.mp he
      obtain rfl := Option.some.inj he
      have hne := List.ne_nil_of_mem (h.left_of_started hstarted)
      refine .code (iff_of_false id (by simp [hne, hrtimerFunc_ne_none h hstarted])) ?_
      intro t ht
      obtain ⟨entry, hentry, rfl⟩ := Option.map_eq_some_iff.mp ht
      exact ⟨hup, h.hrtimerFunc hstarted hentry⟩
  | run c w =>
      obtain ⟨⟨hqueued, -⟩, he⟩ := Option.ite_none_right_eq_some.mp he
      obtain rfl := Option.some.inj he
      exact h.take_run hup hqueued
  | finish c w =>
      obtain ⟨hrunning, he⟩ := Option.ite_none_right_eq_some.mp he
      obtain rfl := Option.some.inj he
      have hidle : ¬ ((s.entry c).works w).Idle := fun hidle => by simp [hidle.2] at hrunning
      refine .code ?_ ?_
      · rw [or_iff_left (by simp)]
        exact ⟨And.right, fun hnil => ⟨h.isKowork_of_nil hidle hnil, hnil⟩⟩
      · rintro _ ⟨⟩
        exact ⟨hup, h.setWork hidle _ _⟩
  | threadSleeps c seed =>
      obtain ⟨hawake, he⟩ := Option.ite_none_right_eq_some.mp he
      obtain rfl := Option.some.inj he
      exact h.take_threadSleeps hup hawake seed
  | threadWakes c seeds =>
      obtain ⟨hasleep, he⟩ := Option.ite_none_right_eq_some.mp he
      obtain rfl := Option.some.inj he
      have hleft := h.left_of_thread (c := c) (by simp [hasleep])
      refine .code ?_ ?_
      · rw [or_iff_right (List.ne_nil_of_mem hleft), Option.map_eq_none_iff,
          testKthreadFunc_eq_none h hasleep]
        exact Iff.rfl
      · intro t ht
        obtain ⟨entry, hentry, rfl⟩ := Option.map_eq_some_iff.mp ht
        exact ⟨hup, h.testKthreadFunc hasleep hentry⟩
  | threadWoken c =>
      obtain ⟨hasleep, he⟩ := Option.ite_none_right_eq_some.mp he
      obtain rfl := Option.some.inj he
      have hleft := h.left_of_thread (c := c) (by simp [hasleep])
      refine .code (iff_of_false id (by simp [List.ne_nil_of_mem hleft])) ?_
      rintro _ ⟨⟩
      exact ⟨hup, h.setEntry ((h.entry c).setThread (by simp [hasleep]) (by simp)
        (fun hq => (hquiet hq).elim) fun _ => hleft)⟩
  | online c =>
      obtain ⟨-, he⟩ := Option.ite_none_left_eq_some.mp he
      rw [← apply_ite some] at he
      obtain rfl := Option.some.inj he
      exact h.take_online hup c
  | offline c =>
      obtain ⟨⟨hon, -⟩, he⟩ := Option.ite_none_right_eq_some.mp he
      rw [← apply_ite some] at he
      obtain rfl := Option.some.inj he
      exact h.take_offline hup hon hquiet
  | remove =>
      rcases hremaining : s.remaining with _ | ⟨call, rest⟩
      · rw [hremaining] at he
        cases he
      · rw [hremaining] at he
        obtain ⟨t, hexec, rfl⟩ := Option.map_eq_some_iff.mp he
        exact h.remove hsetup hup hremaining hexec

/-- What holds in every run. -/
theorem reachable_good (hsetup : k.cpuhpSetupState ≠ -1) {ok : State ι → Event ι → Prop}
    (hok : quiet → ∀ s e, ok s e → s.Quiet e) (h : Reachable ((unbondTest k).under ok) s) :
    s.oops = false → Good k quiet s := by
  refine EventSystem.invariant (P := fun s => s.oops = false → Good k quiet s) ?_ ?_ h
  · exact fun s hinit _ => init_good quiet hinit
  · intro s e t hs he htake hup
    have hquiet : quiet → s.Quiet e := fun hq => hok hq s e he
    rcases (hs (State.take_up htake)).take hsetup hquiet htake with ⟨hoops, -⟩ | ⟨-, -, hgood⟩
    · rw [hup] at hoops
      cases hoops
    · exact hgood

/-- Two CPUs, of which the second one is offline when the module is loaded. -/
def oneOnline : Machine Bool where
  possible := [false, true]
  nodup := by decide
  mem_possible := by decide
  online := fun c => !c
  registerMyKretprobe := 0
  registerMyWqOfflineKretprobe := 0
  kzalloc := fun _ => (true, true)
  cpuhpSetupState := 1
  kthreadRun := fun _ => true
  unregisterKretprobe := false
  panicOnWarn := true

/-- All calls of `init` succeeded that `remove` relies on. -/
structure Machine.Serves (k : Machine ι) : Prop where
  cpuhpSetupState : 0 < k.cpuhpSetupState
  kthreadRun : ∀ c, k.kthreadRun c = true
  kretprobe : 0 ≤ k.registerMyKretprobe ∨ k.unregisterKretprobe = true

/-- A call that does not wait for a work. -/
theorem Good.take_remove (hserves : k.Serves) (h : Good k True s) (hup : s.oops = false)
    {call : Call ι} {rest : List (Call ι)} (hremaining : s.remaining = call :: rest)
    (hrunning : ∀ c w, call = .cancelWorkSync c w → ((s.entry c).works w).running = false) :
    ∃ t, (unbondTest k).take s .remove = some t ∧ t.oops = false ∧ t.remaining = rest ∧
      Good k True t := by
  obtain ⟨t, hexec⟩ : ∃ t, s.exec k call = some t := by
    cases call with
    | kthreadStop c =>
        rw [State.exec]
        split <;> exact ⟨_, rfl⟩
    | cpuhpRemoveState =>
        rw [State.exec]
        split
        · exact ⟨_, rfl⟩
        · split <;> exact ⟨_, rfl⟩
    | cancelWorkSync c w =>
        rw [State.exec, hrunning c w rfl, if_neg (by simp : ¬ false = true)]
        split <;> exact ⟨_, rfl⟩
    | kretprobeExit =>
        rw [State.exec]
        split <;> exact ⟨_, rfl⟩
    | kfreeKworks c => exact ⟨_, rfl⟩
    | kfreeKoworks c => exact ⟨_, rfl⟩
  have htake : s.take k .remove = some { t with remaining := rest } := by
    unfold State.take
    rw [if_neg (by simp [hup]), hremaining]
    show (s.exec k call).map _ = _
    rw [hexec]
    rfl
  have hsafe : ¬ Hazard k s .remove := by
    rintro (⟨c, rest', hrest, hrun | hreturned⟩ | ⟨rest', -, hle⟩ | ⟨rest', -, hneg, hfails⟩)
    · rw [hserves.kthreadRun c] at hrun
      cases hrun
    · exact ((h.entry c).pending (.kthreadStop c) (by simp [hrest]) rfl).2 trivial hreturned
    · exact absurd hserves.cpuhpSetupState (not_lt.mpr hle)
    · rcases hserves.kretprobe with hregistered | hcopes
      · exact absurd hregistered (not_le.mpr hneg)
      · rw [hfails] at hcopes
        cases hcopes
  have hsetup : k.cpuhpSetupState ≠ -1 := by
    have := hserves.cpuhpSetupState
    omega
  have hquiet : True → s.Quiet .remove := id
  rcases h.take hsetup hquiet htake with ⟨-, hhazard⟩ | ⟨hup', -, hgood⟩
  · exact absurd hhazard hsafe
  · exact ⟨_, htake, hup', rfl, hgood⟩

/-- Unloading can be completed, by induction on the calls that remain; a call that
waits for a work goes on when the work has finished. -/
theorem Good.completes (hserves : k.Serves) (h : Good k True s) (hup : s.oops = false) :
    ∃ es t, (unbondTest k).run s es = some t ∧ t.Unloaded k := by
  induction hn : s.remaining generalizing s with
  | nil => exact ⟨[], s, rfl, h.unloaded hup hn⟩
  | cons call rest ih =>
      by_cases hwait : ∃ c w, call = .cancelWorkSync c w ∧ ((s.entry c).works w).running = true
      · obtain ⟨c, w, rfl, hrunning⟩ := hwait
        have hidle : ¬ ((s.entry c).works w).Idle := fun hidle => by simp [hidle.2] at hrunning
        -- the work finishes, and the call follows
        have hfinish : (unbondTest k).take s (.finish c w) = some (s.setEntry c
            ((s.entry c).setWork w { (s.entry c).works w with running := false })) := by
          show State.take k s (.finish c w) = _
          unfold State.take
          simp only [hup, Bool.false_eq_true, if_false, hrunning, if_true]
          rw [s.code_some (by simp [hn])]
        have hgood := h.setWork hidle ((s.entry c).works w).queued false
        have hstopped : ∀ d v, Call.cancelWorkSync c w = .cancelWorkSync d v →
            (((s.setEntry c ((s.entry c).setWork w
              { (s.entry c).works w with running := false })).entry d).works v).running =
                false := by
          rintro d v ⟨⟩
          rw [State.setEntry_entry, if_pos rfl, TestEntry.setWork]
          simp
        obtain ⟨t, htake, hup', hremaining, hgood'⟩ := hgood.take_remove hserves hup hn hstopped
        obtain ⟨es, t', hrun, hunloaded⟩ := ih hgood' hup' hremaining
        exact ⟨.finish c w :: .remove :: es, t',
          EventSystem.run_cons hfinish (EventSystem.run_cons htake hrun), hunloaded⟩
      · obtain ⟨t, htake, hup', hremaining, hgood⟩ := h.take_remove hserves hup hn
          fun c w hcall => by
            rw [← Bool.not_eq_true]
            exact fun hrunning => hwait ⟨c, w, hcall, hrunning⟩
        obtain ⟨es, t', hrun, hunloaded⟩ := ih hgood hup' hremaining
        exact ⟨.remove :: es, t', EventSystem.run_cons htake hrun, hunloaded⟩

/-- **Unloading**, when CPUs go offline only before the works that the probe queues
are cancelled and no thread is woken before its timeout.  While the callbacks are
installed, a timer runs exactly on the CPUs that are online; unloading can always be
completed, and then nothing is left but the second probe. -/
theorem unbond_unloads (hserves : k.Serves)
    (h : Reachable ((unbondTest k).under State.Quiet) s) (hup : s.oops = false) :
    (.cpuhpRemoveState ∈ s.remaining →
      ∀ c, (s.entry c).timer = .started ↔ s.online c = true) ∧
    (s.remaining = [] → s.Unloaded k) ∧
    ∃ es t, (unbondTest k).run s es = some t ∧ t.Unloaded k := by
  have hsetup : k.cpuhpSetupState ≠ -1 := by
    have := hserves.cpuhpSetupState
    omega
  have hgood : Good k True s := reachable_good hsetup (fun _ _ _ hq => hq) h hup
  refine ⟨fun hleft c => ?_, hgood.unloaded hup, hgood.completes hserves hup⟩
  exact (hgood.entry c).follows (hgood.callbacks.mpr ⟨hserves.cpuhpSetupState, hleft⟩)

instance (s : State Bool) (e : Event Bool) : Decidable (s.Quiet e) :=
  match e with
  | .offline _ => inferInstanceAs (Decidable (_ → _))
  | .threadWoken _ => .isFalse id
  | .timer _ | .run _ _ | .finish _ _ | .threadSleeps _ _ | .threadWakes _ _ | .online _
  | .remove => .isTrue trivial

def bothOnline : Machine Bool := { oneOnline with online := fun _ => true }

/-- A CPU goes offline and comes back while a work runs and threads queue others, and
the unloading begins. -/
def hotplugRun : List (Event Bool) :=
  [.timer false, .run false (.work ⟨0, by decide⟩), .threadSleeps true 3, .offline true,
    .threadWakes true fun _ => 1, .online true, .remove, .remove, .remove]

/-- `unbond_unloads` behind such a run. -/
theorem unbond_unloads_hotplug : ∃ s₀ s, init bothOnline = some s₀ ∧
    (unbondTest bothOnline).runUnder State.Quiet s₀ hotplugRun = some s ∧
    ∃ es t, (unbondTest bothOnline).run s es = some t ∧ t.Unloaded bothOnline := by
  obtain ⟨s₀, hinit⟩ := Option.isSome_iff_exists.mp (by decide : (init bothOnline).isSome = true)
  have hrun : ((init bothOnline).bind fun s₀ =>
      ((unbondTest bothOnline).runUnder State.Quiet s₀ hotplugRun).map State.oops) =
        some false := by
    decide +kernel
  rw [hinit, Option.bind_some] at hrun
  obtain ⟨s, hs, hup⟩ := Option.map_eq_some_iff.mp hrun
  exact ⟨s₀, s, hinit, hs, (unbond_unloads ⟨by decide, fun _ => rfl, .inl le_rfl⟩
    (EventSystem.reachable_runUnder (.init hinit) hs) hup).2.2⟩

end Steps

end UnbondTest

end CodeSnippet
