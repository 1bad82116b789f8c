/-
CodeSnippet/WorkTest.lean

The proc file of src/kernel_module/workqueue_test: the rows of the entries of
`test_work_idr`, produced by the iterator `c_start`/`c_next` that the kernel's
seq_file drives.

A complete read is a sequence of fetches.  Each entry that is fetched is either
shown and passed, or cut: the read ends before its row, or its row overflows the
buffer and is dropped.  After a cut the iterator is started again at the saved
position.

Main results:
  * `seqLoop_eq` — the listing is the list of ids, in ascending order, without
    those whose fetch was cut.
  * `showsAll_iff` — hence it is complete exactly when none was.
-/
import Mathlib

namespace CodeSnippet

/-! ### The entries -/

/-- The fields of `struct test_work` that are printed. -/
structure TestWork where
  id : ℕ
  timerCpu : ℤ
  lastRunCpu : ℤ
  kthreadCpu : ℤ
  delayTime : ℕ
  deriving DecidableEq

/-- `test_work_idr`: the ids in use (all below `num_work`, an `int`) and the
entries they lead to. -/
structure TestWorkIdr where
  ids : Finset ℕ
  entry : ℕ → TestWork
  entry_id : ∀ i ∈ ids, (entry i).id = i

/-- `idr_get_next`: the smallest id in use that is not below `id`. -/
def TestWorkIdr.getNext (idr : TestWorkIdr) (id : ℕ) : Option ℕ :=
  idr.ids.sort.find? fun i => id ≤ i

/-! ### The iterator -/

/-- The heading that `c_start` prints. -/
def heading : List String := ["id", "timer_cpu", "work_cpu", "kthread_cpu", "delay_time"]

/-- The columns of a row. -/
def cShow (entry : TestWork) : List ℤ :=
  [entry.id, entry.timerCpu, entry.lastRunCpu, entry.kthreadCpu, entry.delayTime]

/-- `idr_get_next` through `&id`, then `*pos = id + 1`.  Without an entry `id`
stays as it is. -/
def fetchFrom (idr : TestWorkIdr) (pos : ℕ) : Option ℕ × ℕ :=
  match idr.getNext pos with
  | some id => (some id, id + 1)
  | none => (none, pos + 1)

/-- `c_start`: the heading, the entry, and the position afterwards. -/
def cStart (idr : TestWorkIdr) (pos : ℕ) : List String × Option ℕ × ℕ :=
  (heading, fetchFrom idr pos)

def cNext (idr : TestWorkIdr) (pos : ℕ) : Option ℕ × ℕ :=
  fetchFrom idr pos

/-! ### A complete read -/

/-- What becomes of a fetched entry. -/
inductive Fetch
  | shown
  | cut
  deriving DecidableEq

/-- After a row the iterator is advanced; where that finds no entry the read
ends, and the next one starts at the saved position. -/
def advance (idr : TestWorkIdr) (pos : ℕ) : Option ℕ × ℕ :=
  match cNext idr pos with
  | (some id, pos) => (some id, pos)
  | (none, pos) => (cStart idr pos).2

/-- The rows from a fetch on.  There is no complete listing yet when the
fetches are used up before a start finds no entry. -/
def seqLoop (idr : TestWorkIdr) : Option ℕ × ℕ → List Fetch → Option (List (List ℤ))
  | (none, _), _ => some []
  | (some _, _), [] => none
  | (some id, pos), .shown :: fs =>
      (seqLoop idr (advance idr pos) fs).map (cShow (idr.entry id) :: ·)
  | (some _, pos), .cut :: fs => seqLoop idr (cStart idr pos).2 fs

/-- All rows, from the start of the file. -/
def seqRead (idr : TestWorkIdr) (fs : List Fetch) : Option (List (List ℤ)) :=
  seqLoop idr (cStart idr 0).2 fs

/-- A complete read shows the row of every entry once, in the order of the
ids. -/
def ShowsAll (idr : TestWorkIdr) (fs : List Fetch) : Prop :=
  seqRead idr fs = some (idr.ids.sort.map fun id => cShow (idr.entry id))

/-! ### Fetching from a sorted list -/

/-- The ids from a position on. -/
def idsFrom (idr : TestWorkIdr) (pos : ℕ) : List ℕ :=
  idr.ids.sort.filter fun id => pos ≤ id

theorem idsFrom_zero (idr : TestWorkIdr) : idsFrom idr 0 = idr.ids.sort :=
  List.filter_eq_self.mpr fun _ _ => decide_eq_true (Nat.zero_le _)

/-- `getNext` does what it is assumed to do. -/
theorem TestWorkIdr.getNext_eq_some {idr : TestWorkIdr} {pos id : ℕ}
    (h : idr.getNext pos = some id) : IsLeast {i | i ∈ idr.ids ∧ pos ≤ i} id := by
  obtain ⟨hpos, before, after, hsplit, hbefore⟩ := List.find?_eq_some_iff_append.mp h
  have hmem : ∀ i, i ∈ idr.ids ↔ i ∈ before ++ id :: after := by
    intro i
    rw [← hsplit, Finset.mem_sort]
  constructor
  · exact ⟨(hmem id).mpr (by simp), of_decide_eq_true hpos⟩
  · rintro i ⟨hi, hle⟩
    rcases List.mem_append.mp ((hmem i).mp hi) with hi | hi
    · exact absurd (decide_eq_true hle) (by simpa using hbefore i hi)
    · have hsorted := idr.ids.pairwise_sort (· ≤ ·)
      rw [hsplit] at hsorted
      rcases List.mem_cons.mp hi with rfl | hi
      · exact le_rfl
      · exact List.rel_of_pairwise_cons (List.pairwise_append.mp hsorted).2.1 hi

/-- The position behind the first id of a list leads to the rest of it. -/
theorem idsFrom_succ {idr : TestWorkIdr} {pos id : ℕ} {rest : List ℕ}
    (h : idsFrom idr pos = id :: rest) : idsFrom idr (id + 1) = rest := by
  have hsorted : (id :: rest).Pairwise (· < ·) := by
    rw [← h]
    exact idr.ids.sortedLT_sort.pairwise.filter _
  have hpos : pos ≤ id := by
    have hmem : id ∈ idsFrom idr pos := h ▸ List.mem_cons_self ..
    exact of_decide_eq_true (List.mem_filter.mp hmem).2
  have hsub : idsFrom idr (id + 1) = (idsFrom idr pos).filter fun i => id + 1 ≤ i := by
    rw [idsFrom, idsFrom, List.filter_filter]
    apply List.filter_congr
    intro i _
    rw [← Bool.decide_and]
    exact decide_eq_decide.mpr (by omega)
  rw [hsub, h, List.filter_cons_of_neg (by simp)]
  apply List.filter_eq_self.mpr
  intro i hi
  exact decide_eq_true (List.rel_of_pairwise_cons hsorted hi)

theorem fetchFrom_eq (idr : TestWorkIdr) (pos : ℕ) :
    fetchFrom idr pos = match idsFrom idr pos with
      | [] => (none, pos + 1)
      | id :: _ => (some id, id + 1) := by
  have hhead : idr.getNext pos = (idsFrom idr pos).head? := List.head?_filter.symm
  unfold fetchFrom
  rw [hhead]
  cases idsFrom idr pos <;> rfl

/-! ### The listing -/

/-- The ids of a list whose fetch was not cut. -/
def shownIds : List ℕ → List Fetch → List ℕ
  | [], _ => []
  | _ :: _, [] => []
  | id :: ids, .shown :: fs => id :: shownIds ids fs
  | _ :: ids, .cut :: fs => shownIds ids fs

/-- A start after a row finds what a next would have found. -/
theorem seqLoop_advance (idr : TestWorkIdr) (pos : ℕ) (fs : List Fetch) :
    seqLoop idr (advance idr pos) fs = seqLoop idr (fetchFrom idr pos) fs := by
  unfold advance cNext
  rcases e : fetchFrom idr pos with ⟨_ | id, pos'⟩
  · -- nothing from `pos` on, so nothing from `pos'` on either
    have hnil : idsFrom idr pos = [] ∧ pos + 1 = pos' := by
      rw [fetchFrom_eq] at e
      rcases hids : idsFrom idr pos with _ | ⟨id, rest⟩
      · rw [hids] at e
        exact ⟨rfl, congrArg Prod.snd e⟩
      · rw [hids] at e
        cases e
    obtain ⟨hnil, rfl⟩ := hnil
    have hnil' : idsFrom idr (pos + 1) = [] := by
      apply List.filter_eq_nil_iff.mpr
      intro i hi hle
      have hle' := of_decide_eq_true hle
      exact List.filter_eq_nil_iff.mp hnil i hi (decide_eq_true (by omega))
    show seqLoop idr (fetchFrom idr (pos + 1)) fs = _
    rw [fetchFrom_eq, hnil']
    simp only [seqLoop]
  · rfl

/-- **The listing** from a position on, by induction on the fetches. -/
theorem seqLoop_eq (idr : TestWorkIdr) (pos : ℕ) (fs : List Fetch) :
    seqLoop idr (fetchFrom idr pos) fs =
      if (idsFrom idr pos).length ≤ fs.length then
        some ((shownIds (idsFrom idr pos) fs).map fun id => cShow (idr.entry id))
      else none := by
  induction fs generalizing pos with
  | nil =>
      rw [fetchFrom_eq]
      rcases idsFrom idr pos with _ | ⟨id, rest⟩
      · simp [seqLoop, shownIds]
      · simp [seqLoop]
  | cons f fs ih =>
      rw [fetchFrom_eq]
      rcases e : idsFrom idr pos with _ | ⟨id, rest⟩
      · simp [seqLoop, shownIds]
      · have hrest := idsFrom_succ e
        have ih' := ih (id + 1)
        rw [hrest] at ih'
        cases f with
        | shown =>
            simp only [seqLoop, seqLoop_advance, ih', shownIds, List.length_cons,
              Nat.add_le_add_iff_right]
            split <;> rfl
        | cut =>
            show seqLoop idr (fetchFrom idr (id + 1)) fs = _
            simp only [ih', shownIds, List.length_cons, Nat.add_le_add_iff_right]

theorem shownIds_sublist (ids : List ℕ) (fs : List Fetch) : (shownIds ids fs).Sublist ids := by
  fun_induction shownIds ids fs with
  | case1 => exact List.nil_sublist _
  | case2 => exact List.nil_sublist _
  | case3 id ids fs ih => exact ih.cons_cons id
  | case4 id ids fs ih => exact ih.cons id

/-- Every cut loses an id. -/
theorem shownIds_eq_self_iff {ids : List ℕ} {fs : List Fetch} (h : ids.length ≤ fs.length) :
    (shownIds ids fs).length = ids.length ↔ ∀ f ∈ fs.take ids.length, f = .shown := by
  induction ids generalizing fs with
  | nil => simp [shownIds]
  | cons id ids ih =>
      cases fs with
      | nil => simp at h
      | cons f fs =>
          have ih' := ih (Nat.le_of_succ_le_succ h)
          rw [List.length_cons, List.take_succ_cons, List.forall_mem_cons]
          cases f with
          | shown => simp [shownIds, ih']
          | cut =>
              have hle := (shownIds_sublist ids fs).length_le
              simp only [shownIds, reduceCtorEq, false_and, iff_false]
              omega

/-- **A listing is complete exactly when no fetch was cut.**  With `n` entries
these are the first `n` fetches; the read ends after them. -/
theorem showsAll_iff (idr : TestWorkIdr) (fs : List Fetch) (h : idr.ids.card ≤ fs.length) :
    ShowsAll idr fs ↔ ∀ f ∈ fs.take idr.ids.card, f = .shown := by
  have hlen : idr.ids.sort.length = idr.ids.card := idr.ids.length_sort _
  have hread : seqRead idr fs =
      some ((shownIds idr.ids.sort fs).map fun id => cShow (idr.entry id)) := by
    have hloop := seqLoop_eq idr 0 fs
    rw [idsFrom_zero, if_pos (by omega)] at hloop
    exact hloop
  rw [ShowsAll, hread, ← hlen, ← shownIds_eq_self_iff (by omega), Option.some.injEq]
  constructor
  · intro heq
    simpa using congrArg List.length heq
  · intro heq
    rw [(shownIds_sublist _ _).eq_of_length heq]

/-- Three entries, whose ids have gaps. -/
def threeEntries : TestWorkIdr where
  ids := {0, 3, 7}
  entry := fun i => ⟨i, 0, 0, 0, 5⟩
  entry_id := fun _ _ => rfl

/-- A read that shows all three rows, and one whose second fetch, by `c_next`, is cut. -/
theorem showsAll_iff_threeEntries :
    ShowsAll threeEntries [.shown, .shown, .shown] ∧
      ¬ ShowsAll threeEntries [.shown, .cut, .shown, .shown] := by
  constructor
  · exact (showsAll_iff threeEntries _ (by decide)).mpr (by decide)
  · exact fun hall => absurd ((showsAll_iff threeEntries _ (by decide)).mp hall) (by decide)

/-- The entry that is fetched at the end of a read is never listed. -/
theorem not_showsAll_threeEntries :
    seqRead threeEntries [.shown, .cut, .shown, .shown] =
        some [[0, 0, 0, 0, 5], [7, 0, 0, 0, 5]] ∧
      ¬ ShowsAll threeEntries [.shown, .cut, .shown, .shown] := by
  have hsort : threeEntries.ids.sort = [0, 3, 7] := by
    show ([0, 3, 7].toFinset : Finset ℕ).sort = _
    exact (List.toFinset_sort (· ≤ ·) (by decide)).mpr (by decide)
  have hread : seqRead threeEntries [.shown, .cut, .shown, .shown] =
      some [[0, 0, 0, 0, 5], [7, 0, 0, 0, 5]] := by
    have hloop := seqLoop_eq threeEntries 0 [.shown, .cut, .shown, .shown]
    rw [idsFrom_zero, hsort] at hloop
    exact hloop
  refine ⟨hread, ?_⟩
  rw [ShowsAll, hread, hsort]
  decide

end CodeSnippet
