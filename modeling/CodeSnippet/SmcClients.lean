/-
CodeSnippet/SmcClients.lean

Any number of processes that run the tool of src/kernel_module/smc/utils on one
device: each of them writes a command and reads a block of 32 bytes.

The queue of src/kernel_module/smc belongs to the device and not to the open
file, and a read takes the oldest block whoever reads.

Main results:
  * `ownResult_exact` — the processes read their own results exactly as long
    as each of them reads when the oldest block is its own, or equal to it.
-/
import CodeSnippet.SmcHelper

namespace CodeSnippet

open Memory Transition

variable {ι : Type} [DecidableEq ι]

/-! ### The processes -/

/-- What a process does next. -/
inductive SmcPc
  | smcWrite | smcRead | done
  deriving DecidableEq

/-- A process, with what `arm_smccc_smc` returned for its command, and the
block that it read. -/
structure SmcClient where
  pc : SmcPc
  result : Vector UInt64 4
  block : Option (List UInt8)

/-- The queue, the processes, and whose the queued blocks are. -/
structure SmcClients (ι : Type) where
  cmdbHead : List SmcCmdBuf
  client : ι → SmcClient
  owners : List ι

inductive SmcEvent (ι : Type)
  | write (i : ι) (w : WriteCall)
  | read (i : ι) (r : ReadCall)

/-- The calls of the tool: a whole command, then one block.  A process whose
write fails does not read. -/
def SmcClients.take (s : SmcClients ι) : SmcEvent ι → Option (SmcClients ι)
  | .write i w =>
      if (s.client i).pc = .smcWrite ∧ w.count = sizeofCmdBuf then
        let res := smcWrite s.cmdbHead w
        if 0 ≤ res.1 then
          some {
            cmdbHead := res.2
            client := Function.update s.client i ⟨.smcRead, w.armSmcccSmc w.cmd, none⟩
            owners := s.owners ++ [i] }
        else
          some { s with
            cmdbHead := res.2
            client := Function.update s.client i { s.client i with pc := .done } }
      else none
  | .read i r =>
      if (s.client i).pc = .smcRead ∧ r.count = sizeofResultBuf then
        let res := smcRead s.cmdbHead r
        some {
          cmdbHead := res.cmdbHead
          client := Function.update s.client i { s.client i with
            pc := .done
            block := if 0 ≤ res.ret then some res.delivered else none }
          owners := if 0 < res.ret then s.owners.tail else s.owners }
      else none

/-- The device without blocks, the processes before their write. -/
def smcClients (ι : Type) [DecidableEq ι] : EventSystem (SmcClients ι) (SmcEvent ι) where
  init := fun s => s.cmdbHead = [] ∧ s.owners = [] ∧
    ∀ i, (s.client i).pc = .smcWrite ∧ (s.client i).block = none
  take := SmcClients.take

/-- The bytes of a result block. -/
def resultBytes (result : Vector UInt64 4) : List UInt8 := result.toList.flatMap wordBytes

/-- Every block that a process has read is the result of its own command. -/
def SmcClients.OwnResult (s : SmcClients ι) : Prop :=
  ∀ i block, (s.client i).block = some block → block = resultBytes (s.client i).result

/-- A process that is not refused its copy reads when the oldest block is its
own, or holds the same result. -/
def SmcClients.InTurn (s : SmcClients ι) : SmcEvent ι → Prop
  | .write _ _ => True
  | .read i r => r.left 0 = 0 →
      ∃ j, s.owners.head? = some j ∧ (s.client j).result = (s.client i).result

/-! ### Result blocks as bytes -/

/-- Numbers with the same bytes are equal as far as the bytes go. -/
theorem mod_pow_eq_of_bytes {a b n : ℕ}
    (h : ∀ k < n, a >>> (8 * k) % 256 = b >>> (8 * k) % 256) : a % 256 ^ n = b % 256 ^ n := by
  induction n with
  | zero => simp [Nat.mod_one]
  | succ n ih =>
      have hlow := ih fun k hk => h k (Nat.lt_succ_of_lt hk)
      have hbyte := h n (Nat.lt_succ_self n)
      rw [Nat.shiftRight_eq_div_pow, Nat.shiftRight_eq_div_pow, Nat.pow_mul] at hbyte
      rw [Nat.mod_pow_succ, Nat.mod_pow_succ, hlow]
      exact congrArg _ (congrArg _ hbyte)

theorem wordBytes_injective : Function.Injective wordBytes := by
  intro w w' h
  have hbyte : ∀ k < 8, w.toNat >>> (8 * k) % 256 = w'.toNat >>> (8 * k) % 256 := by
    intro k hk
    have hget := congrArg (fun l : List UInt8 => (l.getD k 0).toNat) h
    simpa [wordBytes, hk] using hget
  have hmod := mod_pow_eq_of_bytes hbyte
  -- eight bytes are the whole of a word
  rw [show 256 ^ 8 = 2 ^ 64 by norm_num, Nat.mod_eq_of_lt w.toNat_lt,
    Nat.mod_eq_of_lt w'.toNat_lt] at hmod
  exact UInt64.toNat_inj.mp hmod

theorem flatMap_wordBytes_inj {l l' : List UInt64} (hlen : l.length = l'.length)
    (h : l.flatMap wordBytes = l'.flatMap wordBytes) : l = l' := by
  induction l generalizing l' with
  | nil => exact (List.length_eq_zero_iff.mp hlen.symm).symm
  | cons w l ih =>
      cases l' with
      | nil => cases hlen
      | cons w' l' =>
          have hword : (wordBytes w).length = (wordBytes w').length := by
            rw [wordBytes_length, wordBytes_length]
          obtain ⟨hhead, htail⟩ := List.append_inj h hword
          rw [wordBytes_injective hhead, ih (Nat.succ.inj hlen) htail]

theorem resultBytes_injective : Function.Injective resultBytes := by
  intro result result' h
  apply Vector.toList_inj.mp
  apply flatMap_wordBytes_inj _ h
  rw [Vector.length_toList, Vector.length_toList]

/-! ### Calls -/

/-- A process writes its command: it goes on to its read, or it is refused. -/
theorem SmcClients.take_write {s t : SmcClients ι} {i : ι} {w : WriteCall}
    (ht : s.take (.write i w) = some t) : (s.client i).pc = .smcWrite ∧
      (0 ≤ (smcWrite s.cmdbHead w).1 ∧ t = ⟨(smcWrite s.cmdbHead w).2,
          Function.update s.client i ⟨.smcRead, w.armSmcccSmc w.cmd, none⟩, s.owners ++ [i]⟩ ∨
        ¬ 0 ≤ (smcWrite s.cmdbHead w).1 ∧ t = ⟨(smcWrite s.cmdbHead w).2,
          Function.update s.client i { s.client i with pc := .done }, s.owners⟩) := by
  obtain ⟨hguard, ht⟩ := Option.ite_none_right_eq_some.mp ht
  refine ⟨hguard.1, ?_⟩
  by_cases hret : 0 ≤ (smcWrite s.cmdbHead w).1
  · left
    rw [if_pos hret] at ht
    exact ⟨hret, (Option.some_inj.mp ht).symm⟩
  · right
    rw [if_neg hret] at ht
    exact ⟨hret, (Option.some_inj.mp ht).symm⟩

/-- A process reads one block, and is through. -/
theorem SmcClients.take_read {s t : SmcClients ι} {i : ι} {r : ReadCall}
    (ht : s.take (.read i r) = some t) :
    (s.client i).pc = .smcRead ∧ r.count = sizeofResultBuf ∧ t = ⟨(smcRead s.cmdbHead r).cmdbHead,
      Function.update s.client i { s.client i with
        pc := .done
        block := if 0 ≤ (smcRead s.cmdbHead r).ret then some (smcRead s.cmdbHead r).delivered
          else none },
      if 0 < (smcRead s.cmdbHead r).ret then s.owners.tail else s.owners⟩ := by
  obtain ⟨hguard, ht⟩ := Option.ite_none_right_eq_some.mp ht
  exact ⟨hguard.1, hguard.2, (Option.some_inj.mp ht).symm⟩

/-! ### Runs -/

/-- The queued blocks are the results of their owners, who have written. -/
structure SmcClients.Owned (s : SmcClients ι) : Prop where
  blocks : s.cmdbHead.map SmcCmdBuf.resultBuf = s.owners.map fun j => (s.client j).result
  written : ∀ j ∈ s.owners, (s.client j).pc ≠ .smcWrite
  unread : ∀ i, (s.client i).pc = .smcWrite → (s.client i).block = none

/-- A change of one process that keeps its result, if it has one. -/
theorem results_update {client : ι → SmcClient} {i : ι} {c : SmcClient} {owners : List ι}
    (hresult : i ∈ owners → c.result = (client i).result) :
    (owners.map fun j => (Function.update client i c j).result) =
      owners.map fun j => (client j).result := by
  apply List.map_congr_left
  intro j hj
  by_cases e : j = i
  · subst e
    rw [Function.update_self]
    exact hresult hj
  · rw [Function.update_of_ne e]

/-- A process that has written goes on. -/
theorem SmcClients.Owned.set {s : SmcClients ι} (h : s.Owned) {i : ι} {c : SmcClient}
    (hpc : c.pc ≠ .smcWrite) {cmdbHead : List SmcCmdBuf} {owners : List ι}
    (howners : ∀ j ∈ owners, j = i ∨ j ∈ s.owners)
    (hblocks : cmdbHead.map SmcCmdBuf.resultBuf =
      owners.map fun j => (Function.update s.client i c j).result) :
    SmcClients.Owned ⟨cmdbHead, Function.update s.client i c, owners⟩ := by
  refine ⟨hblocks, ?_, ?_⟩
  · intro j hj
    by_cases e : j = i
    · subst e
      simpa using hpc
    · have hwritten := h.written j ((howners j hj).resolve_left e)
      simpa [e] using hwritten
  · intro j hj
    by_cases e : j = i
    · subst e
      simp [hpc] at hj
    · simp only [Function.update_of_ne e] at hj ⊢
      exact h.unread j hj

/-- A process is through, with or without a block. -/
theorem SmcClients.Owned.through {s : SmcClients ι} (h : s.Owned) {i : ι}
    {block : Option (List UInt8)} {cmdbHead : List SmcCmdBuf} {owners : List ι}
    (howners : ∀ j ∈ owners, j ∈ s.owners)
    (hblocks : cmdbHead.map SmcCmdBuf.resultBuf = owners.map fun j => (s.client j).result) :
    SmcClients.Owned ⟨cmdbHead,
      Function.update s.client i { s.client i with pc := .done, block := block }, owners⟩ := by
  apply h.set (by simp) fun j hj => .inr (howners j hj)
  rw [results_update fun _ => by rfl]
  exact hblocks

/-- A read of one block: there is none, or its copy fails, or it is delivered. -/
theorem smcRead_one (cmdbHead : List SmcCmdBuf) {r : ReadCall} (hcount : r.count = sizeofResultBuf) :
    (cmdbHead = [] ∧ smcRead cmdbHead r = ⟨0, r.buf, []⟩) ∨
    (r.left 0 ≠ 0 ∧ (smcRead cmdbHead r).ret = -eFault ∧
      (smcRead cmdbHead r).cmdbHead = cmdbHead) ∨
    (r.left 0 = 0 ∧ (smcRead cmdbHead r).ret = sizeofResultBuf ∧ ∃ cmdb rest,
      cmdbHead = cmdb :: rest ∧ (smcRead cmdbHead r).cmdbHead = rest ∧
      (smcRead cmdbHead r).delivered = cmdb.resultBytes) := by
  cases cmdbHead with
  | nil => exact .inl ⟨rfl, rfl⟩
  | cons cmdb rest =>
      right
      by_cases hleft : r.left 0 = 0
      · right
        rw [smcRead_block hcount.ge hleft (.inl (by rw [hcount]; decide))]
        exact ⟨hleft, rfl, cmdb, rest, rfl, rfl, copyToUser_cells r.buf cmdb⟩
      · left
        rw [smcRead_fault hcount.ge hleft]
        exact ⟨hleft, rfl, rfl⟩

/-- **One call**, in turn or not. -/
theorem SmcClients.Owned.take {s t : SmcClients ι} {e : SmcEvent ι} (h : s.Owned)
    (ht : s.take e = some t) : t.Owned := by
  cases e with
  | write i w =>
      have hspec := smcWrite_spec s.cmdbHead w
      obtain ⟨hpc, ⟨hret, rfl⟩ | ⟨hret, rfl⟩⟩ := SmcClients.take_write ht
      · -- the block goes to the end of the queue, and the process has none there yet
        have hnew : i ∉ s.owners := fun hi => h.written i hi hpc
        apply h.set (by simp)
        · intro j hj
          rw [List.mem_append, List.mem_singleton] at hj
          exact hj.symm
        · rw [hspec, WriteCall.added, if_pos hret, h.blocks, List.map_append,
            results_update fun hi => absurd hi hnew]
          simp
      · rw [WriteCall.added, if_neg hret, List.append_nil] at hspec
        exact h.through (fun j hj => hj) (hspec.trans h.blocks)
  | read i r =>
      obtain ⟨-, hcount, rfl⟩ := SmcClients.take_read ht
      rcases smcRead_one s.cmdbHead hcount with
        ⟨hnil, hres⟩ | ⟨-, hret, hsame⟩ | ⟨-, hret, cmdb, rest, hqueue, hrest, -⟩
      · have hblocks := h.blocks
        rw [hnil] at hblocks
        rw [hres]
        exact h.through (fun j hj => hj) hblocks
      · -- a block that cannot be copied stays
        have hkeep : ¬ (0 : ℤ) < -eFault := by decide
        rw [hret, hsame, if_neg hkeep]
        exact h.through (fun j hj => hj) h.blocks
      · have htake : (0 : ℤ) < (sizeofResultBuf : ℕ) := by decide
        have hblocks := congrArg List.tail h.blocks
        rw [hqueue, List.map_cons, List.tail_cons, ← List.map_tail] at hblocks
        rw [hret, hrest, if_pos htake]
        exact h.through (fun j hj => List.mem_of_mem_tail hj) hblocks

/-- At most as many processes are about to read as blocks are queued. -/
def SmcClients.Waiting (s : SmcClients ι) : Prop :=
  ∃ readers : Finset ι, (∀ i, (s.client i).pc = .smcRead → i ∈ readers) ∧
    readers.card ≤ s.owners.length

theorem SmcClients.Waiting.take {s t : SmcClients ι} {e : SmcEvent ι} (h : s.Waiting)
    (ht : s.take e = some t) : t.Waiting := by
  obtain ⟨readers, hreaders, hcard⟩ := h
  cases e with
  | write i w =>
      obtain ⟨-, ⟨-, rfl⟩ | ⟨-, rfl⟩⟩ := SmcClients.take_write ht
      · refine ⟨insert i readers, ?_, ?_⟩
        · intro j hj
          by_cases e : j = i
          · rw [e]
            exact Finset.mem_insert_self i readers
          · simp only [Function.update_of_ne e] at hj
            exact Finset.mem_insert_of_mem (hreaders j hj)
        · rw [List.length_append, List.length_singleton]
          exact (Finset.card_insert_le i readers).trans (Nat.succ_le_succ hcard)
      · refine ⟨readers, ?_, hcard⟩
        intro j hj
        by_cases e : j = i
        · subst e
          simp at hj
        · simp only [Function.update_of_ne e] at hj
          exact hreaders j hj
  | read i r =>
      obtain ⟨hpc, -, rfl⟩ := SmcClients.take_read ht
      refine ⟨readers.erase i, ?_, ?_⟩
      · intro j hj
        by_cases e : j = i
        · subst e
          simp at hj
        · simp only [Function.update_of_ne e] at hj
          exact Finset.mem_erase.mpr ⟨e, hreaders j hj⟩
      · -- one process fewer, and at most one block fewer
        rw [Finset.card_erase_of_mem (hreaders i hpc)]
        show _ ≤ (if 0 < (smcRead s.cmdbHead r).ret then s.owners.tail else s.owners).length
        split
        · rw [List.length_tail]
          exact Nat.sub_le_sub_right hcard 1
        · exact (Nat.sub_le _ 1).trans hcard

theorem owned_of_reachable {ok : SmcClients ι → SmcEvent ι → Prop} {s : SmcClients ι}
    (h : Reachable ((smcClients ι).under ok) s) : s.Owned ∧ s.Waiting := by
  refine EventSystem.invariant (P := fun s => s.Owned ∧ s.Waiting) ?_
    (fun s e t hs _ ht => ⟨hs.1.take ht, hs.2.take ht⟩) h
  rintro s ⟨hqueue, howners, hclient⟩
  refine ⟨⟨?_, ?_, fun i _ => (hclient i).2⟩, ∅, ?_, Nat.zero_le _⟩
  · rw [hqueue, howners]
    rfl
  · rw [howners]
    intro j hj
    cases hj
  · intro i hi
    rw [(hclient i).1] at hi
    cases hi

omit [DecidableEq ι] in
/-- A process that reads finds a block. -/
theorem SmcClients.Owned.exists_oldest {s : SmcClients ι} (h : s.Owned) (hwait : s.Waiting)
    {i : ι} (hpc : (s.client i).pc = .smcRead) :
    ∃ cmdb rest j, s.cmdbHead = cmdb :: rest ∧ s.owners.head? = some j ∧
      cmdb.resultBuf = (s.client j).result := by
  obtain ⟨readers, hreaders, hcard⟩ := hwait
  have hpos : 0 < s.owners.length := lt_of_lt_of_le (Finset.card_pos.mpr ⟨i, hreaders i hpc⟩) hcard
  obtain ⟨j, js, howners⟩ := List.exists_cons_of_length_pos hpos
  have hblocks := h.blocks
  rw [howners, List.map_cons] at hblocks
  obtain ⟨cmdb, rest, hqueue, hresult, -⟩ := List.map_eq_cons_iff.mp hblocks
  refine ⟨cmdb, rest, j, hqueue, ?_, hresult⟩
  rw [howners]
  rfl

/-- What a read makes of its process: the result of the oldest block's owner,
or nothing when the copy fails. -/
theorem SmcClients.Owned.delivered {s : SmcClients ι} (h : s.Owned) (hwait : s.Waiting) {i : ι}
    {r : ReadCall} {t : SmcClients ι} (ht : s.take (.read i r) = some t) :
    ∃ j, s.owners.head? = some j ∧ t.client = Function.update s.client i { s.client i with
      pc := .done
      block := if r.left 0 = 0 then some (resultBytes (s.client j).result) else none } := by
  obtain ⟨hpc, hcount, rfl⟩ := SmcClients.take_read ht
  obtain ⟨cmdb, rest, j, hqueue, hhead, hresult⟩ := h.exists_oldest hwait hpc
  refine ⟨j, hhead, ?_⟩
  rcases smcRead_one s.cmdbHead hcount with
    ⟨hnil, -⟩ | ⟨hleft, hret, -⟩ | ⟨hleft, hret, cmdb', rest', hqueue', -, hbytes⟩
  · rw [hqueue] at hnil
    cases hnil
  · have hneg : ¬ (0 : ℤ) ≤ -eFault := by decide
    rw [hret, if_neg hneg, if_neg hleft]
  · have hnonneg : (0 : ℤ) ≤ (sizeofResultBuf : ℕ) := by decide
    rw [hqueue, List.cons.injEq] at hqueue'
    rw [hret, if_pos hnonneg, if_pos hleft, hbytes, ← hqueue'.1, SmcCmdBuf.resultBytes, hresult]
    rfl

/-- **One call in turn.** -/
theorem SmcClients.OwnResult.take {s t : SmcClients ι} {e : SmcEvent ι} (h : s.OwnResult)
    (howned : s.Owned) (hwait : s.Waiting) (hok : s.InTurn e) (ht : s.take e = some t) :
    t.OwnResult := by
  cases e with
  | write i w =>
      obtain ⟨hpc, hcases⟩ := SmcClients.take_write ht
      have hnone := howned.unread i hpc
      intro j block hj
      by_cases e : j = i
      · -- a process that writes has not read
        subst e
        rcases hcases with ⟨-, rfl⟩ | ⟨-, rfl⟩ <;> simp [hnone] at hj
      · rcases hcases with ⟨-, rfl⟩ | ⟨-, rfl⟩
        all_goals
          simp only [Function.update_of_ne e] at hj ⊢
          exact h j block hj
  | read i r =>
      obtain ⟨k, hhead, hclient⟩ := howned.delivered hwait ht
      intro j block hj
      rw [hclient] at hj ⊢
      by_cases e : j = i
      · subst e
        simp only [Function.update_self] at hj ⊢
        split at hj
        · rename_i hleft
          obtain ⟨k', hhead', hsame⟩ := hok hleft
          rw [hhead, Option.some.injEq] at hhead'
          rw [← Option.some.inj hj, hhead', hsame]
        · cases hj
      · simp only [Function.update_of_ne e] at hj ⊢
        exact h j block hj

/-- **Processes get their own results exactly while they read in turn.**  In
every run whose reads are all in turn, every block that a process has read is
the result of its own command; and a read out of turn delivers another's. -/
theorem ownResult_exact {s : SmcClients ι} (h : Reachable ((smcClients ι).under SmcClients.InTurn) s) :
    s.OwnResult ∧ ∀ e t, s.take e = some t → ¬ s.InTurn e → ¬ t.OwnResult := by
  have hown : s.OwnResult := by
    have hall := EventSystem.invariant (P := fun s => (s.Owned ∧ s.Waiting) ∧ s.OwnResult)
      (fun s hs => ⟨owned_of_reachable (.init hs : Reachable (smcClients ι).system s), ?_⟩) ?_ h
    · exact hall.2
    · intro i block hblock
      rw [(hs.2.2 i).2] at hblock
      cases hblock
    · rintro s e t ⟨⟨hs, hw⟩, ho⟩ hok ht
      exact ⟨⟨hs.take ht, hw.take ht⟩, ho.take hs hw hok ht⟩
  obtain ⟨howned, hwait⟩ := owned_of_reachable h
  refine ⟨hown, ?_⟩
  intro e t ht hok
  cases e with
  | write i w => exact absurd trivial hok
  | read i r =>
      obtain ⟨j, hhead, hclient⟩ := howned.delivered hwait ht
      have hturn : r.left 0 = 0 ∧ (s.client j).result ≠ (s.client i).result := by
        constructor
        · by_contra hleft
          exact hok fun hzero => absurd hzero hleft
        · intro hsame
          exact hok fun _ => ⟨j, hhead, hsame⟩
      intro hafter
      have hblock : (t.client i).block = some (resultBytes (s.client j).result) := by
        rw [hclient, Function.update_self, if_pos hturn.1]
      have hresult : (t.client i).result = (s.client i).result := by
        rw [hclient, Function.update_self]
      have hbytes := hafter i _ hblock
      rw [hresult] at hbytes
      exact hturn.2 (resultBytes_injective hbytes)

/-- Two processes before their writes. -/
def twoClients : SmcClients ℕ := ⟨[], fun _ => ⟨.smcWrite, Vector.replicate 4 0, none⟩, []⟩

theorem twoClients_init : (smcClients ℕ).init twoClients := ⟨rfl, rfl, fun _ => ⟨rfl, rfl⟩⟩

/-- Both write, and the first one reads first. -/
theorem ownResult_exact_twoClients :
    ∃ s t, (smcClients ℕ).run twoClients
        [.write 0 (writeOf #v[1, 0, 0, 0]), .write 1 (writeOf #v[2, 0, 0, 0])] = some s ∧
      s.take (.read 0 (readOf 32)) = some t ∧
      (t.client 0).block = some (resultBytes #v[1, 0, 0, 0]) ∧ t.OwnResult := by
  have hrun : (smcClients ℕ).run twoClients
      [.write 0 (writeOf #v[1, 0, 0, 0]), .write 1 (writeOf #v[2, 0, 0, 0])] = some _ := rfl
  have hstart : Reachable ((smcClients ℕ).under SmcClients.InTurn) twoClients :=
    .init twoClients_init
  have hwrites := EventSystem.reachable_run hstart (fun e he u => by
    simp only [List.mem_cons, List.not_mem_nil, or_false] at he
    rcases he with rfl | rfl <;> trivial) hrun
  refine ⟨_, _, hrun, rfl, rfl, ?_⟩
  -- the block that is read is the one of the process that reads
  exact (ownResult_exact (hwrites.step ⟨.read 0 (readOf 32), fun _ => ⟨0, rfl, rfl⟩, rfl⟩)).1

/-- Both write, and the second one reads first. -/
theorem not_ownResult :
    ¬ ∀ s, Reachable (smcClients ℕ).system s → s.OwnResult := by
  intro h
  have hrun : (smcClients ℕ).run twoClients
      [.write 0 (writeOf #v[1, 0, 0, 0]), .write 1 (writeOf #v[2, 0, 0, 0]),
        .read 1 (readOf 32)] = some _ := rfl
  have hown := h _ (EventSystem.reachable_run (.init twoClients_init) (fun _ _ _ => trivial) hrun)
  exact absurd (hown 1 (resultBytes #v[1, 0, 0, 0]) (by decide)) (by decide)

end CodeSnippet
