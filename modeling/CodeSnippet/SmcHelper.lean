/-
CodeSnippet/SmcHelper.lean

The character device of src/kernel_module/smc: `smc_write` runs a command and
queues its result block, `smc_read` hands queued blocks to the reader.

Every call takes the lock of the device around its access to the queue, so a
run is a sequence of calls.  The histories of a run are kept beside the state:
the result blocks of the writes that succeeded, and the bytes that the reads
delivered within the lengths they returned.

Main results:
  * `smcRead_cases` — what a read does that copies at most one block.
  * `smc_lossless` — runs of such reads refine a first-in first-out channel,
    and no read that fails takes a block off the queue.
-/
import CodeSnippet.Block
import CodeSnippet.CInt
import CodeSnippet.Transition

namespace CodeSnippet

open Memory Transition

/-! ### The device -/

/-- `struct smc_cmd_buf` without its list node. -/
structure SmcCmdBuf where
  cmdBuf : Vector UInt64 8
  resultBuf : Vector UInt64 4

/-- `sizeof(cmdb->result_buf)`. -/
def sizeofResultBuf : ℕ := 32

/-- `sizeof(cmdb->cmd_buf)`. -/
def sizeofCmdBuf : ℕ := 64

/-- The bytes of an `unsigned long`, the lowest first. -/
def wordBytes (w : UInt64) : List UInt8 :=
  (List.range 8).map fun k => UInt8.ofNat (w.toNat >>> (8 * k))

/-- The bytes of `result_buf`. -/
def SmcCmdBuf.resultBytes (cmdb : SmcCmdBuf) : List UInt8 :=
  cmdb.resultBuf.toList.flatMap wordBytes

/-- A call of `read`: the length, the memory behind the user's pointer, and for
each copy to it how many bytes `copy_to_user` reports as not copied. -/
structure ReadCall where
  count : ℕ
  buf : Block UInt8
  left : ℕ → ℕ

/-- A call of `write`: the length, the command words behind the user's pointer,
what `kzalloc` and `copy_from_user` answer, and the firmware. -/
structure WriteCall where
  count : ℕ
  cmd : Vector UInt64 8
  allocated : Bool
  left : ℕ
  armSmcccSmc : Vector UInt64 8 → Vector UInt64 4

/-- What a read leaves behind. -/
structure ReadResult where
  ret : ℤ
  buf : Block UInt8
  cmdbHead : List SmcCmdBuf

/-- `copy_to_user`, when it reports `left` bytes as not copied. -/
def copyToUser (buf : Block UInt8) (src : List UInt8) (left : ℕ) : Block UInt8 :=
  buf.overlay (src.take (src.length - left))

/-- The walk over the queue.  `i` counts the copies; each of them goes to the
start of `buf`. -/
def smcReadLoop (r : ReadCall) :
    List SmcCmdBuf → (i bytesRead : ℕ) → Block UInt8 → ReadResult
  | [], _, bytesRead, buf => ⟨bytesRead, buf, []⟩
  | cmdb :: rest, i, bytesRead, buf =>
      if r.count < bytesRead + sizeofResultBuf then
        ⟨bytesRead, buf, cmdb :: rest⟩
      else if r.left i ≠ 0 then
        ⟨-eFault, copyToUser buf cmdb.resultBytes (r.left i), cmdb :: rest⟩
      else
        smcReadLoop r rest (i + 1) (bytesRead + sizeofResultBuf)
          (copyToUser buf cmdb.resultBytes (r.left i))

def smcRead (cmdbHead : List SmcCmdBuf) (r : ReadCall) : ReadResult :=
  smcReadLoop r cmdbHead 0 0 r.buf

/-- The return value and the queue afterwards. -/
def smcWrite (cmdbHead : List SmcCmdBuf) (w : WriteCall) : ℤ × List SmcCmdBuf :=
  if w.count ≠ sizeofCmdBuf then (-eInval, cmdbHead)
  else if w.allocated = false then (-eNoMem, cmdbHead)
  else if w.left ≠ 0 then (-eFault, cmdbHead)
  else (w.count, cmdbHead ++ [⟨w.cmd, w.armSmcccSmc w.cmd⟩])

/-! ### Runs -/

/-- The queue with the histories of the run. -/
structure SmcRun where
  cmdbHead : List SmcCmdBuf
  /-- The result blocks of the successful writes, in write order. -/
  results : List (Vector UInt64 4)
  /-- The bytes delivered to the readers. -/
  delivered : List UInt8

/-- The bytes that a read delivers: those within the length it returns. -/
def ReadResult.delivered (res : ReadResult) : List UInt8 :=
  if 0 ≤ res.ret then res.buf.cells 0 res.ret.toNat else []

/-- The result blocks that a write adds: that of its command when it succeeds. -/
def WriteCall.added (w : WriteCall) (ret : ℤ) : List (Vector UInt64 4) :=
  if 0 ≤ ret then [w.armSmcccSmc w.cmd] else []

/-- One call, by any process.  `C` says which reads the run may make. -/
inductive SmcRun.Step (C : List SmcCmdBuf → ReadCall → Prop) : SmcRun → SmcRun → Prop
  | write (s : SmcRun) (w : WriteCall) :
      Step C s { s with
        cmdbHead := (smcWrite s.cmdbHead w).2
        results := s.results ++ w.added (smcWrite s.cmdbHead w).1 }
  | read (s : SmcRun) (r : ReadCall) (hr : C s.cmdbHead r) :
      Step C s { s with
        cmdbHead := (smcRead s.cmdbHead r).cmdbHead
        delivered := s.delivered ++ (smcRead s.cmdbHead r).delivered }

/-- The device from its initialisation on. -/
def smcSystem (C : List SmcCmdBuf → ReadCall → Prop) : System SmcRun where
  init := fun s => s = ⟨[], [], []⟩
  step := SmcRun.Step C

/-- The bytes of result blocks. -/
def blockBytes (results : List (Vector UInt64 4)) : List UInt8 :=
  results.flatMap fun result => result.toList.flatMap wordBytes

/-- What was delivered is what was written, but for the blocks still queued;
and a read that fails with `-EFAULT` leaves the queue as it is. -/
structure SmcRun.Lossless (C : List SmcCmdBuf → ReadCall → Prop) (s : SmcRun) : Prop where
  fifo : s.delivered ++ blockBytes (s.cmdbHead.map SmcCmdBuf.resultBuf) = blockBytes s.results
  fault : ∀ r, C s.cmdbHead r → (smcRead s.cmdbHead r).ret = -eFault →
    (smcRead s.cmdbHead r).cmdbHead = s.cmdbHead

/-! ### Result blocks -/

theorem wordBytes_length (w : UInt64) : (wordBytes w).length = 8 := by
  simp [wordBytes]

@[simp] theorem SmcCmdBuf.resultBytes_length (cmdb : SmcCmdBuf) :
    cmdb.resultBytes.length = sizeofResultBuf := by
  rw [resultBytes, List.length_flatMap, List.map_congr_left fun w _ => wordBytes_length w]
  simp [sizeofResultBuf]

/-- A copy that succeeds puts the block at the start of the buffer. -/
theorem copyToUser_cells (buf : Block UInt8) (cmdb : SmcCmdBuf) :
    (copyToUser buf cmdb.resultBytes 0).cells 0 sizeofResultBuf = cmdb.resultBytes := by
  have htake : cmdb.resultBytes.take (cmdb.resultBytes.length - 0) = cmdb.resultBytes := by
    rw [Nat.sub_zero, List.take_length]
  rw [copyToUser, htake, ← cmdb.resultBytes_length]
  exact Block.overlay_cells ..

/-! ### One read -/

theorem smcRead_short {cmdb : SmcCmdBuf} {rest : List SmcCmdBuf} {r : ReadCall}
    (hcount : r.count < sizeofResultBuf) : smcRead (cmdb :: rest) r = ⟨0, r.buf, cmdb :: rest⟩ := by
  rw [smcRead, smcReadLoop, if_pos (by omega)]
  rfl

theorem smcRead_fault {cmdb : SmcCmdBuf} {rest : List SmcCmdBuf} {r : ReadCall}
    (hcount : sizeofResultBuf ≤ r.count) (hleft : r.left 0 ≠ 0) :
    smcRead (cmdb :: rest) r =
      ⟨-eFault, copyToUser r.buf cmdb.resultBytes (r.left 0), cmdb :: rest⟩ := by
  rw [smcRead, smcReadLoop, if_neg (by omega), if_pos hleft]

/-- The first block is copied and there is no other block, or no room for it. -/
theorem smcRead_block {cmdb : SmcCmdBuf} {rest : List SmcCmdBuf} {r : ReadCall}
    (hcount : sizeofResultBuf ≤ r.count) (hleft : r.left 0 = 0)
    (hend : r.count < 2 * sizeofResultBuf ∨ rest = []) :
    smcRead (cmdb :: rest) r =
      ⟨sizeofResultBuf, copyToUser r.buf cmdb.resultBytes 0, rest⟩ := by
  rw [smcRead, smcReadLoop, if_neg (by omega), if_neg (not_not_intro hleft), hleft,
    Nat.zero_add sizeofResultBuf]
  cases rest with
  | nil => rfl
  | cons cmdb' rest' =>
      have htwo : r.count < 2 * sizeofResultBuf := hend.resolve_right (List.cons_ne_nil _ _)
      rw [smcReadLoop, if_pos (by omega)]

/-- The reads that copy at most one block: the length is below two blocks, or
fewer than two blocks are queued, or the first copy fails. -/
def SingleBlock (cmdbHead : List SmcCmdBuf) (r : ReadCall) : Prop :=
  r.count < 2 * sizeofResultBuf ∨ cmdbHead.length < 2 ∨ r.left 0 ≠ 0

/-- Such a read delivers the first block and takes it off the queue, or
delivers nothing and leaves the queue as it is. -/
theorem smcRead_cases {cmdbHead : List SmcCmdBuf} {r : ReadCall} (h : SingleBlock cmdbHead r) :
    ((smcRead cmdbHead r).delivered = [] ∧ (smcRead cmdbHead r).cmdbHead = cmdbHead) ∨
    ((smcRead cmdbHead r).ret = sizeofResultBuf ∧
      ∃ cmdb rest, cmdbHead = cmdb :: rest ∧ (smcRead cmdbHead r).cmdbHead = rest ∧
        (smcRead cmdbHead r).delivered = cmdb.resultBytes) := by
  cases cmdbHead with
  | nil => exact .inl ⟨rfl, rfl⟩
  | cons cmdb rest =>
      by_cases hcount : r.count < sizeofResultBuf
      · rw [smcRead_short hcount]
        exact .inl ⟨rfl, rfl⟩
      · have hroom : sizeofResultBuf ≤ r.count := not_lt.mp hcount
        by_cases hleft : r.left 0 = 0
        · have hend : r.count < 2 * sizeofResultBuf ∨ rest = [] := by
            rcases h with hlt | hlen | hfault
            · exact .inl hlt
            · right
              simpa using hlen
            · exact absurd hleft hfault
          rw [smcRead_block hroom hleft hend]
          exact .inr ⟨rfl, cmdb, rest, rfl, rfl, copyToUser_cells r.buf cmdb⟩
        · rw [smcRead_fault hroom hleft]
          exact .inl ⟨rfl, rfl⟩

/-! ### Runs of reads of one block -/

/-- A run seen as a channel for bytes. -/
def SmcRun.channel (s : SmcRun) : Fifo UInt8 where
  queue := blockBytes (s.cmdbHead.map SmcCmdBuf.resultBuf)
  sent := blockBytes s.results
  received := s.delivered

theorem blockBytes_append (l l' : List (Vector UInt64 4)) :
    blockBytes (l ++ l') = blockBytes l ++ blockBytes l' :=
  List.flatMap_append ..

/-- A write queues the result block that it adds, or fails and does neither. -/
theorem smcWrite_spec (cmdbHead : List SmcCmdBuf) (w : WriteCall) :
    (smcWrite cmdbHead w).2.map SmcCmdBuf.resultBuf =
      cmdbHead.map SmcCmdBuf.resultBuf ++ w.added (smcWrite cmdbHead w).1 := by
  unfold smcWrite WriteCall.added
  split
  · rw [if_neg (show ¬ (0 : ℤ) ≤ -eInval by decide), List.append_nil]
  · split
    · rw [if_neg (show ¬ (0 : ℤ) ≤ -eNoMem by decide), List.append_nil]
    · split
      · rw [if_neg (show ¬ (0 : ℤ) ≤ -eFault by decide), List.append_nil]
      · rw [if_pos (Int.natCast_nonneg _), List.map_append]
        rfl

/-- Every step is a step of the channel, or moves nothing. -/
theorem SmcRun.Step.channel {s t : SmcRun} (h : SmcRun.Step SingleBlock s t) :
    t.channel = s.channel ∨ Fifo.Step s.channel t.channel := by
  cases h with
  | write w =>
      right
      have hput := Fifo.Step.put s.channel (blockBytes (w.added (smcWrite s.cmdbHead w).1))
      unfold SmcRun.channel at hput ⊢
      rw [smcWrite_spec, blockBytes_append, blockBytes_append]
      exact hput
  | read r hr =>
      rcases smcRead_cases hr with ⟨hnone, hsame⟩ | ⟨-, cmdb, rest, hqueue, hrest, hbytes⟩
      · left
        unfold SmcRun.channel
        rw [hnone, hsame, List.append_nil]
      · right
        have hget := Fifo.Step.get s.channel cmdb.resultBytes
          (blockBytes (rest.map SmcCmdBuf.resultBuf)) (by rw [SmcRun.channel, hqueue]; rfl)
        unfold SmcRun.channel at hget ⊢
        rw [hrest, hbytes]
        exact hget

/-- **The result queue is lossless** in every run whose reads copy at most one
block each. -/
theorem smc_lossless {s : SmcRun} (h : Reachable (smcSystem SingleBlock) s) :
    s.Lossless SingleBlock := by
  constructor
  · have hchannel : Reachable (Fifo.system UInt8) s.channel := by
      refine h.refinement SmcRun.channel ?_ ?_
      · rintro _ rfl
        rfl
      · intro s t hst
        exact hst.channel
    exact Fifo.conservation hchannel
  · intro r hr hfault
    rcases smcRead_cases hr with ⟨-, hsame⟩ | ⟨hret, -⟩
    · exact hsame
    · rw [hret] at hfault
      exact absurd hfault (by decide)

/-- A write of a command, by a firmware that answers with `result`. -/
def writeOf (result : Vector UInt64 4) : WriteCall :=
  ⟨sizeofCmdBuf, Vector.replicate 8 0, true, 0, fun _ => result⟩

/-- A read of `count` bytes into zeroed memory that does not fault. -/
def readOf (count : ℕ) : ReadCall := ⟨count, ⟨count, fun _ => 0⟩, fun _ => 0⟩

/-- Two writes, with the results 1 and 2 in `a0`. -/
def twoQueued : SmcRun :=
  ⟨[⟨Vector.replicate 8 0, #v[1, 0, 0, 0]⟩, ⟨Vector.replicate 8 0, #v[2, 0, 0, 0]⟩],
    [#v[1, 0, 0, 0], #v[2, 0, 0, 0]], []⟩

theorem twoQueued_reachable (C : List SmcCmdBuf → ReadCall → Prop) :
    Reachable (smcSystem C) twoQueued := by
  have h₀ : Reachable (smcSystem C) ⟨[], [], []⟩ := .init rfl
  have h₁ := h₀.step (SmcRun.Step.write _ (writeOf #v[1, 0, 0, 0]))
  exact h₁.step (SmcRun.Step.write _ (writeOf #v[2, 0, 0, 0]))

/-- After the two writes a read of one block gets the first result, and the second one
is left. -/
theorem smc_lossless_twoQueued : ∃ s, SmcRun.Step SingleBlock twoQueued s ∧
    s.delivered = blockBytes [#v[1, 0, 0, 0]] ∧ s.cmdbHead.length = 1 ∧
      s.Lossless SingleBlock := by
  have hread := SmcRun.Step.read (C := SingleBlock) twoQueued (readOf 32) (.inl (by decide))
  exact ⟨_, hread, by decide, rfl, smc_lossless ((twoQueued_reachable SingleBlock).step hread)⟩

/-- One read of 64 bytes gets the second block where the first should be. -/
theorem not_smc_lossless :
    ¬ ∀ s, Reachable (smcSystem fun _ _ => True) s → s.Lossless fun _ _ => True := by
  intro h
  have hread := (twoQueued_reachable fun _ _ => True).step
    (SmcRun.Step.read _ (readOf 64) trivial)
  exact absurd (h _ hread).fifo (by decide)

end CodeSnippet
