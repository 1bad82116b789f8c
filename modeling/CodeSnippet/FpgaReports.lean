/-
CodeSnippet/FpgaReports.lean

What `fpga_write` of src/socket/fpga_socket returns for a write.  The loop of
`do_write_fpga_ram` keeps the results of `send` in a `size_t`, which is never
negative: a call that fails takes one from the counter of the bytes that were
written, and the loop goes on.  Only the first call can end it, where the counter
goes below zero.

The counter counts whole frames, each with its padding, so that what is returned
can be more than was to be written.

Main results:
  * `writeLoop_full`, `writeLoop_last`, `writeLoop_failed` — the loop through the
    sends that transmit a full frame, at the last one, and at one that fails.
  * `reports_iff` — when the return value tells what happened.
-/
import CodeSnippet.FpgaSocket

namespace CodeSnippet

open Memory

/-! ### Reports -/

/-- The results of the first calls of `send`. -/
def firstResults (rs : ℕ → SendResult) (n : ℕ) : List SendResult := (List.range n).map rs

/-- The call returns.  Where a send has failed, the return value is negative and
it was the last one; where none has, some bytes are counted, and no more than
the buffer has. -/
def Reports (wbuf : { b : Block UInt8 // b.size = mtuMax }) (buf : Block UInt8)
    (rs : ℕ → SendResult) : Prop :=
  ∃ n frames ret, fpgaWrite wbuf buf buf.size (firstResults rs n) = some ⟨frames, some ret⟩ ∧
    (∀ i < frames.length, rs i = .failed → ret < 0 ∧ i + 1 = frames.length) ∧
    ((∀ i < frames.length, rs i = .whole) → 1 ≤ ret ∧ ret ≤ buf.size)

/-- The number of frames for so many bytes, when no send fails. -/
def frameCount (datalen : ℕ) : ℕ := (datalen + 1999) / 2000

theorem firstResults_of_whole {rs : ℕ → SendResult} {k n : ℕ} (h : ∀ i < k, rs i = .whole)
    (hk : k ≤ n) : firstResults rs n =
      List.replicate k .whole ++ (List.range (n - k)).map fun i => rs (k + i) := by
  obtain ⟨m, rfl⟩ := Nat.exists_eq_add_of_le hk
  rw [firstResults, List.range_add, List.map_append, Nat.add_sub_cancel_left, List.map_map]
  congr 1
  rw [List.eq_replicate_iff, List.length_map, List.length_range]
  refine ⟨rfl, fun r hr => ?_⟩
  obtain ⟨i, hi, rfl⟩ := List.mem_map.mp hr
  exact h i (List.mem_range.mp hi)

/-- The first send that fails, where some send does. -/
theorem exists_first_failed {rs : ℕ → SendResult} {k : ℕ} (h : ¬ ∀ i < k, rs i = .whole) :
    ∃ m, (m < k ∧ rs m = .failed) ∧ ∀ i < m, rs i = .whole := by
  have hex : ∃ m, m < k ∧ rs m = .failed := by
    by_contra hnone
    apply h
    intro i hi
    rcases hr : rs i with _ | _
    · rfl
    · exact absurd ⟨i, hi, hr⟩ hnone
  refine ⟨Nat.find hex, Nat.find_spec hex, fun i hi => ?_⟩
  rcases hr : rs i with _ | _
  · rfl
  · exact absurd ⟨hi.trans (Nat.find_spec hex).1, hr⟩ (Nat.find_min hex hi)

/-! ### The loop -/

variable {buf wbuf : Block UInt8} {addr datalen tw : ℕ}

/-- A frame that is full counts as many bytes as it has. -/
theorem fragLens_full {left : ℕ} (h : 1973 ≤ left) : fragLens left = (1973, 0) := if_pos h

/-- **The sends of full frames**: as many as there are, and the counter behind
them. -/
theorem writeLoop_full (addr tw k : ℕ) (hwbuf : wbuf.size = mtuMax) (hbuf : datalen ≤ buf.size)
    (hlt : datalen < 2 ^ 32) (hk : tw + 2000 * k < datalen) :
    ∃ wbuf' frames, wbuf'.size = mtuMax ∧ List.length frames = k ∧
      ∀ rs, writeLoop buf addr datalen wbuf tw (List.replicate k .whole ++ rs) =
        (writeLoop buf addr datalen wbuf' (tw + 2000 * k) rs).map fun sent =>
          { sent with frames := frames ++ sent.frames } := by
  induction k generalizing wbuf tw with
  | zero =>
      refine ⟨wbuf, [], hwbuf, rfl, fun rs => ?_⟩
      rw [List.replicate_zero, List.nil_append, Nat.mul_zero, Nat.add_zero]
      exact Option.map_id'.symm
  | succ k ih =>
      obtain ⟨wbuf₁, hfrag, hsize, -⟩ := writeFragment_spec addr hwbuf (show tw < datalen by omega)
        hbuf (show fragLens (datalen - tw) = (1973, 0) from fragLens_full (by omega))
      obtain ⟨wbuf', frames, hsize', hlength, hloop⟩ :=
        ih (tw + 2000) hsize (by omega)
      refine ⟨wbuf', wbuf₁.cells 0 2000 :: frames, hsize', congrArg _ hlength, fun rs => ?_⟩
      have hcount :
          (tw + SendResult.whole.ret (wbuf₁.cells 0 2000).length) % 2 ^ 64 = tw + 2000 := by
        rw [Block.cells_length, SendResult.ret]
        omega
      rw [List.replicate_succ, List.cons_append, writeLoop, if_pos (by omega), hfrag]
      simp only [Option.bind_eq_bind, Option.bind_some]
      rw [hcount, hloop, show tw + 2000 + 2000 * k = tw + 2000 * (k + 1) by omega]
      rcases writeLoop buf addr datalen wbuf' (tw + 2000 * (k + 1)) rs with _ | sent
      · rfl
      · rfl

/-- Without further results the loop has not returned. -/
theorem writeLoop_unfinished (addr tw k : ℕ) (hwbuf : wbuf.size = mtuMax)
    (hbuf : datalen ≤ buf.size) (hlt : datalen < 2 ^ 32) (hk : tw + 2000 * k < datalen) :
    ∃ frames, writeLoop buf addr datalen wbuf tw (List.replicate k .whole) =
      some ⟨frames, none⟩ := by
  obtain ⟨wbuf', frames, -, -, hloop⟩ := writeLoop_full addr tw k hwbuf hbuf hlt hk
  have hrun := hloop []
  rw [List.append_nil, writeLoop, if_pos hk] at hrun
  exact ⟨_, hrun⟩

/-- **The last frame**: the counter passes the data, and the loop returns. -/
theorem writeLoop_last (addr : ℕ) (rs : List SendResult) (hwbuf : wbuf.size = mtuMax)
    (hbuf : datalen ≤ buf.size) (hlt : datalen < 2 ^ 32) (htw : tw < datalen)
    (hleft : datalen ≤ tw + 2000) :
    ∃ f, writeLoop buf addr datalen wbuf tw (.whole :: rs) =
      some ⟨[f], some ((tw + min 2000 (max 64 (datalen - tw + 27)) : ℕ) : ℤ)⟩ := by
  rcases e : fragLens (datalen - tw) with ⟨w, p⟩
  obtain ⟨wbuf', hfrag, -⟩ := writeFragment_spec addr hwbuf htw hbuf e
  have hlength : 23 + w + p + 4 = min 2000 (max 64 (datalen - tw + 27)) := by
    have hmax : dataLenMax = 1973 := rfl
    have hmin : dataLenMin = 37 := rfl
    unfold fragLens at e
    rw [hmax, hmin] at e
    split at e
    · cases e
      omega
    · split at e <;> (cases e; omega)
  have hcount : (tw + SendResult.whole.ret (wbuf'.cells 0 (23 + w + p + 4)).length) % 2 ^ 64 =
      tw + min 2000 (max 64 (datalen - tw + 27)) := by
    rw [Block.cells_length, SendResult.ret, hlength]
    omega
  refine ⟨wbuf'.cells 0 (23 + w + p + 4), ?_⟩
  have hdone : ∀ rs,
      writeLoop buf addr datalen wbuf' (tw + min 2000 (max 64 (datalen - tw + 27))) rs =
        some ⟨[], some ((tw + min 2000 (max 64 (datalen - tw + 27)) : ℕ) : ℤ)⟩ := by
    intro rs
    have hssize : toSsize (tw + min 2000 (max 64 (datalen - tw + 27))) =
        ((tw + min 2000 (max 64 (datalen - tw + 27)) : ℕ) : ℤ) := if_pos (by omega)
    cases rs with
    | nil => rw [writeLoop, if_neg (by omega), hssize]
    | cons r rs => rw [writeLoop, if_neg (by omega), hssize]
  rw [writeLoop, if_pos htw, hfrag]
  simp only [Option.bind_eq_bind, Option.bind_some, hcount, hdone]
  rfl

/-- **A send that fails** behind another one is not the last. -/
theorem writeLoop_failed {rs : List SendResult} {frames : List (List UInt8)} {ret : ℤ}
    (hwbuf : wbuf.size = mtuMax) (hbuf : datalen ≤ buf.size) (hlt : datalen < 2 ^ 32)
    (hpos : 0 < tw) (htw : tw < datalen)
    (h : writeLoop buf addr datalen wbuf tw (.failed :: rs) = some ⟨frames, some ret⟩) :
    2 ≤ frames.length := by
  rcases e : fragLens (datalen - tw) with ⟨w, p⟩
  obtain ⟨wbuf', hfrag, -⟩ := writeFragment_spec addr hwbuf htw hbuf e
  -- the counter goes down by one
  have hcount : (tw + SendResult.failed.ret (wbuf'.cells 0 (23 + w + p + 4)).length) % 2 ^ 64 =
      tw - 1 := by
    rw [SendResult.ret]
    omega
  rw [writeLoop, if_pos htw, hfrag] at h
  simp only [Option.bind_eq_bind, Option.bind_some, hcount] at h
  obtain ⟨⟨rest, ret'⟩, hrest, hsent⟩ := Option.bind_eq_some_iff.mp h
  obtain ⟨rfl, rfl⟩ := Sent.mk.inj (Option.some.inj hsent)
  obtain ⟨_, f, -, hf⟩ := writeLoop_head (show tw - 1 < datalen by omega) hrest
  have hlength := List.length_pos_of_mem hf
  show 2 ≤ rest.length + 1
  omega

/-- **A send that fails at once** ends the loop. -/
theorem writeLoop_failedFirst (addr : ℕ) (rs : List SendResult) (hwbuf : wbuf.size = mtuMax)
    (hbuf : datalen ≤ buf.size) (hlt : datalen < 2 ^ 32) (hpos : 0 < datalen) :
    ∃ f, writeLoop buf addr datalen wbuf 0 (.failed :: rs) = some ⟨[f], some (-1)⟩ := by
  rcases e : fragLens (datalen - 0) with ⟨w, p⟩
  obtain ⟨wbuf', hfrag, -⟩ := writeFragment_spec addr hwbuf hpos hbuf e
  have hdone : ∀ rs, writeLoop buf addr datalen wbuf' ((0 + (2 ^ 64 - 1)) % 2 ^ 64) rs =
      some ⟨[], some (-1)⟩ := by
    intro rs
    cases rs with
    | nil =>
        rw [writeLoop, if_neg (by omega)]
        rfl
    | cons r rs =>
        rw [writeLoop, if_neg (by omega)]
        rfl
  refine ⟨wbuf'.cells 0 (23 + w + p + 4), ?_⟩
  rw [writeLoop, if_pos hpos, hfrag]
  simp only [Option.bind_eq_bind, Option.bind_some, SendResult.ret, hdone]
  rfl

/-! ### The call -/

section Call

variable {rs : ℕ → SendResult}

/-- A call that returns 0 or less without having sent anything. -/
theorem not_reports_of_silent {wbuf : { b : Block UInt8 // b.size = mtuMax }} {ret : ℤ}
    (hret : ret ≤ 0) (hrun : ∀ rs, fpgaWrite wbuf buf buf.size rs = some ⟨[], some ret⟩) :
    ¬ Reports wbuf buf rs := by
  rintro ⟨n, frames, ret', hsent, -, hcounts⟩
  obtain ⟨rfl, hsame⟩ := Sent.mk.inj (Option.some.inj ((hrun _).symm.trans hsent))
  obtain rfl := Option.some.inj hsame
  have hone := (hcounts fun i hi => absurd hi (Nat.not_lt_zero i)).1
  omega

/-- With too few results the loop has not returned. -/
theorem writeLoop_few (addr : ℕ) {n : ℕ} (hwbuf : wbuf.size = mtuMax) (hbuf : datalen ≤ buf.size)
    (hlt : datalen < 2 ^ 32) (hwhole : ∀ i < n, rs i = .whole) (hn : 2000 * n < datalen) :
    ∃ frames, writeLoop buf addr datalen wbuf 0 (firstResults rs n) = some ⟨frames, none⟩ := by
  have hfew := firstResults_of_whole hwhole (le_refl n)
  rw [Nat.sub_self, List.range_zero, List.map_nil, List.append_nil] at hfew
  rw [hfew]
  exact writeLoop_unfinished addr 0 n hwbuf hbuf hlt (by omega)

/-- A loop whose sends all transmit their frames. -/
theorem Reports.of_whole {wbuf : { b : Block UInt8 // b.size = mtuMax }} {w : Block UInt8}
    (hw : w.size = mtuMax) (hlen : buf.size = datalen + 27) (hfits : buf.size < 2 ^ 32)
    (hpos : 1 ≤ datalen)
    (hrun : ∀ rs, fpgaWrite wbuf buf buf.size rs = writeLoop buf addr datalen w 0 rs)
    (hwhole : ∀ i < frameCount datalen, rs i = .whole) :
    Reports wbuf buf rs ↔ 36 ≤ (datalen - 1) % 2000 := by
  -- the full frames, and what is left for the last one
  obtain ⟨k, hk⟩ : ∃ k, frameCount datalen = k + 1 :=
    Nat.exists_eq_add_one_of_ne_zero (by rw [frameCount]; omega)
  have hbounds : 2000 * k < datalen ∧ datalen ≤ 2000 * k + 2000 := by
    rw [frameCount] at hk
    omega
  have hbuf : datalen ≤ buf.size := by omega
  have hlt : datalen < 2 ^ 32 := by omega
  obtain ⟨w', frames, hw', hlength, hfull⟩ :=
    writeLoop_full addr 0 k hw hbuf hlt (by omega)
  rw [hk] at hwhole
  -- a run that has returned
  have hreturn : ∀ rest, ∃ f,
      writeLoop buf addr datalen w 0 (List.replicate (k + 1) .whole ++ rest) =
        some ⟨frames ++ [f],
          some ((2000 * k + min 2000 (max 64 (datalen - 2000 * k + 27)) : ℕ) : ℤ)⟩ := by
    intro rest
    obtain ⟨f, hlast⟩ := writeLoop_last addr rest hw' hbuf hlt
      (show 0 + 2000 * k < datalen by omega) (by omega)
    rw [Nat.zero_add] at hfull hlast
    refine ⟨f, ?_⟩
    rw [List.replicate_succ', List.append_assoc, List.singleton_append, hfull, hlast]
    rfl
  constructor
  · rintro ⟨n, frames', ret, hsent, -, hcounts⟩
    rw [hrun] at hsent
    by_cases hn : k + 1 ≤ n
    · rw [firstResults_of_whole hwhole hn] at hsent
      obtain ⟨f, hret⟩ := hreturn ((List.range (n - (k + 1))).map fun i => rs (k + 1 + i))
      obtain ⟨rfl, hret'⟩ := Sent.mk.inj (Option.some.inj (hret.symm.trans hsent))
      obtain rfl := Option.some.inj hret'
      rw [List.length_append, List.length_singleton, hlength] at hcounts
      have hle := (hcounts hwhole).2
      omega
    · -- there are not enough results for the call to return
      obtain ⟨_, hnone⟩ :=
        writeLoop_few (n := n) addr hw hbuf hlt (fun i hi => hwhole i (by omega)) (by omega)
      rw [hnone] at hsent
      cases hsent
  · intro hleft
    obtain ⟨f, hret⟩ := hreturn []
    have henough := firstResults_of_whole hwhole (le_refl (k + 1))
    rw [Nat.sub_self, List.range_zero, List.map_nil] at henough
    refine ⟨k + 1, _, _, (hrun _).trans (henough ▸ hret), fun i hi hfailed => ?_, fun _ => ?_⟩
    · rw [List.length_append, List.length_singleton, hlength] at hi
      rw [hwhole i hi] at hfailed
      cases hfailed
    · omega

/-- A loop where a send behind the first one fails. -/
theorem not_reports_of_failed (rs : ℕ → SendResult) (m : ℕ)
    {wbuf : { b : Block UInt8 // b.size = mtuMax }} {w : Block UInt8} (hw : w.size = mtuMax)
    (hlen : buf.size = datalen + 27) (hfits : buf.size < 2 ^ 32)
    (hrun : ∀ rs, fpgaWrite wbuf buf buf.size rs = writeLoop buf addr datalen w 0 rs)
    (hwhole : ∀ i < m, rs i = .whole) (hfailed : rs m = .failed) (hm : 0 < m)
    (hmd : 2000 * m < datalen) : ¬ Reports wbuf buf rs := by
  rintro ⟨n, frames, ret, hsent, hlast, -⟩
  rw [hrun] at hsent
  have hbuf : datalen ≤ buf.size := by omega
  have hlt : datalen < 2 ^ 32 := by omega
  by_cases hn : m < n
  · obtain ⟨w', full, hw', hlength, hfull⟩ :=
      writeLoop_full addr 0 m hw hbuf hlt (by omega)
    obtain ⟨j, hj⟩ : ∃ j, n - m = j + 1 := Nat.exists_eq_add_one_of_ne_zero (by omega)
    rw [firstResults_of_whole hwhole hn.le, hj, List.range_succ_eq_map, List.map_cons,
      Nat.add_zero, hfailed, hfull] at hsent
    obtain ⟨⟨more, ret'⟩, hmore, hsent⟩ := Option.map_eq_some_iff.mp hsent
    obtain ⟨rfl, rfl⟩ := Sent.mk.inj hsent
    have htwo := writeLoop_failed hw' hbuf hlt (show 0 < 0 + 2000 * m by omega) (by omega) hmore
    change ∀ i < (full ++ more).length, rs i = .failed → ret < 0 ∧ i + 1 = (full ++ more).length
      at hlast
    -- the frame behind the failed one
    obtain ⟨-, hend⟩ := hlast m (by rw [List.length_append, hlength]; omega) hfailed
    rw [List.length_append, hlength] at hend
    omega
  · obtain ⟨_, hnone⟩ :=
      writeLoop_few (n := n) addr hw hbuf hlt (fun i hi => hwhole i (by omega)) (by omega)
    rw [hnone] at hsent
    cases hsent

end Call

/-- **When the return value tells what happened**: the buffer has data and a
length below 2^32, and the first send fails, or none fails and the last frame
needs no padding. -/
theorem reports_iff (wbuf : { b : Block UInt8 // b.size = mtuMax }) (buf : Block UInt8)
    (hmac : buf.cells 0 macLen = fpgaMac)
    (hlen : buf.size = wordAt (buf.cells 0 buf.size) dataLenPos + dataHeaderLen + linkTrailerLen)
    (rs : ℕ → SendResult) :
    Reports wbuf buf rs ↔
      1 ≤ wordAt (buf.cells 0 buf.size) dataLenPos ∧ buf.size < 2 ^ 32 ∧
        (rs 0 = .failed ∨
          ((∀ i < frameCount (wordAt (buf.cells 0 buf.size) dataLenPos), rs i = .whole) ∧
            36 ≤ (wordAt (buf.cells 0 buf.size) dataLenPos - 1) % 2000)) := by
  have hrun := fpgaWrite_run hmac hlen wbuf
  generalize hd : wordAt (buf.cells 0 buf.size) dataLenPos = datalen at *
  generalize wordAt (buf.cells 0 buf.size) addrPos = addr at *
  have hsize : buf.size = datalen + 27 := hlen
  by_cases hfits : buf.size < 2 ^ 32
  · rw [if_pos hfits] at hrun
    obtain ⟨w, hw, -, hrun⟩ := hrun
    have hbuf : datalen ≤ buf.size := by omega
    have hlt : datalen < 2 ^ 32 := by omega
    rcases Nat.eq_zero_or_pos datalen with rfl | hpos
    · -- there is nothing to send
      have hdone : ∀ rs, fpgaWrite wbuf buf buf.size rs = some ⟨[], some 0⟩ := by
        intro rs
        rw [hrun]
        cases rs with
        | nil => rfl
        | cons r rs => rfl
      refine iff_of_false (not_reports_of_silent le_rfl hdone) ?_
      rintro ⟨hone, -⟩
      exact absurd hone (by decide)
    · by_cases hwhole : ∀ i < frameCount datalen, rs i = .whole
      · -- no send fails
        have hfirst : rs 0 ≠ .failed := by
          rw [hwhole 0 (by rw [frameCount]; omega)]
          exact SendResult.noConfusion
        rw [Reports.of_whole hw hsize hfits hpos hrun hwhole]
        exact ⟨fun hleft => ⟨hpos, hfits, .inr ⟨hwhole, hleft⟩⟩,
          fun h => (h.2.2.resolve_left hfirst).2⟩
      · obtain ⟨m, ⟨hm, hfailed⟩, hleast⟩ := exists_first_failed hwhole
        rcases Nat.eq_zero_or_pos m with rfl | hmpos
        · -- the first send fails
          refine ⟨fun _ => ⟨hpos, hfits, .inl hfailed⟩, fun _ => ?_⟩
          obtain ⟨f, hloop⟩ := writeLoop_failedFirst addr [] hw hbuf hlt hpos
          refine ⟨1, [f], -1, ?_, fun i hi _ => ⟨by decide, ?_⟩, fun hall => ?_⟩
          · rw [hrun, firstResults, List.range_one, List.map_singleton, hfailed]
            exact hloop
          · have hi : i < 1 := hi
            show i + 1 = 1
            omega
          · rw [hall 0 Nat.one_pos] at hfailed
            cases hfailed
        · -- another send fails
          have hnot := not_reports_of_failed rs m hw hsize hfits hrun hleast hfailed hmpos (by
            rw [frameCount] at hm
            omega)
          refine ⟨fun h => absurd h hnot, ?_⟩
          rintro ⟨-, -, hfirst | ⟨hall, -⟩⟩
          · rw [hleast 0 hmpos] at hfirst
            cases hfirst
          · exact absurd hall hwhole
  · -- the length is refused, and nothing sent
    rw [if_neg hfits] at hrun
    refine iff_of_false (not_reports_of_silent (by decide) hrun) ?_
    rintro ⟨-, hlt, -⟩
    exact hfits hlt

/-- `reports_iff` for a first send that fails. -/
theorem reports_iff_oneByteWrite :
    Reports ⟨⟨mtuMax, fun _ => 0⟩, rfl⟩ oneByteWrite fun _ => .failed :=
  (reports_iff ⟨⟨mtuMax, fun _ => 0⟩, rfl⟩ oneByteWrite (by decide) (by decide) _).mpr
    ⟨by decide, by decide, .inl rfl⟩

/-- A request to write 2001 bytes, which need two frames. -/
def twoFrameWrite : Block UInt8 :=
  ⟨2028, fun i => (fpgaMac ++ List.replicate 13 0 ++ [0xD1, 7, 0, 0]).getD i 0⟩

/-- The second of two sends fails, and the padding of a frame is counted. -/
theorem not_reports :
    ¬ (∀ (wbuf : { b : Block UInt8 // b.size = mtuMax }) (buf : Block UInt8),
      buf.cells 0 macLen = fpgaMac →
      buf.size = wordAt (buf.cells 0 buf.size) dataLenPos + dataHeaderLen + linkTrailerLen →
      ∀ rs, Reports wbuf buf rs) ∧
    ∃ frames, fpgaWrite ⟨⟨mtuMax, fun _ => 0⟩, rfl⟩ oneByteWrite 28 [.whole] =
      some ⟨frames, some 64⟩ := by
  have hword : wordAt (twoFrameWrite.cells 0 twoFrameWrite.size) dataLenPos = 2001 := by
    rw [wordAt_cells (by decide)]
    rfl
  have hlen : twoFrameWrite.size = wordAt (twoFrameWrite.cells 0 twoFrameWrite.size) dataLenPos +
      dataHeaderLen + linkTrailerLen := by
    rw [hword]
    rfl
  constructor
  · intro hevery
    have hrun := @fpgaWrite_run twoFrameWrite (by decide) hlen ⟨⟨mtuMax, fun _ => 0⟩, rfl⟩
    rw [if_pos (by decide), hword] at hrun
    obtain ⟨w, hw, -, hrun⟩ := hrun
    have hnot := not_reports_of_failed (fun i => if i = 1 then .failed else .whole) 1 hw
      (show twoFrameWrite.size = 2001 + 27 from rfl) (by decide) hrun (fun i hi => if_neg hi.ne)
      rfl Nat.one_pos (by decide)
    exact hnot (hevery _ twoFrameWrite (by decide) hlen _)
  · have hrun := @fpgaWrite_run oneByteWrite (by decide) (by decide) ⟨⟨mtuMax, fun _ => 0⟩, rfl⟩
    rw [if_pos (by decide)] at hrun
    obtain ⟨w, hw, -, hrun⟩ := hrun
    obtain ⟨f, hlast⟩ := writeLoop_last 0 [] hw (show 1 ≤ oneByteWrite.size by decide)
      (by decide) (show 0 < 1 from Nat.one_pos) (by decide)
    exact ⟨[f], (hrun [.whole]).trans hlast⟩

end CodeSnippet
