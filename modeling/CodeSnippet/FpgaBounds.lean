/-
CodeSnippet/FpgaBounds.lean

Which cells of its scratch buffer `do_write_fpga_ram` touches
(src/socket/fpga_socket), and how much it hands to `send`.  The function stands
here once more as the machine runs it: `wbuf` keeps a log of its accesses, and
the buffer of the caller is read without a check, since the 32-bit sum in the
length check lets a length field near 2^32 pass for a short buffer.

Main results:
  * `doWriteFpgaRam_inside` — where the checked function is defined, the
    unchecked one sends the same lengths and stays inside `wbuf`.
  * `sends_within` — every length handed to `send` and every index of `wbuf`,
    for any buffer and any results of `send`.
-/
import CodeSnippet.AccessLog
import CodeSnippet.FpgaSocket

namespace CodeSnippet

open Memory

/-! ### Without a check -/

namespace Unchecked

/-- Four byte stores, the lowest byte of the word first. -/
def storeWord (b : Logged UInt8) (pos w : ℕ) : Logged UInt8 :=
  let b := b.store pos (UInt8.ofNat (w &&& 0xFF))
  let b := b.store (pos + 1) (UInt8.ofNat ((w >>> 8) &&& 0xFF))
  let b := b.store (pos + 2) (UInt8.ofNat ((w >>> 16) &&& 0xFF))
  b.store (pos + 3) (UInt8.ofNat ((w >>> 24) &&& 0xFF))

/-- Four byte loads. -/
def loadWord (b : Block UInt8) (pos : ℕ) : ℕ :=
  leWord (b.cell pos) (b.cell (pos + 1)) (b.cell (pos + 2)) (b.cell (pos + 3))

/-- The body of the loop with the reads that `send` does: the scratch buffer
afterwards and the length that `send` is given. -/
def writeFragment (wbuf : Logged UInt8) (buf : Block UInt8) (addr datalen totalwrite : ℕ) :
    Logged UInt8 × ℕ :=
  let (wlen, padlen) := fragLens (datalen - totalwrite)
  let waddr := (addr + totalwrite) % 2 ^ 32
  let wbuf := storeWord wbuf addrPos waddr
  let wbuf := storeWord wbuf dataLenPos wlen
  -- both start at `wbuf`, not at `wbuf + DATA_POS`
  let wbuf := wbuf.memcpy 0 buf totalwrite wlen
  let wbuf := wbuf.memset 0 0 padlen
  let (chksum, wbuf) := wbuf.sumLoop UInt8.toUInt32 (dataHeaderLen + wlen + padlen) 0
  let wbuf := storeWord wbuf (dataLenPos + wlen + padlen) chksum.toNat
  let (_, wbuf) := wbuf.read (dataHeaderLen + wlen + padlen + linkTrailerLen)
  (wbuf, dataHeaderLen + wlen + padlen + linkTrailerLen)

/-- The scratch buffer and the lengths given to `send`, one for each iteration
that the results are for. -/
def writeLoop (buf : Block UInt8) (addr datalen : ℕ) :
    Logged UInt8 → ℕ → List SendResult → Logged UInt8 × List ℕ
  | wbuf, _, [] => (wbuf, [])
  | wbuf, totalwrite, r :: rs =>
      if datalen > totalwrite then
        let (wbuf, len) := writeFragment wbuf buf addr datalen totalwrite
        -- a failed `send` takes one from the counter, or ends the loop where it is 0
        let (wbuf, lens) :=
          writeLoop buf addr datalen wbuf ((totalwrite + r.ret len) % 2 ^ 64) rs
        (wbuf, len :: lens)
      else (wbuf, [])

def doWriteFpgaRam (wbuf buf : Block UInt8) (len : ℕ) (rs : List SendResult) :
    Logged UInt8 × List ℕ :=
  let addr := loadWord buf addrPos
  let datalen := loadWord buf dataLenPos
  if len ≠ (datalen + dataHeaderLen + linkTrailerLen) % 2 ^ 32 then (.start wbuf, [])
  else
    let wbuf := (Logged.start wbuf).memset 0 0 mtuMax
    let wbuf := wbuf.memcpy 0 buf 0 linkHeaderLen
    let wbuf := wbuf.store cmdPos (buf.cell cmdPos)
    writeLoop buf addr datalen wbuf 0 rs

end Unchecked

/-! ### The checked functions -/

theorem storeWord_inside {b : Logged UInt8} (h : b.Inside) {pos w : ℕ} {b' : Block UInt8}
    (hb : storeWord b.block pos w = some b') :
    (Unchecked.storeWord b pos w).Inside ∧ (Unchecked.storeWord b pos w).block = b' := by
  simp only [storeWord, Option.bind_eq_bind, Option.bind_eq_some_iff] at hb
  obtain ⟨b₀, h₀, b₁, h₁, b₂, h₂, h₃⟩ := hb
  obtain ⟨hin₀, rfl⟩ := h.store h₀
  obtain ⟨hin₁, rfl⟩ := hin₀.store h₁
  obtain ⟨hin₂, rfl⟩ := hin₁.store h₂
  exact hin₂.store h₃

theorem loadWord_unchecked {b : Block UInt8} {pos w : ℕ} (h : loadWord b pos = some w) :
    Unchecked.loadWord b pos = w := by
  simp only [loadWord, Option.bind_eq_bind, Option.bind_eq_some_iff, Block.load_eq_some_iff] at h
  obtain ⟨b₀, ⟨-, rfl⟩, b₁, ⟨-, rfl⟩, b₂, ⟨-, rfl⟩, b₃, ⟨-, rfl⟩, hw⟩ := h
  exact Option.some.inj hw

theorem writeFragment_inside {wbuf : Logged UInt8} (h : wbuf.Inside) {buf b : Block UInt8}
    {addr datalen tw : ℕ} {frame : List UInt8}
    (hs : writeFragment wbuf.block buf addr datalen tw = some (b, frame)) :
    (Unchecked.writeFragment wbuf buf addr datalen tw).1.Inside ∧
      (Unchecked.writeFragment wbuf buf addr datalen tw).1.block = b ∧
      (Unchecked.writeFragment wbuf buf addr datalen tw).2 = frame.length := by
  simp only [writeFragment, Option.bind_eq_bind, Option.bind_eq_some_iff] at hs
  obtain ⟨b₁, h₁, b₂, h₂, b₃, h₃, b₄, h₄, cks, h₅, b₆, h₆, l, h₇, hret⟩ := hs
  obtain ⟨rfl, rfl⟩ := Prod.mk.inj (Option.some.inj hret)
  obtain ⟨hin₁, rfl⟩ := storeWord_inside h h₁
  obtain ⟨hin₂, rfl⟩ := storeWord_inside hin₁ h₂
  obtain ⟨hin₃, rfl⟩ := hin₂.memcpy h₃
  obtain ⟨hin₄, rfl⟩ := hin₃.memset h₄
  obtain ⟨hin₅, rfl⟩ := hin₄.sumLoop h₅
  rw [← Logged.sumLoop_block UInt8.toUInt32 _ _ 0] at h₆
  obtain ⟨hin₆, rfl⟩ := storeWord_inside hin₅ h₆
  obtain ⟨hin₇, rfl⟩ := hin₆.read h₇
  exact ⟨hin₇, rfl, (Block.cells_length ..).symm⟩

/-- The loop, by induction on the results of `send`. -/
theorem writeLoop_inside {wbuf : Logged UInt8} (h : wbuf.Inside) {buf : Block UInt8}
    {addr datalen tw : ℕ} {rs : List SendResult} {sent : Sent}
    (hs : writeLoop buf addr datalen wbuf.block tw rs = some sent) :
    (Unchecked.writeLoop buf addr datalen wbuf tw rs).1.Inside ∧
      (Unchecked.writeLoop buf addr datalen wbuf tw rs).2 = sent.frames.map List.length := by
  induction rs generalizing wbuf tw sent with
  | nil =>
      rw [writeLoop] at hs
      refine ⟨h, ?_⟩
      split at hs
      · cases hs
        rfl
      · cases hs
        rfl
  | cons r rs ih =>
      rw [writeLoop] at hs
      rw [Unchecked.writeLoop]
      split at hs
      · rename_i htw
        obtain ⟨⟨b, frame⟩, hfrag, hs⟩ := Option.bind_eq_some_iff.mp hs
        obtain ⟨rest, hrest, hret⟩ := Option.bind_eq_some_iff.mp hs
        obtain rfl := Option.some.inj hret
        obtain ⟨hin, rfl, hlen⟩ := writeFragment_inside h hfrag
        rw [← hlen] at hrest
        obtain ⟨hin', hlens⟩ := ih hin hrest
        rw [if_pos htw]
        exact ⟨hin', congrArg₂ List.cons hlen hlens⟩
      · rename_i htw
        cases hs
        rw [if_neg htw]
        exact ⟨h, rfl⟩

/-- **Where the checked function is defined**, the unchecked one hands `send`
the same lengths and stays inside `wbuf`. -/
theorem doWriteFpgaRam_inside {wbuf : { b : Block UInt8 // b.size = mtuMax }} {buf : Block UInt8}
    {len : ℕ} {rs : List SendResult} {sent : Sent}
    (hs : doWriteFpgaRam wbuf buf len rs = some sent) :
    (Unchecked.doWriteFpgaRam wbuf.1 buf len rs).1.Inside ∧
      (Unchecked.doWriteFpgaRam wbuf.1 buf len rs).2 = sent.frames.map List.length := by
  simp only [doWriteFpgaRam, Option.bind_eq_bind, Option.bind_eq_some_iff] at hs
  obtain ⟨addr, haddr, datalen, hdatalen, hs⟩ := hs
  obtain rfl := loadWord_unchecked haddr
  obtain rfl := loadWord_unchecked hdatalen
  rw [Unchecked.doWriteFpgaRam]
  split at hs
  · rename_i hcheck
    cases hs
    rw [if_pos hcheck]
    exact ⟨Logged.inside_start wbuf.1, rfl⟩
  · rename_i hcheck
    simp only [Option.bind_eq_some_iff, Block.load_eq_some_iff] at hs
    obtain ⟨b₁, h₁, b₂, h₂, cmd, ⟨-, rfl⟩, b₃, h₃, hs⟩ := hs
    obtain ⟨hin₁, rfl⟩ := (Logged.inside_start wbuf.1).memset h₁
    obtain ⟨hin₂, rfl⟩ := hin₁.memcpy h₂
    obtain ⟨hin₃, rfl⟩ := hin₂.store h₃
    rw [if_neg hcheck]
    exact writeLoop_inside hin₃ hs

/-! ### One fragment -/

variable {wbuf : Logged UInt8} {buf : Block UInt8} {addr datalen tw : ℕ}

theorem storeWord_within {b : Logged UInt8} {pos m : ℕ} (h : b.Within m) (hpos : pos + 4 ≤ m)
    (w : ℕ) : (Unchecked.storeWord b pos w).Within m := by
  unfold Unchecked.storeWord
  have h₀ := h.store (show pos < m by omega) (UInt8.ofNat (w &&& 0xFF))
  have h₁ := h₀.store (show pos + 1 < m by omega) (UInt8.ofNat ((w >>> 8) &&& 0xFF))
  have h₂ := h₁.store (show pos + 2 < m by omega) (UInt8.ofNat ((w >>> 16) &&& 0xFF))
  exact h₂.store (by omega) _

/-- **One iteration** hands `send` a length between the two bounds, and touches
`wbuf` only below `MTU_MAX`. -/
theorem writeFragment_within (h : wbuf.Within mtuMax) (htw : tw < datalen) :
    (Unchecked.writeFragment wbuf buf addr datalen tw).1.Within mtuMax ∧
      mtuMin ≤ (Unchecked.writeFragment wbuf buf addr datalen tw).2 ∧
      (Unchecked.writeFragment wbuf buf addr datalen tw).2 ≤ mtuMax := by
  have hmax : mtuMax = 2000 := rfl
  have hmin : mtuMin = 64 := rfl
  have h15 : addrPos = 15 := rfl
  have h19 : dataLenPos = 19 := rfl
  have h23 : dataHeaderLen = 23 := rfl
  have h4 : linkTrailerLen = 4 := rfl
  rcases e : fragLens (datalen - tw) with ⟨w, p⟩
  obtain ⟨-, -, hlow, hhigh⟩ := fragLens_spec (by omega) e
  unfold Unchecked.writeFragment
  simp only [e]
  refine ⟨?_, by omega, by omega⟩
  have haddr := storeWord_within h (show addrPos + 4 ≤ mtuMax by omega) ((addr + tw) % 2 ^ 32)
  have hlen := storeWord_within haddr (show dataLenPos + 4 ≤ mtuMax by omega) w
  have hdata := hlen.memcpy (show 0 + w ≤ mtuMax by omega) buf tw
  have hpad := hdata.memset (show 0 + p ≤ mtuMax by omega) (0 : UInt8)
  have hsum := hpad.sumLoop (show dataHeaderLen + w + p ≤ mtuMax by omega) UInt8.toUInt32 0
  exact (storeWord_within hsum (by omega) _).read (by omega)

/-! ### The loop -/

/-- **The loop**, by induction on the results of `send`. -/
theorem writeLoop_within (h : wbuf.Within mtuMax) (rs : List SendResult) :
    (Unchecked.writeLoop buf addr datalen wbuf tw rs).1.Within mtuMax ∧
      ∀ n ∈ (Unchecked.writeLoop buf addr datalen wbuf tw rs).2, mtuMin ≤ n ∧ n ≤ mtuMax := by
  induction rs generalizing wbuf tw with
  | nil => exact ⟨h, fun n hn => absurd hn List.not_mem_nil⟩
  | cons r rs ih =>
      rw [Unchecked.writeLoop]
      split
      · rename_i htw
        obtain ⟨hfrag, hlen⟩ := writeFragment_within h htw
        obtain ⟨hrest, hlens⟩ := ih hfrag
        exact ⟨hrest, List.forall_mem_cons.mpr ⟨hlen, hlens⟩⟩
      · exact ⟨h, fun n hn => absurd hn List.not_mem_nil⟩

/-- **Every frame respects the MTU and the scratch buffer**, for any buffer of
the caller and any results of `send`. -/
theorem sends_within (wbuf buf : Block UInt8) (len : ℕ) (rs : List SendResult) :
    (∀ n ∈ (Unchecked.doWriteFpgaRam wbuf buf len rs).2, mtuMin ≤ n ∧ n ≤ mtuMax) ∧
      (∀ i ∈ (Unchecked.doWriteFpgaRam wbuf buf len rs).1.reads, i < mtuMax) ∧
      ∀ i ∈ (Unchecked.doWriteFpgaRam wbuf buf len rs).1.writes, i < mtuMax := by
  rw [Unchecked.doWriteFpgaRam]
  split
  · exact ⟨fun n hn => absurd hn List.not_mem_nil, below_nil mtuMax, below_nil mtuMax⟩
  · have hzero := (Logged.within_start wbuf mtuMax).memset (show 0 + mtuMax ≤ mtuMax by omega)
      (0 : UInt8)
    have hhead := hzero.memcpy (show 0 + linkHeaderLen ≤ mtuMax by decide) buf 0
    have hcmd := hhead.store (show cmdPos < mtuMax by decide) (buf.cell cmdPos)
    obtain ⟨hwbuf, hlens⟩ := writeLoop_within hcmd rs
    exact ⟨hlens, hwbuf.reads, hwbuf.writes⟩

end CodeSnippet
