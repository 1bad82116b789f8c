/-
CodeSnippet/FpgaSocket.lean

Writing to the FPGA over a raw socket (src/socket/fpga_socket): the loop of
`do_write_fpga_ram` that cuts a write into frames of at most `MTU_MAX` bytes.

The loop consumes the results of its calls of `send` from a list, one for each
call; it returns when it is through with the data, and has no return value yet
when the list is used up before.

Main results:
  * `writeLoop_terminates` — when every send transmits its whole frame, the
    loop returns after finitely many frames and stays inside `wbuf` and `buf`.
  * `fpgaWrite_never_preserves` — for every buffer the loop accepts or refuses,
    what is sent is not the write that the buffer asks for.
-/
import CodeSnippet.Block

namespace CodeSnippet

open Memory

/-! ### Layout -/

def mtuMax : ℕ := 2000
def mtuMin : ℕ := 64
def macLen : ℕ := 6
def linkHeaderLen : ℕ := 14
def linkTrailerLen : ℕ := 4
def cmdPos : ℕ := 14
def addrPos : ℕ := 15
def dataLenPos : ℕ := 19
def dataPos : ℕ := 23
def dataHeaderLen : ℕ := dataPos
def dataLenMax : ℕ := mtuMax - dataHeaderLen - linkTrailerLen
def dataLenMin : ℕ := mtuMin - dataHeaderLen - linkTrailerLen

def fpgaMac : List UInt8 := [0xEB, 0x90, 0xEB, 0x90, 0xEB, 0x90]

/-! ### The program -/

/-- What one call of `send` does with the frame it is given. -/
inductive SendResult
  | whole
  | failed
  deriving DecidableEq

/-- The value that the call leaves in `ret`, a `size_t` in `do_write_fpga_ram`:
a failed call leaves -1 there, which is not negative. -/
def SendResult.ret (r : SendResult) (frameLen : ℕ) : ℕ :=
  match r with
  | .whole => frameLen
  | .failed => 2 ^ 64 - 1

/-- The frames handed to `send`, and the return value once there is one. -/
structure Sent where
  frames : List (List UInt8)
  ret : Option ℤ
  deriving DecidableEq

/-- A `size_t` returned as `ssize_t`. -/
def toSsize (n : ℕ) : ℤ := if n < 2 ^ 63 then n else (n : ℤ) - 2 ^ 64

def caculateChksum (data : Block UInt8) (len : ℕ) : Option UInt32 :=
  data.sumLoop UInt8.toUInt32 len 0

/-- Four byte stores, the lowest byte of the word first. -/
def storeWord (b : Block UInt8) (pos w : ℕ) : Option (Block UInt8) := do
  let b ← b.store pos (UInt8.ofNat (w &&& 0xFF))
  let b ← b.store (pos + 1) (UInt8.ofNat ((w >>> 8) &&& 0xFF))
  let b ← b.store (pos + 2) (UInt8.ofNat ((w >>> 16) &&& 0xFF))
  b.store (pos + 3) (UInt8.ofNat ((w >>> 24) &&& 0xFF))

/-- Four byte loads. -/
def loadWord (b : Block UInt8) (pos : ℕ) : Option ℕ := do
  let b₀ ← b.load pos
  let b₁ ← b.load (pos + 1)
  let b₂ ← b.load (pos + 2)
  let b₃ ← b.load (pos + 3)
  return leWord b₀ b₁ b₂ b₃

/-- `wlen` and `padlen` for what is left of the data. -/
def fragLens (left : ℕ) : ℕ × ℕ :=
  if left ≥ dataLenMax then (dataLenMax, 0)
  else if left ≤ dataLenMin then (left, dataLenMin - left)
  else (left, 0)

/-- The body of the loop up to `send`: the scratch buffer afterwards and the
frame. -/
def writeFragment (wbuf buf : Block UInt8) (addr datalen totalwrite : ℕ) :
    Option (Block UInt8 × List UInt8) := do
  let (wlen, padlen) := fragLens (datalen - totalwrite)
  let waddr := (addr + totalwrite) % 2 ^ 32
  let wbuf ← storeWord wbuf addrPos waddr
  let wbuf ← storeWord wbuf dataLenPos wlen
  -- both start at `wbuf`, not at `wbuf + DATA_POS`
  let wbuf ← wbuf.memcpy 0 buf totalwrite wlen
  let wbuf ← wbuf.memset 0 0 padlen
  let chksum ← caculateChksum wbuf (dataHeaderLen + wlen + padlen)
  -- the sum goes to `DATA_LEN_POS + ...`, four bytes before the trailer
  let wbuf ← storeWord wbuf (dataLenPos + wlen + padlen) chksum.toNat
  let frame ← wbuf.read 0 (dataHeaderLen + wlen + padlen + linkTrailerLen)
  return (wbuf, frame)

/-- `while (datalen > totalwrite)`, one send result for each iteration. -/
def writeLoop (buf : Block UInt8) (addr datalen : ℕ) :
    Block UInt8 → ℕ → List SendResult → Option Sent
  | _, totalwrite, [] =>
      if datalen > totalwrite then some ⟨[], none⟩ else some ⟨[], some (toSsize totalwrite)⟩
  | wbuf, totalwrite, r :: rs =>
      if datalen > totalwrite then do
        let (wbuf, frame) ← writeFragment wbuf buf addr datalen totalwrite
        let sent ← writeLoop buf addr datalen wbuf
          ((totalwrite + r.ret frame.length) % 2 ^ 64) rs
        return { sent with frames := frame :: sent.frames }
      else some ⟨[], some (toSsize totalwrite)⟩

/-- `wbuf` is a static array: it holds whatever the last call left there. -/
def doWriteFpgaRam (wbuf : { b : Block UInt8 // b.size = mtuMax }) (buf : Block UInt8) (len : ℕ)
    (rs : List SendResult) : Option Sent := do
  let addr ← loadWord buf addrPos
  let datalen ← loadWord buf dataLenPos
  if len ≠ (datalen + dataHeaderLen + linkTrailerLen) % 2 ^ 32 then
    return ⟨[], some (-1)⟩
  let wbuf ← wbuf.1.memset 0 0 mtuMax
  let wbuf ← wbuf.memcpy 0 buf 0 linkHeaderLen
  let cmd ← buf.load cmdPos
  let wbuf ← wbuf.store cmdPos cmd
  writeLoop buf addr datalen wbuf 0 rs

def fpgaWrite (wbuf : { b : Block UInt8 // b.size = mtuMax }) (buf : Block UInt8) (len : ℕ)
    (rs : List SendResult) : Option Sent := do
  let mac ← buf.read 0 macLen
  if mac = fpgaMac then
    doWriteFpgaRam wbuf buf len rs
  else if len > mtuMax ∨ len < mtuMin then
    return ⟨[], some (-1)⟩
  else
    let frame ← buf.read 0 len
    match rs with
    | [] => return ⟨[], none⟩
    | .whole :: _ => return ⟨[frame], some len⟩
    | .failed :: _ => return ⟨[frame], some (-1)⟩

/-! ### Reading a frame with the documented layout -/

/-- The little-endian word at position `pos` of a frame. -/
def wordAt (f : List UInt8) (pos : ℕ) : ℕ :=
  leWord (f.getD pos 0) (f.getD (pos + 1) 0) (f.getD (pos + 2) 0) (f.getD (pos + 3) 0)

/-- The data bytes, as many as the length field says. -/
def frameData (f : List UInt8) : List UInt8 :=
  (f.drop dataPos).take (wordAt f dataLenPos)

/-- The writes that a frame asks for: each data byte with its address. -/
def frameStores (f : List UInt8) : List (ℕ × UInt8) :=
  (frameData f).mapIdx fun i v => ((wordAt f addrPos + i) % 2 ^ 32, v)

/-- The frames carry out the write of the input: each has its link header and
its command and ends with the sum of its bytes, and their data bytes go to
where the data bytes of the input belong, each exactly once. -/
structure Preserves (input : List UInt8) (frames : List (List UInt8)) : Prop where
  header : ∀ f ∈ frames, f.take linkHeaderLen = input.take linkHeaderLen ∧
    f.getD cmdPos 0 = input.getD cmdPos 0
  trailer : ∀ f ∈ frames, dataHeaderLen + linkTrailerLen ≤ f.length ∧
    wordAt f (f.length - linkTrailerLen) =
      ((f.take (f.length - linkTrailerLen)).map UInt8.toNat).sum % 2 ^ 32
  stores : List.Perm (frames.flatMap frameStores) (frameStores input)

/-! ### Words -/

/-- The block after the four stores. -/
def setWord (b : Block UInt8) (pos w : ℕ) : Block UInt8 :=
  (((b.set pos (UInt8.ofNat (w &&& 0xFF))).set (pos + 1)
    (UInt8.ofNat ((w >>> 8) &&& 0xFF))).set (pos + 2)
    (UInt8.ofNat ((w >>> 16) &&& 0xFF))).set (pos + 3) (UInt8.ofNat ((w >>> 24) &&& 0xFF))

@[simp] theorem setWord_size (b : Block UInt8) (pos w : ℕ) : (setWord b pos w).size = b.size := rfl

theorem setWord_cell_of_lt {b : Block UInt8} {pos w j : ℕ} (h : j < pos) :
    (setWord b pos w).cell j = b.cell j := by
  simp only [setWord, Block.set_cell]
  rw [if_neg (by omega), if_neg (by omega), if_neg (by omega), if_neg (by omega)]

theorem setWord_cell_of_ge {b : Block UInt8} {pos w j : ℕ} (h : pos + 4 ≤ j) :
    (setWord b pos w).cell j = b.cell j := by
  simp only [setWord, Block.set_cell]
  rw [if_neg (by omega), if_neg (by omega), if_neg (by omega), if_neg (by omega)]

theorem storeWord_eq {b : Block UInt8} {pos : ℕ} (h : pos + 4 ≤ b.size) (w : ℕ) :
    storeWord b pos w = some (setWord b pos w) := by
  unfold storeWord setWord
  rw [Block.store_eq (by omega)]
  simp only [Option.bind_eq_bind, Option.bind_some]
  rw [Block.store_eq (by rw [Block.set_size]; omega)]
  simp only [Option.bind_some]
  rw [Block.store_eq (by rw [Block.set_size, Block.set_size]; omega)]
  simp only [Option.bind_some]
  rw [Block.store_eq (by rw [Block.set_size, Block.set_size, Block.set_size]; omega)]

theorem cells_getD {b : Block UInt8} {n i : ℕ} (h : i < n) : (b.cells 0 n).getD i 0 = b.cell i := by
  have hi := Block.cell_eq_getD (show b.cells 0 _ = _ from rfl) h 0
  rw [Nat.zero_add] at hi
  exact hi.symm

theorem wordAt_cells {b : Block UInt8} {n pos : ℕ} (h : pos + 4 ≤ n) :
    wordAt (b.cells 0 n) pos =
      leWord (b.cell pos) (b.cell (pos + 1)) (b.cell (pos + 2)) (b.cell (pos + 3)) := by
  unfold wordAt
  rw [cells_getD (by omega), cells_getD (by omega), cells_getD (by omega), cells_getD (by omega)]

theorem loadWord_eq {b : Block UInt8} {pos : ℕ} (h : pos + 4 ≤ b.size) :
    loadWord b pos = some (wordAt (b.cells 0 b.size) pos) := by
  unfold loadWord
  rw [wordAt_cells h, Block.load_eq (by omega), Block.load_eq (by omega),
    Block.load_eq (by omega), Block.load_eq (by omega)]
  rfl

theorem caculateChksum_eq {b : Block UInt8} {n : ℕ} (h : n ≤ b.size) :
    caculateChksum b n = some ((b.cells 0 n).map UInt8.toUInt32).sum := by
  rw [caculateChksum, Block.sumLoop_eq UInt8.toUInt32 h, zero_add]

/-! ### One fragment -/

/-- What the two lengths of a fragment are bounded by. -/
theorem fragLens_spec {left w p : ℕ} (hleft : 1 ≤ left) (e : fragLens left = (w, p)) :
    1 ≤ w ∧ w ≤ left ∧ 37 ≤ w + p ∧ w + p ≤ 1973 := by
  have hmax : dataLenMax = 1973 := rfl
  have hmin : dataLenMin = 37 := rfl
  unfold fragLens at e
  rw [hmax, hmin] at e
  split at e
  · cases e
    omega
  · split at e <;> (cases e; omega)

/-- A fragment stays inside both buffers.  Afterwards the padding and the data
lie at the start of `wbuf`, and nothing was written from the trailer on. -/
theorem writeFragment_spec {wbuf buf : Block UInt8} (addr : ℕ) {datalen tw w p : ℕ}
    (hwbuf : wbuf.size = mtuMax) (htw : tw < datalen) (hbuf : datalen ≤ buf.size)
    (e : fragLens (datalen - tw) = (w, p)) :
    ∃ wbuf', writeFragment wbuf buf addr datalen tw = some (wbuf', wbuf'.cells 0 (23 + w + p + 4)) ∧
      wbuf'.size = mtuMax ∧ (∀ j < p, wbuf'.cell j = 0) ∧
      (∀ j, p ≤ j → j < w → wbuf'.cell j = buf.cell (tw + j)) ∧
      ∀ j, 23 + w + p ≤ j → wbuf'.cell j = wbuf.cell j := by
  obtain ⟨hw, hleft, hlow, hhigh⟩ := fragLens_spec (by omega) e
  have hsize : wbuf.size = 2000 := hwbuf
  -- the buffer before the checksum is stored
  let b := ((setWord (setWord wbuf addrPos ((addr + tw) % 2 ^ 32)) dataLenPos w).copyIn 0 buf tw w
    ).fillIn 0 0 p
  have hb : b.size = wbuf.size := rfl
  obtain ⟨cks, hcks⟩ : ∃ cks, caculateChksum b (dataHeaderLen + w + p) = some cks := by
    refine ⟨_, caculateChksum_eq ?_⟩
    rw [hb, hsize, show dataHeaderLen = 23 from rfl]
    omega
  refine ⟨setWord b (dataLenPos + w + p) cks.toNat, ?_, hb.trans hwbuf, ?_, ?_, ?_⟩
  · unfold writeFragment
    simp only [e]
    rw [storeWord_eq (by rw [hsize]; decide)]
    simp only [Option.bind_eq_bind, Option.bind_some]
    rw [storeWord_eq (by rw [setWord_size, hsize]; decide)]
    simp only [Option.bind_some]
    rw [Block.memcpy_eq (by rw [setWord_size, setWord_size, hsize]; omega) (by omega)]
    simp only [Option.bind_some]
    rw [Block.memset_eq (by rw [Block.copyIn_size, setWord_size, setWord_size, hsize]; omega)]
    simp only [Option.bind_some]
    have hcks' := hcks
    simp only [b] at hcks'
    rw [hcks']
    simp only [Option.bind_some]
    have h19 : dataLenPos = 19 := rfl
    have h23 : dataHeaderLen = 23 := rfl
    have h4 : linkTrailerLen = 4 := rfl
    rw [storeWord_eq (by
      rw [Block.fillIn_size, Block.copyIn_size, setWord_size, setWord_size, hsize]; omega)]
    simp only [Option.bind_some]
    rw [Block.read_eq (by
      rw [setWord_size, Block.fillIn_size, Block.copyIn_size, setWord_size, setWord_size, hsize]
      omega)]
    rfl
  · intro j hj
    have h19 : dataLenPos = 19 := rfl
    rw [setWord_cell_of_lt (by omega), Block.fillIn_cell, if_pos (by omega)]
  · intro j hpj hjw
    have h19 : dataLenPos = 19 := rfl
    rw [setWord_cell_of_lt (by omega), Block.fillIn_cell, if_neg (by omega), Block.copyIn_cell,
      if_pos (by omega), Nat.sub_zero]
  · intro j hj
    have h15 : addrPos = 15 := rfl
    have h19 : dataLenPos = 19 := rfl
    rw [setWord_cell_of_ge (by omega), Block.fillIn_cell, if_neg (by omega), Block.copyIn_cell,
      if_neg (by omega), setWord_cell_of_ge (by omega), setWord_cell_of_ge (by omega)]

/-! ### The loop -/

/-- **The loop returns** when every send transmits its whole frame: each frame
has at least `MTU_MIN` bytes, all of which are counted. -/
theorem writeLoop_terminates {buf wbuf : Block UInt8} {addr datalen tw n : ℕ}
    (hwbuf : wbuf.size = mtuMax) (hbuf : datalen ≤ buf.size) (hlt : datalen < 2 ^ 32)
    (hn : datalen ≤ tw + 64 * n) :
    ∃ frames ret, writeLoop buf addr datalen wbuf tw (List.replicate n .whole)
      = some ⟨frames, some ret⟩ := by
  induction n generalizing wbuf tw with
  | zero => exact ⟨[], _, if_neg (by omega)⟩
  | succ n ih =>
      rw [List.replicate_succ]
      unfold writeLoop
      by_cases htw : datalen > tw
      · rw [if_pos htw]
        rcases e : fragLens (datalen - tw) with ⟨w, p⟩
        obtain ⟨hw, hleft, hlow, hhigh⟩ := fragLens_spec (by omega) e
        obtain ⟨wbuf', hfrag, hsize, -⟩ := writeFragment_spec addr hwbuf htw hbuf e
        obtain ⟨frames, ret, hrest⟩ := ih hsize
          (show datalen ≤ (tw + (23 + w + p + 4)) % 2 ^ 64 + 64 * n by omega)
        refine ⟨wbuf'.cells 0 (23 + w + p + 4) :: frames, ret, ?_⟩
        rw [hfrag]
        simp only [Option.bind_eq_bind, Option.bind_some, SendResult.ret, Block.cells_length, hrest]
        rfl
      · rw [if_neg htw]
        exact ⟨[], _, rfl⟩

/-- A loop that is entered and returns has sent the frame of its first
iteration. -/
theorem writeLoop_head {buf wbuf : Block UInt8} {addr datalen tw : ℕ} {rs : List SendResult}
    {frames : List (List UInt8)} {ret : ℤ} (htw : tw < datalen)
    (h : writeLoop buf addr datalen wbuf tw rs = some ⟨frames, some ret⟩) :
    ∃ wbuf' f, writeFragment wbuf buf addr datalen tw = some (wbuf', f) ∧ f ∈ frames := by
  cases rs with
  | nil =>
      rw [writeLoop, if_pos htw] at h
      cases h
  | cons r rs =>
      rw [writeLoop, if_pos htw] at h
      obtain ⟨⟨wbuf', f⟩, hfrag, h⟩ := Option.bind_eq_some_iff.mp h
      obtain ⟨sent, -, hsent⟩ := Option.bind_eq_some_iff.mp h
      obtain ⟨rfl, -⟩ := Sent.mk.inj (Option.some.inj hsent)
      exact ⟨wbuf', f, hfrag, List.mem_cons_self ..⟩

/-! ### What is sent is not the write -/

/-- The input asks for as many stores as its length field says. -/
theorem frameStores_length {input : List UInt8}
    (hlen : input.length = wordAt input dataLenPos + dataHeaderLen + linkTrailerLen) :
    (frameStores input).length = wordAt input dataLenPos := by
  have h23 : dataHeaderLen = dataPos := rfl
  rw [frameStores, List.length_mapIdx, frameData, List.length_take, List.length_drop]
  omega

/-- The byte sum of a short range is that of the trailer, and no less than its
first byte. -/
theorem cell_le_sum_cells (b : Block UInt8) {n : ℕ} (hpos : 0 < n) (hn : n ≤ 2000) :
    (b.cell 0).toNat ≤ ((b.cells 0 n).map UInt8.toNat).sum % 2 ^ 32 := by
  have hmem : (b.cell 0).toNat ∈ (b.cells 0 n).map UInt8.toNat := by
    apply List.mem_map_of_mem
    rw [← cells_getD hpos, List.getD_eq_getElem _ _ (by rw [Block.cells_length]; exact hpos)]
    exact List.getElem_mem _
  have hle : (b.cell 0).toNat ≤ ((b.cells 0 n).map UInt8.toNat).sum :=
    List.single_le_sum (fun _ _ => Nat.zero_le _) _ hmem
  have hsum : ((b.cells 0 n).map UInt8.toNat).sum ≤ n * 255 := by
    have hcard := List.sum_le_card_nsmul ((b.cells 0 n).map UInt8.toNat) 255 (by
      intro x hx
      obtain ⟨v, -, rfl⟩ := List.mem_map.mp hx
      have := v.toNat_lt
      omega)
    rwa [List.length_map, Block.cells_length, smul_eq_mul] at hcard
  rw [Nat.mod_eq_of_lt (by omega)]
  exact hle

/-- The first frame of a write: either its first byte is padding, or its
trailer is zero while its byte sum is not. -/
theorem not_preserves_of_first {wbuf wbuf' buf : Block UInt8} {addr datalen : ℕ}
    {f : List UInt8} {frames : List (List UInt8)} (hwbuf : wbuf.size = mtuMax)
    (hzero : ∀ j, dataPos ≤ j → j < mtuMax → wbuf.cell j = 0) (hpos : 0 < datalen)
    (hbuf : datalen + 27 ≤ buf.size) (hmac : buf.cell 0 = 0xEB)
    (hfrag : writeFragment wbuf buf addr datalen 0 = some (wbuf', f)) (hf : f ∈ frames) :
    ¬ Preserves (buf.cells 0 buf.size) frames := by
  intro h
  have h23 : dataPos = 23 := rfl
  have h14 : linkHeaderLen = 14 := rfl
  have hmtu : mtuMax = 2000 := rfl
  rcases e : fragLens (datalen - 0) with ⟨w, p⟩
  obtain ⟨hw, hleft, hlow, hhigh⟩ := fragLens_spec (by omega) e
  obtain ⟨b, hb, hsize, hpad, hdata, htail⟩ :=
    writeFragment_spec addr hwbuf hpos (show datalen ≤ buf.size by omega) e
  obtain ⟨rfl, rfl⟩ := Prod.mk.inj (Option.some.inj (hb.symm.trans hfrag))
  rcases Nat.eq_zero_or_pos p with rfl | hp
  · -- the trailer of this frame was never written
    have htrailer := (h.trailer _ hf).2
    rw [Block.cells_length, show 23 + w + 0 + 4 - linkTrailerLen = 23 + w from rfl,
      Block.cells_take _ _ (by omega), wordAt_cells (by omega), htail _ (by omega),
      htail _ (by omega), htail _ (by omega), htail _ (by omega), hzero _ (by omega) (by omega),
      hzero _ (by omega) (by omega), hzero _ (by omega) (by omega),
      hzero _ (by omega) (by omega)] at htrailer
    have hle := cell_le_sum_cells b (show 0 < 23 + w by omega) (by omega)
    rw [← htrailer, hdata 0 (by omega) (by omega), Nat.zero_add, hmac] at hle
    exact absurd hle (by decide)
  · -- the padding has overwritten the first byte of the link header
    have hhead := (h.header _ hf).1
    rw [h14, Block.cells_take _ _ (by omega), Block.cells_take _ _ (by omega)] at hhead
    have hcell := Block.cell_eq_of_cells_eq hhead (show 0 < 14 by omega)
    rw [Nat.zero_add, hpad 0 hp, hmac] at hcell
    exact absurd hcell (by decide)

/-- A buffer that asks the FPGA for a write of at least one byte. -/
structure FpgaWrite (buf : Block UInt8) : Prop where
  mac : buf.cells 0 macLen = fpgaMac
  len : buf.size = wordAt (buf.cells 0 buf.size) dataLenPos + dataHeaderLen + linkTrailerLen
  pos : 1 ≤ wordAt (buf.cells 0 buf.size) dataLenPos

theorem FpgaWrite.cell_zero {buf : Block UInt8} (h : FpgaWrite buf) : buf.cell 0 = 0xEB := by
  have hcell := Block.cell_eq_getD h.mac (show 0 < macLen by decide) 0
  exact hcell

theorem wordAt_lt (f : List UInt8) (pos : ℕ) : wordAt f pos < 2 ^ 32 := leWord_lt ..

/-- What the call does with a buffer whose length is right: it refuses a length
that the 32-bit sum wraps around, else it enters the loop with the data area of
`wbuf` zero. -/
theorem fpgaWrite_run {buf : Block UInt8} (hmac : buf.cells 0 macLen = fpgaMac)
    (hlen : buf.size = wordAt (buf.cells 0 buf.size) dataLenPos + dataHeaderLen + linkTrailerLen)
    (wbuf : { b : Block UInt8 // b.size = mtuMax }) :
    if buf.size < 2 ^ 32 then
      ∃ w : Block UInt8, w.size = mtuMax ∧ (∀ j, dataPos ≤ j → j < mtuMax → w.cell j = 0) ∧
        ∀ rs, fpgaWrite wbuf buf buf.size rs =
          writeLoop buf (wordAt (buf.cells 0 buf.size) addrPos)
            (wordAt (buf.cells 0 buf.size) dataLenPos) w 0 rs
    else ∀ rs, fpgaWrite wbuf buf buf.size rs = some ⟨[], some (-1)⟩ := by
  have h15 : addrPos = 15 := rfl
  have h19 : dataLenPos = 19 := rfl
  have h23 : dataHeaderLen = 23 := rfl
  have h4 : linkTrailerLen = 4 := rfl
  have hw : wbuf.1.size = 2000 := wbuf.2
  -- the part before the check
  have hstart : ∀ rs, fpgaWrite wbuf buf buf.size rs = doWriteFpgaRam wbuf buf buf.size rs := by
    intro rs
    unfold fpgaWrite
    rw [Block.read_eq (by rw [show macLen = 6 from rfl]; omega)]
    simp only [Option.bind_eq_bind, Option.bind_some, hmac, if_true]
  split
  · rename_i hfits
    have hcheck : buf.size = buf.size % 2 ^ 32 := (Nat.mod_eq_of_lt hfits).symm
    refine ⟨((wbuf.1.fillIn 0 0 mtuMax).copyIn 0 buf 0 linkHeaderLen).set cmdPos
      (buf.cell cmdPos), wbuf.2, ?_, fun rs => ?_⟩
    · intro j hj hmtu
      have hj' : 23 ≤ j := hj
      rw [Block.set_cell, if_neg (by rw [show cmdPos = 14 from rfl]; omega), Block.copyIn_cell,
        if_neg (by rw [show linkHeaderLen = 14 from rfl]; omega), Block.fillIn_cell,
        if_pos (by omega)]
    · rw [hstart, doWriteFpgaRam, loadWord_eq (by omega), loadWord_eq (by omega)]
      simp only [Option.bind_eq_bind, Option.bind_some]
      rw [← hlen, if_neg (not_not_intro hcheck),
        Block.memset_eq (by rw [wbuf.2, Nat.zero_add])]
      simp only [Option.bind_some]
      rw [Block.memcpy_eq (by rw [Block.fillIn_size, hw]; decide)
        (by rw [show linkHeaderLen = 14 from rfl]; omega)]
      simp only [Option.bind_some]
      rw [Block.load_eq (by rw [show cmdPos = 14 from rfl]; omega)]
      simp only [Option.bind_some]
      rw [Block.store_eq (by rw [Block.copyIn_size, Block.fillIn_size, hw]; decide),
        Option.bind_some]
  · rename_i hwraps
    have hcheck : buf.size ≠ buf.size % 2 ^ 32 := by omega
    intro rs
    rw [hstart, doWriteFpgaRam, loadWord_eq (by omega), loadWord_eq (by omega)]
    simp only [Option.bind_eq_bind, Option.bind_some]
    rw [← hlen, if_pos hcheck]
    rfl

theorem FpgaWrite.run {buf : Block UInt8} (h : FpgaWrite buf)
    (wbuf : { b : Block UInt8 // b.size = mtuMax }) (rs : List SendResult) :
    fpgaWrite wbuf buf buf.size rs = some ⟨[], some (-1)⟩ ∨
    ∃ w : Block UInt8, w.size = mtuMax ∧ (∀ j, dataPos ≤ j → j < mtuMax → w.cell j = 0) ∧
      fpgaWrite wbuf buf buf.size rs =
        writeLoop buf (wordAt (buf.cells 0 buf.size) addrPos)
          (wordAt (buf.cells 0 buf.size) dataLenPos) w 0 rs := by
  have hrun := fpgaWrite_run h.mac h.len wbuf
  split at hrun
  · obtain ⟨w, hw, hzero, hloop⟩ := hrun
    exact .inr ⟨w, hw, hzero, hloop rs⟩
  · exact .inl (hrun rs)

/-- Sending whole frames makes the call return. -/
theorem FpgaWrite.returns {buf : Block UInt8} (h : FpgaWrite buf)
    (wbuf : { b : Block UInt8 // b.size = mtuMax }) :
    ∃ n frames ret, fpgaWrite wbuf buf buf.size (List.replicate n .whole)
      = some ⟨frames, some ret⟩ := by
  have hlen := h.len
  have hlt := wordAt_lt (buf.cells 0 buf.size) dataLenPos
  set datalen := wordAt (buf.cells 0 buf.size) dataLenPos
  rcases h.run wbuf (List.replicate datalen .whole) with hrefuse | ⟨w, hw, -, hrun⟩
  · exact ⟨datalen, [], -1, hrefuse⟩
  · obtain ⟨frames, ret, hloop⟩ := writeLoop_terminates hw (show datalen ≤ buf.size by omega) hlt
      (show datalen ≤ 0 + 64 * datalen by omega)
    exact ⟨datalen, frames, ret, hrun.trans hloop⟩

/-- The frames of a call that has returned are not the write. -/
theorem FpgaWrite.not_preserves {buf : Block UInt8} (h : FpgaWrite buf)
    {wbuf : { b : Block UInt8 // b.size = mtuMax }} {rs : List SendResult}
    {frames : List (List UInt8)} {ret : ℤ}
    (hsent : fpgaWrite wbuf buf buf.size rs = some ⟨frames, some ret⟩) :
    ¬ Preserves (buf.cells 0 buf.size) frames := by
  have hlen := h.len
  have h23 : dataHeaderLen = 23 := rfl
  have h4 : linkTrailerLen = 4 := rfl
  rcases h.run wbuf rs with hrefuse | ⟨w, hw, hzero, hrun⟩
  · -- refused: not one byte is stored
    obtain ⟨rfl, -⟩ := Sent.mk.inj (Option.some.inj (hrefuse.symm.trans hsent))
    intro hpres
    have hcount := hpres.stores.length_eq
    have hpos := h.pos
    rw [frameStores_length (by rw [Block.cells_length]; exact hlen)] at hcount
    rw [← hcount] at hpos
    exact absurd hpos (by decide)
  · obtain ⟨wbuf', f, hfrag, hf⟩ := writeLoop_head h.pos (hrun.symm.trans hsent)
    exact not_preserves_of_first hw hzero h.pos (by omega) h.cell_zero hfrag hf

/-- **What is sent is never the write that was asked for.**  For every buffer
that asks for a write, sending whole frames makes the call return, and the
frames it has sent by then do not carry out the write. -/
theorem fpgaWrite_never_preserves (wbuf : { b : Block UInt8 // b.size = mtuMax })
    (buf : Block UInt8) (h : FpgaWrite buf) :
    (∃ n frames ret, fpgaWrite wbuf buf buf.size (List.replicate n .whole)
      = some ⟨frames, some ret⟩) ∧
    ∀ n frames ret, fpgaWrite wbuf buf buf.size (List.replicate n .whole)
      = some ⟨frames, some ret⟩ → ¬ Preserves (buf.cells 0 buf.size) frames :=
  ⟨h.returns wbuf, fun _ _ _ => h.not_preserves⟩

/-- A request to write the byte AA to address 0. -/
def oneByteWrite : Block UInt8 :=
  ⟨28, fun i => (fpgaMac ++ List.replicate 13 0 ++ [1, 0, 0, 0, 0xAA]).getD i 0⟩

theorem oneByteWrite_fpgaWrite : FpgaWrite oneByteWrite :=
  ⟨by decide, by decide, by decide⟩

theorem fpgaWrite_never_preserves_oneByteWrite :
    (∃ n frames ret, fpgaWrite ⟨⟨mtuMax, fun _ => 0⟩, rfl⟩ oneByteWrite oneByteWrite.size
      (List.replicate n .whole) = some ⟨frames, some ret⟩) ∧
    ∀ n frames ret, fpgaWrite ⟨⟨mtuMax, fun _ => 0⟩, rfl⟩ oneByteWrite oneByteWrite.size
      (List.replicate n .whole) = some ⟨frames, some ret⟩ →
        ¬ Preserves (oneByteWrite.cells 0 oneByteWrite.size) frames :=
  fpgaWrite_never_preserves ⟨⟨mtuMax, fun _ => 0⟩, rfl⟩ oneByteWrite
    ⟨by decide, by decide, by decide⟩

/-- The write of one byte goes out as something else. -/
theorem not_preserves_oneByteWrite :
    FpgaWrite oneByteWrite ∧ ∃ n frames ret,
      fpgaWrite ⟨⟨mtuMax, fun _ => 0⟩, rfl⟩ oneByteWrite oneByteWrite.size
        (List.replicate n .whole) = some ⟨frames, some ret⟩ ∧
      ¬ Preserves (oneByteWrite.cells 0 oneByteWrite.size) frames := by
  obtain ⟨n, frames, ret, hsent⟩ :=
    oneByteWrite_fpgaWrite.returns ⟨⟨mtuMax, fun _ => 0⟩, rfl⟩
  exact ⟨oneByteWrite_fpgaWrite, n, frames, ret, hsent, oneByteWrite_fpgaWrite.not_preserves hsent⟩

end CodeSnippet
