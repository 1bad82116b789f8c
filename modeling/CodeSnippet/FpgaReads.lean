/-
CodeSnippet/FpgaReads.lean

Which bytes of the caller's buffer `fpga_write` of src/socket/fpga_socket reads.
The address and the length field are read before the length is looked at, and
the sum that it is compared with has 32 bits: a length field near 2^32 passes for
a buffer that has hardly a header.

The function stands here as the machine runs it, with a log of its reads of
`buf`, for any values that the calls of `send` return.

Main results:
  * `Reading.fpgaWrite_within` — where the checked function is defined, all reads
    are inside.
  * `readsInside_iff` — the buffers for which they are.
-/
import CodeSnippet.FpgaBounds

namespace CodeSnippet

open Memory

/-! ### The reads -/

namespace Reading

/-- Four byte loads. -/
def loadWord (buf : Logged UInt8) (pos : ℕ) : ℕ × Logged UInt8 :=
  let (b₀, buf) := buf.load pos
  let (b₁, buf) := buf.load (pos + 1)
  let (b₂, buf) := buf.load (pos + 2)
  let (b₃, buf) := buf.load (pos + 3)
  (leWord b₀ b₁ b₂ b₃, buf)

/-- `while (datalen > totalwrite)`; each call of `send` is given by the value that
it leaves in `ret`, for the length of its frame. -/
def writeLoop (datalen : ℕ) : Logged UInt8 → ℕ → List (ℕ → ℕ) → Logged UInt8
  | buf, _, [] => buf
  | buf, totalwrite, send :: sends =>
      if datalen > totalwrite then
        let (wlen, padlen) := fragLens (datalen - totalwrite)
        let (_, buf) := buf.readAt totalwrite wlen
        let ret := send (dataHeaderLen + wlen + padlen + linkTrailerLen)
        writeLoop datalen buf ((totalwrite + ret) % 2 ^ 64) sends
      else buf

/-- The buffer and the length field, if it has passed the check. -/
def doWriteFpgaRam (buf : Logged UInt8) (len : ℕ) (sends : List (ℕ → ℕ)) :
    Logged UInt8 × Option ℕ :=
  let (_, buf) := loadWord buf addrPos
  let (datalen, buf) := loadWord buf dataLenPos
  if len ≠ (datalen + dataHeaderLen + linkTrailerLen) % 2 ^ 32 then (buf, none)
  else
    let (_, buf) := buf.readAt 0 linkHeaderLen
    let (_, buf) := buf.load cmdPos
    (writeLoop datalen buf 0 sends, some datalen)

/-- `memcmp` is given all bytes of the address. -/
def fpgaWrite (buf : Logged UInt8) (len : ℕ) (sends : List (ℕ → ℕ)) :
    Logged UInt8 × Option ℕ :=
  let (mac, buf) := buf.readAt 0 macLen
  if mac = fpgaMac then doWriteFpgaRam buf len sends
  else if len > mtuMax ∨ len < mtuMin then (buf, none)
  else
    let (_, buf) := buf.readAt 0 len
    (buf, none)

/-! ### Staying below a bound -/

variable {buf : Logged UInt8} {m : ℕ}

/-- The buffer when the length field has been read. -/
def wordsRead (buf : Block UInt8) : Logged UInt8 :=
  (loadWord (loadWord ((Logged.start buf).readAt 0 macLen).2 addrPos).2 dataLenPos).2

theorem wordsRead_reads (buf : Block UInt8) :
    (wordsRead buf).reads = List.range' 0 macLen ++ List.range' addrPos 8 := rfl

/-- The buffer in front of the loop. -/
def headerCopied (buf : Block UInt8) : Logged UInt8 :=
  (((wordsRead buf).readAt 0 linkHeaderLen).2.load cmdPos).2

theorem macLen_le {buf : Block UInt8} (h : Below m ((Logged.start buf).readAt 0 macLen).2.reads) :
    macLen ≤ m := by
  have hrange : Below m (List.range' 0 macLen) := h
  rcases below_range'.mp hrange with hzero | hle
  · exact absurd hzero (by decide)
  · rwa [Nat.zero_add] at hle

theorem dataPos_le {buf : Block UInt8} (h : Below m (wordsRead buf).reads) : dataPos ≤ m := by
  rw [wordsRead_reads] at h
  rcases below_range'.mp (below_append.mp h).2 with hzero | hle
  · exact absurd hzero (by decide)
  · exact hle

theorem fpgaWrite_of_mac {buf : Block UInt8} (h : buf.cells 0 macLen = fpgaMac) (len : ℕ)
    (sends : List (ℕ → ℕ)) : fpgaWrite (.start buf) len sends =
      let datalen := Unchecked.loadWord buf dataLenPos
      if len ≠ (datalen + dataHeaderLen + linkTrailerLen) % 2 ^ 32 then (wordsRead buf, none)
      else (writeLoop datalen (headerCopied buf) 0 sends, some datalen) :=
  if_pos h

theorem fpgaWrite_of_ne {buf : Block UInt8} (h : buf.cells 0 macLen ≠ fpgaMac) (len : ℕ)
    (sends : List (ℕ → ℕ)) : fpgaWrite (.start buf) len sends =
      let compared := ((Logged.start buf).readAt 0 macLen).2
      if len > mtuMax ∨ len < mtuMin then (compared, none)
      else ((compared.readAt 0 len).2, none) :=
  if_neg h

theorem loadWord_within (h : buf.Within m) {pos : ℕ} (hpos : pos + 4 ≤ m) :
    (loadWord buf pos).2.Within m := by
  have h₀ := h.load (show pos < m by omega)
  have h₁ := h₀.load (show pos + 1 < m by omega)
  have h₂ := h₁.load (show pos + 2 < m by omega)
  exact h₂.load (show pos + 3 < m by omega)

theorem compared_within (buf : Block UInt8) (h : macLen ≤ m) :
    ((Logged.start buf).readAt 0 macLen).2.Within m :=
  (Logged.within_start buf m).readAt (by rwa [Nat.zero_add])

theorem wordsRead_within {buf : Block UInt8} (h : dataPos ≤ m) : (wordsRead buf).Within m := by
  have hmac := compared_within buf (le_trans (show macLen ≤ dataPos by decide) h)
  exact loadWord_within (loadWord_within hmac (le_trans (show addrPos + 4 ≤ dataPos by decide) h))
    (show dataLenPos + 4 ≤ m from h)

theorem headerCopied_within {buf : Block UInt8} (h : dataPos ≤ m) : (headerCopied buf).Within m :=
  ((wordsRead_within h).readAt (le_trans (show 0 + linkHeaderLen ≤ dataPos by decide) h)).load
    (lt_of_lt_of_le (show cmdPos < dataPos by decide) h)

/-- **The loop**, by induction on the calls of `send`: it reads no data but that
of the length field. -/
theorem writeLoop_within {datalen : ℕ} (hdata : datalen ≤ m) (sends : List (ℕ → ℕ))
    (h : buf.Within m) (totalwrite : ℕ) : (writeLoop datalen buf totalwrite sends).Within m := by
  induction sends generalizing buf totalwrite with
  | nil => exact h
  | cons send sends ih =>
      rw [writeLoop]
      split
      · rename_i htw
        rcases e : fragLens (datalen - totalwrite) with ⟨w, p⟩
        obtain ⟨-, hleft, -, -⟩ := fragLens_spec (by omega) e
        exact ih (h.readAt (show totalwrite + w ≤ m by omega)) _
      · exact h

/-! ### The checked functions -/

/-- What a fragment that is sent was copied from. -/
theorem writeFragment_reads {wbuf buf b : Block UInt8} {addr datalen tw : ℕ} {frame : List UInt8}
    (h : writeFragment wbuf buf addr datalen tw = some (b, frame)) :
    tw + (fragLens (datalen - tw)).1 ≤ buf.size ∧ frame.length =
      dataHeaderLen + (fragLens (datalen - tw)).1 + (fragLens (datalen - tw)).2 +
        linkTrailerLen := by
  simp only [writeFragment, Option.bind_eq_bind, Option.bind_eq_some_iff] at h
  obtain ⟨b₁, -, b₂, -, b₃, hcopy, b₄, -, cks, -, b₆, -, l, hread, hret⟩ := h
  obtain ⟨rfl, rfl⟩ := Prod.mk.inj (Option.some.inj hret)
  obtain ⟨⟨-, hdata⟩, -⟩ := Block.memcpy_eq_some_iff.mp hcopy
  obtain ⟨-, rfl⟩ := Block.read_eq_some_iff.mp hread
  exact ⟨hdata, Block.cells_length ..⟩

/-- The loop, by induction on the results of `send`. -/
theorem writeLoop_checked {buf : Logged UInt8} {b wbuf : Block UInt8} (h : buf.Within b.size)
    {addr datalen tw : ℕ} {rs : List SendResult} {sent : Sent}
    (hs : CodeSnippet.writeLoop b addr datalen wbuf tw rs = some sent) :
    (writeLoop datalen buf tw (rs.map SendResult.ret)).Within b.size := by
  induction rs generalizing buf wbuf tw sent with
  | nil => exact h
  | cons r rs ih =>
      rw [CodeSnippet.writeLoop] at hs
      rw [List.map_cons, writeLoop]
      split at hs
      · rename_i htw
        obtain ⟨⟨wbuf', frame⟩, hfrag, hs⟩ := Option.bind_eq_some_iff.mp hs
        obtain ⟨rest, hrest, -⟩ := Option.bind_eq_some_iff.mp hs
        obtain ⟨hdata, hlength⟩ := writeFragment_reads hfrag
        rw [hlength] at hrest
        rw [if_pos htw]
        exact ih (h.readAt hdata) hrest
      · rename_i htw
        rw [if_neg htw]
        exact h

/-- Four checked loads. -/
theorem le_of_loadWord {b : Block UInt8} {pos w : ℕ}
    (h : CodeSnippet.loadWord b pos = some w) : pos + 4 ≤ b.size := by
  simp only [CodeSnippet.loadWord, Option.bind_eq_bind, Option.bind_eq_some_iff,
    Block.load_eq_some_iff] at h
  obtain ⟨-, -, -, -, -, -, -, ⟨hlast, -⟩, -⟩ := h
  omega

/-- **Where the checked function is defined**, all reads are inside the buffer. -/
theorem fpgaWrite_checked {wbuf : { b : Block UInt8 // b.size = mtuMax }} {buf : Block UInt8}
    {len : ℕ} {rs : List SendResult} {sent : Sent}
    (h : CodeSnippet.fpgaWrite wbuf buf len rs = some sent) :
    (fpgaWrite (.start buf) len (rs.map SendResult.ret)).1.Within buf.size := by
  rw [CodeSnippet.fpgaWrite] at h
  obtain ⟨mac, hmac, h⟩ := Option.bind_eq_some_iff.mp h
  obtain ⟨hread, rfl⟩ := Block.read_eq_some_iff.mp hmac
  rw [Nat.zero_add] at hread
  by_cases hfpga : buf.cells 0 macLen = fpgaMac
  · simp only [if_pos hfpga, CodeSnippet.doWriteFpgaRam, Option.bind_eq_bind,
      Option.bind_eq_some_iff] at h
    obtain ⟨addr, -, datalen, hdatalen, h⟩ := h
    have hm : dataPos ≤ buf.size := le_of_loadWord hdatalen
    rw [fpgaWrite_of_mac hfpga, loadWord_unchecked hdatalen]
    by_cases hcheck : len ≠ (datalen + dataHeaderLen + linkTrailerLen) % 2 ^ 32
    · simp only [if_pos hcheck]
      exact wordsRead_within hm
    · simp only [if_neg hcheck, Option.bind_eq_some_iff] at h ⊢
      obtain ⟨b₁, -, b₂, -, cmd, -, b₃, -, hloop⟩ := h
      exact writeLoop_checked (headerCopied_within hm) hloop
  · rw [if_neg hfpga] at h
    rw [fpgaWrite_of_ne hfpga]
    by_cases hlen : len > mtuMax ∨ len < mtuMin
    · simp only [if_pos hlen]
      exact compared_within buf hread
    · rw [if_neg hlen] at h
      simp only [if_neg hlen]
      obtain ⟨frame, hframe, -⟩ := Option.bind_eq_some_iff.mp h
      exact (compared_within buf hread).readAt (Block.read_eq_some_iff.mp hframe).1

end Reading

/-! ### Buffers -/

/-- Whatever the calls of `send` return, all bytes that are read are inside the
buffer, and a length field that passes the check leaves room for the header and
the trailer. -/
def ReadsInside (buf : Block UInt8) : Prop :=
  ∀ sends, (∀ i ∈ (Reading.fpgaWrite (.start buf) buf.size sends).1.reads, i < buf.size) ∧
    ∀ datalen, (Reading.fpgaWrite (.start buf) buf.size sends).2 = some datalen →
      (datalen : ℤ) ≤ (buf.size : ℤ) - 27

/-- A command for the FPGA: the header is read before its length is known. -/
theorem readsInside_of_mac {buf : Block UInt8} (hfpga : buf.cells 0 macLen = fpgaMac) :
    ReadsInside buf ↔
      dataPos ≤ buf.size ∧ Unchecked.loadWord buf dataLenPos + 27 ≠ buf.size + 2 ^ 32 := by
  have h23 : dataHeaderLen = 23 := rfl
  have h4 : linkTrailerLen = 4 := rfl
  have hword : Unchecked.loadWord buf dataLenPos < 2 ^ 32 := leWord_lt ..
  constructor
  · intro h
    obtain ⟨hreads, haccepts⟩ := h []
    rw [Reading.fpgaWrite_of_mac hfpga] at hreads haccepts
    by_cases hcheck : buf.size ≠
        (Unchecked.loadWord buf dataLenPos + dataHeaderLen + linkTrailerLen) % 2 ^ 32
    · simp only [if_pos hcheck] at hreads
      exact ⟨Reading.dataPos_le hreads, by omega⟩
    · simp only [if_neg hcheck] at hreads haccepts
      have hroom := haccepts _ rfl
      exact ⟨Reading.dataPos_le (below_append.mp (below_append.mp hreads).1).1, by omega⟩
  · rintro ⟨hhead, hwraps⟩ sends
    rw [Reading.fpgaWrite_of_mac hfpga]
    by_cases hcheck : buf.size ≠
        (Unchecked.loadWord buf dataLenPos + dataHeaderLen + linkTrailerLen) % 2 ^ 32
    · simp only [if_pos hcheck]
      exact ⟨(Reading.wordsRead_within hhead).reads, fun datalen h => by cases h⟩
    · simp only [if_neg hcheck]
      -- the check leaves room for the data, as the sum has not wrapped around
      have hdata : Unchecked.loadWord buf dataLenPos ≤ buf.size := by omega
      have hcopied := @Reading.headerCopied_within _ buf hhead
      refine ⟨(Reading.writeLoop_within hdata sends hcopied 0).reads, fun datalen h => ?_⟩
      obtain rfl := Option.some.inj h
      omega

/-- Anything else is sent as it is. -/
theorem readsInside_of_ne {buf : Block UInt8} (hfpga : ¬ buf.cells 0 macLen = fpgaMac) :
    ReadsInside buf ↔ macLen ≤ buf.size := by
  constructor
  · intro h
    obtain ⟨hreads, -⟩ := h []
    rw [Reading.fpgaWrite_of_ne hfpga] at hreads
    by_cases hlen : buf.size > mtuMax ∨ buf.size < mtuMin
    · simp only [if_pos hlen] at hreads
      exact Reading.macLen_le hreads
    · rw [not_or, not_lt, not_lt] at hlen
      exact le_trans (by decide) hlen.2
  · intro hmac sends
    rw [Reading.fpgaWrite_of_ne hfpga]
    by_cases hlen : buf.size > mtuMax ∨ buf.size < mtuMin
    · simp only [if_pos hlen]
      exact ⟨(Reading.compared_within buf hmac).reads, fun datalen h => by cases h⟩
    · simp only [if_neg hlen]
      have hsend := (Reading.compared_within buf hmac).readAt
        (show 0 + buf.size ≤ buf.size from (Nat.zero_add _).le)
      exact ⟨hsend.reads, fun datalen h => by cases h⟩

/-- **When all reads are inside the buffer**: it has a destination address, and
where that is the address of the FPGA it has a header, whose length field is not
the one that the 32-bit sum wraps around to the length of the buffer. -/
theorem readsInside_iff (buf : Block UInt8) :
    ReadsInside buf ↔ macLen ≤ buf.size ∧ (buf.cells 0 macLen = fpgaMac →
      dataPos ≤ buf.size ∧ Unchecked.loadWord buf dataLenPos + 27 ≠ buf.size + 2 ^ 32) := by
  by_cases hfpga : buf.cells 0 macLen = fpgaMac
  · rw [readsInside_of_mac hfpga]
    exact ⟨fun h => ⟨le_trans (by decide) h.1, fun _ => h⟩, fun h => h.2 hfpga⟩
  · rw [readsInside_of_ne hfpga]
    exact ⟨fun h => ⟨h, fun hmac => absurd hmac hfpga⟩, fun h => h.1⟩

/-- `len` is 26, and the length field makes the 32-bit sum wrap around to it. -/
def wrappingWrite : Block UInt8 :=
  ⟨26, fun i => (fpgaMac ++ List.replicate 13 0 ++ [0xFF, 0xFF, 0xFF, 0xFF]).getD i 0⟩

/-- A buffer that is shorter than the header, and a length field that wraps. -/
theorem not_readsInside : ¬ (∀ buf, ReadsInside buf) ∧
    (Reading.fpgaWrite (.start ⟨6, fun i => fpgaMac.getD i 0⟩) 6 []).1.reads =
      [0, 1, 2, 3, 4, 5, 15, 16, 17, 18, 19, 20, 21, 22] ∧
    (Reading.fpgaWrite (.start wrappingWrite) 26 []).2 = some (2 ^ 32 - 1) := by
  have hreads : (Reading.fpgaWrite (.start ⟨6, fun i => fpgaMac.getD i 0⟩) 6 []).1.reads =
      [0, 1, 2, 3, 4, 5, 15, 16, 17, 18, 19, 20, 21, 22] := by decide
  refine ⟨fun hevery => ?_, hreads, by decide⟩
  have hinside := (hevery ⟨6, fun i => fpgaMac.getD i 0⟩ []).1
  change ∀ i ∈ (Reading.fpgaWrite (.start ⟨6, fun i => fpgaMac.getD i 0⟩) 6 []).1.reads, i < 6
    at hinside
  rw [hreads] at hinside
  exact absurd hinside (by decide)

end CodeSnippet
