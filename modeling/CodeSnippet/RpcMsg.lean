/-
CodeSnippet/RpcMsg.lean

The wire format of the RPC demo (rpc_intf/intf): the message structure, the
byte checksum, and the two functions that turn a message into a frame and back.

A frame is

    | cmd:7 rqrs:1 | data_len (2 bytes, low byte first) | data | checksum |

and its bytes sum to 0.  `rpcMsgSerialize` writes it into a static buffer of
`rpcBufferSize` bytes, `rpcMsgDeserialize` reads it from one.  Both go through
checked block accesses, so `none` means that C would have left the buffer.

Main results:

* `roundTrips_iff` — deserializing what was serialized gives the message back
  exactly when `data_len` fits one byte: the high length byte is shifted the
  wrong way when it is written;
* `acceptsOnlyWhole_iff` — the receiver takes only whole frames exactly when a
  zero byte sum already means a right length: it never looks at the length.
-/
import CodeSnippet.Block

namespace CodeSnippet

open Memory

/-! ### The message -/

/-- `RPC_BUFFER_SIZE`, the size of both static buffers. -/
def rpcBufferSize : ℕ := 512

def eOk : ℤ := 0
def eSend : ℤ := -3
def eRecv : ℤ := -4
def eChecksum : ℤ := -5

def rqrsRequest : BitVec 1 := 0
def rqrsResponse : BitVec 1 := 1

/-- `rpc_msg_t`.  The pointer `data` is the block it points to. -/
structure RpcMsg where
  cmd : BitVec 7
  rqrs : BitVec 1
  dataLen : UInt16
  data : Block UInt8

/-- The payload of a message: its first `data_len` data bytes. -/
def RpcMsg.payload (msg : RpcMsg) : List UInt8 :=
  msg.data.cells 0 msg.dataLen.toNat

/-- `calculate_checksum`: the sum of the first `len` bytes, modulo 256. -/
def calculateChecksum (buf : Block UInt8) (len : ℕ) : Option UInt8 :=
  buf.sumLoop id len 0

/-- `rpc_msg_serialize`: the buffer afterwards and the length of the frame. -/
def rpcMsgSerialize (buf : Block UInt8) (msg : RpcMsg) : Option (Block UInt8 × ℕ) := do
  let buf ← buf.store 0 (UInt8.ofNat ((msg.cmd.toNat <<< 1) ||| msg.rqrs.toNat))
  let buf ← buf.store 1 (UInt8.ofNat (msg.dataLen.toNat &&& 0xFF))
  -- the shift goes left where the receiver expects the high byte
  let buf ← buf.store 2 (UInt8.ofNat ((msg.dataLen.toNat <<< 8) &&& 0xFF))
  let bufLen := 3
  let buf ← buf.memcpy 3 msg.data 0 msg.dataLen.toNat
  let bufLen := bufLen + msg.dataLen.toNat
  let cks ← calculateChecksum buf bufLen
  let buf ← buf.store bufLen (0 - cks)
  return (buf, bufLen + 1)

/-- `rpc_msg_deserialize`: the return code and the message afterwards. -/
def rpcMsgDeserialize (msg : RpcMsg) (buf : Block UInt8) (bufLen : ℕ) :
    Option (ℤ × RpcMsg) := do
  let cks ← calculateChecksum buf bufLen
  if cks ≠ 0 then
    return (eChecksum, msg)
  let b₀ ← buf.load 0
  let b₁ ← buf.load 1
  let b₂ ← buf.load 2
  let dataLen := UInt16.ofNat ((b₂.toNat <<< 8) ||| b₁.toNat)
  let data ← msg.data.memcpy 0 buf 3 dataLen.toNat
  return (eOk, { cmd := BitVec.ofNat 7 (b₀.toNat >>> 1)
                 rqrs := BitVec.ofNat 1 (b₀.toNat &&& 0x01)
                 dataLen := dataLen
                 data := data })

/-! ### The header byte and the length bytes -/

/-- What the first byte of a frame holds. -/
def headByte (cmd : BitVec 7) (rqrs : BitVec 1) : UInt8 :=
  UInt8.ofNat ((cmd.toNat <<< 1) ||| rqrs.toNat)

theorem headByte_toNat (cmd : BitVec 7) (rqrs : BitVec 1) :
    (headByte cmd rqrs).toNat = 2 * cmd.toNat + rqrs.toNat := by
  have hc := cmd.isLt
  have hr := rqrs.isLt
  have hor : (cmd.toNat <<< 1) ||| rqrs.toNat = 2 * cmd.toNat + rqrs.toNat := by
    rw [← Nat.shiftLeft_add_eq_or_of_lt (by omega), Nat.shiftLeft_eq]
    omega
  rw [headByte, hor, UInt8.toNat_ofNat', Nat.mod_eq_of_lt (by omega)]

theorem headByte_cmd (cmd : BitVec 7) (rqrs : BitVec 1) :
    BitVec.ofNat 7 ((headByte cmd rqrs).toNat >>> 1) = cmd := by
  have hr := rqrs.isLt
  rw [headByte_toNat, Nat.shiftRight_eq_div_pow,
    show (2 * cmd.toNat + rqrs.toNat) / 2 ^ 1 = cmd.toNat by omega, BitVec.ofNat_toNat,
    BitVec.setWidth_eq]

theorem headByte_rqrs (cmd : BitVec 7) (rqrs : BitVec 1) :
    BitVec.ofNat 1 ((headByte cmd rqrs).toNat &&& 0x01) = rqrs := by
  have hr := rqrs.isLt
  rw [headByte_toNat, Nat.and_one_is_mod,
    show (2 * cmd.toNat + rqrs.toNat) % 2 = rqrs.toNat by omega, BitVec.ofNat_toNat,
    BitVec.setWidth_eq]

/-- The length that the two length bytes of a frame declare. -/
def declaredLen (b₁ b₂ : UInt8) : ℕ := b₁.toNat + 256 * b₂.toNat

theorem declaredLen_lt (b₁ b₂ : UInt8) : declaredLen b₁ b₂ < 65536 := by
  have h₁ := b₁.toNat_lt
  have h₂ := b₂.toNat_lt
  unfold declaredLen
  omega

theorem ofNat_declaredLen (b₁ b₂ : UInt8) :
    (UInt16.ofNat ((b₂.toNat <<< 8) ||| b₁.toNat)).toNat = declaredLen b₁ b₂ := by
  have h₁ := b₁.toNat_lt
  have hlt := declaredLen_lt b₁ b₂
  have hor : (b₂.toNat <<< 8) ||| b₁.toNat = declaredLen b₁ b₂ := by
    rw [← Nat.shiftLeft_add_eq_or_of_lt (by omega), Nat.shiftLeft_eq, declaredLen]
    omega
  rw [hor, UInt16.toNat_ofNat', Nat.mod_eq_of_lt hlt]

/-- The byte written as low length byte. -/
theorem lowLenByte_toNat (n : ℕ) : (UInt8.ofNat (n &&& 0xFF)).toNat = n % 256 := by
  rw [show (0xFF : ℕ) = 2 ^ 8 - 1 by rfl, Nat.and_two_pow_sub_one_eq_mod, UInt8.toNat_ofNat']
  omega

/-- The byte written as high length byte is 0 for every length. -/
theorem highLenByte_eq_zero (n : ℕ) : UInt8.ofNat ((n <<< 8) &&& 0xFF) = 0 := by
  rw [show (0xFF : ℕ) = 2 ^ 8 - 1 by rfl, Nat.and_two_pow_sub_one_eq_mod, Nat.shiftLeft_eq,
    Nat.mul_mod_left]
  rfl

/-! ### One specification for each function -/

theorem calculateChecksum_eq {buf : Block UInt8} {len : ℕ} (h : len ≤ buf.size) :
    calculateChecksum buf len = some (buf.cells 0 len).sum := by
  rw [calculateChecksum, Block.sumLoop_eq id h]
  simp

/-- The bytes of a frame before its checksum, as the serializer writes them. -/
def RpcMsg.body (msg : RpcMsg) : List UInt8 :=
  headByte msg.cmd msg.rqrs :: UInt8.ofNat (msg.dataLen.toNat &&& 0xFF) :: 0 :: msg.payload

/-- The frame the serializer writes. -/
def RpcMsg.frame (msg : RpcMsg) : List UInt8 :=
  msg.body ++ [0 - msg.body.sum]

@[simp] theorem RpcMsg.payload_length (msg : RpcMsg) :
    msg.payload.length = msg.dataLen.toNat := by
  simp [RpcMsg.payload]

@[simp] theorem RpcMsg.frame_length (msg : RpcMsg) :
    msg.frame.length = msg.dataLen.toNat + 4 := by
  simp [RpcMsg.frame, RpcMsg.body]

/-- Every frame sums to 0. -/
theorem RpcMsg.frame_sum (msg : RpcMsg) : msg.frame.sum = 0 := by
  rw [RpcMsg.frame, List.sum_append, List.sum_singleton]
  grind

/-- When the frame fits, the serializer writes `msg.frame` at the start of its
buffer. -/
theorem rpcMsgSerialize_eq (buf : Block UInt8) {msg : RpcMsg}
    (hfit : msg.dataLen.toNat + 4 ≤ buf.size) (hdata : msg.dataLen.toNat ≤ msg.data.size) :
    ∃ buf', rpcMsgSerialize buf msg = some (buf', msg.dataLen.toNat + 4) ∧
      buf'.size = buf.size ∧ buf'.cells 0 (msg.dataLen.toNat + 4) = msg.frame := by
  set n := msg.dataLen.toNat with hn
  -- the buffer after the header and the payload
  let b := ((((buf.set 0 (headByte msg.cmd msg.rqrs)).set 1 (UInt8.ofNat (n &&& 0xFF))).set 2
    (UInt8.ofNat ((n <<< 8) &&& 0xFF))).copyIn 3 msg.data 0 n)
  have hbody : b.cells 0 (3 + n) = msg.body := by
    rw [Block.cells_add, RpcMsg.body, ← highLenByte_eq_zero n]
    have hhead : b.cells 0 3 = [headByte msg.cmd msg.rqrs, UInt8.ofNat (n &&& 0xFF),
        UInt8.ofNat ((n <<< 8) &&& 0xFF)] := by
      simp [b, Block.cells, List.range_succ]
    have htail : b.cells (0 + 3) n = msg.payload := Block.copyIn_cells ..
    rw [hhead, htail]
    rfl
  have hcks : calculateChecksum b (3 + n) = some msg.body.sum := by
    rw [calculateChecksum_eq (by simp [b]; omega), hbody]
  refine ⟨b.set (3 + n) (0 - msg.body.sum), ?_, rfl, ?_⟩
  · unfold rpcMsgSerialize
    rw [Block.store_eq (by omega)]
    simp only [Option.bind_eq_bind, Option.bind_some]
    rw [Block.store_eq (by simp; omega)]
    simp only [Option.bind_some]
    rw [Block.store_eq (by simp; omega)]
    simp only [Option.bind_some]
    rw [Block.memcpy_eq (by simp; omega) (by omega)]
    simp only [Option.bind_some]
    have hcks' := hcks
    simp only [b, headByte] at hcks'
    rw [← hn, hcks']
    simp only [Option.bind_some]
    rw [Block.store_eq (by simp; omega)]
    simp [b, headByte, show 3 + n + 1 = n + 4 by omega]
  · rw [show n + 4 = (3 + n) + 1 by omega, Block.cells_succ, RpcMsg.frame]
    congr 1
    · rw [← hbody]
      apply Block.cells_congr
      intro k hk
      simp only [Block.set_cell]
      rw [if_neg (by omega)]
    · simp

/-- The serializer stays inside its buffer only for frames that fit. -/
theorem rpcMsgSerialize_fits {buf buf' : Block UInt8} {msg : RpcMsg} {len : ℕ}
    (h : rpcMsgSerialize buf msg = some (buf', len)) :
    msg.dataLen.toNat + 4 ≤ buf.size ∧ msg.dataLen.toNat ≤ msg.data.size := by
  simp only [rpcMsgSerialize, Option.bind_eq_bind, Option.bind_eq_some_iff,
    Block.store_eq_some_iff, Block.memcpy_eq_some_iff] at h
  obtain ⟨b₁, ⟨-, rfl⟩, b₂, ⟨-, rfl⟩, b₃, ⟨-, rfl⟩, b₄, ⟨⟨-, hdata⟩, rfl⟩, cks, -,
    b₅, ⟨hlast, -⟩, -⟩ := h
  simp only [Block.copyIn_size, Block.set_size] at hlast
  omega

theorem rpcMsgSerialize_size {buf buf' : Block UInt8} {msg : RpcMsg} {len : ℕ}
    (h : rpcMsgSerialize buf msg = some (buf', len)) : buf'.size = buf.size := by
  obtain ⟨hfit, hdata⟩ := rpcMsgSerialize_fits h
  obtain ⟨b, hb, hsize, -⟩ := rpcMsgSerialize_eq buf hfit hdata
  obtain ⟨rfl, -⟩ : b = buf' ∧ _ = len := by simpa using hb.symm.trans h
  exact hsize

/-- A byte sum other than 0 is all it takes to be refused. -/
theorem rpcMsgDeserialize_reject (msg : RpcMsg) {buf : Block UInt8} {len : ℕ}
    (hlen : len ≤ buf.size) (hsum : (buf.cells 0 len).sum ≠ 0) :
    rpcMsgDeserialize msg buf len = some (eChecksum, msg) := by
  simp [rpcMsgDeserialize, calculateChecksum_eq hlen, hsum]

/-- With a byte sum of 0 the header is read from the first three bytes of the
buffer, and as many payload bytes are copied as it declares. -/
theorem rpcMsgDeserialize_accept (msg : RpcMsg) {buf : Block UInt8} {len : ℕ}
    (hlen : len ≤ buf.size) (hsize : 3 ≤ buf.size) (hsum : (buf.cells 0 len).sum = 0) :
    rpcMsgDeserialize msg buf len =
      (msg.data.memcpy 0 buf 3 (declaredLen (buf.cell 1) (buf.cell 2))).map fun data =>
        (eOk, { cmd := BitVec.ofNat 7 ((buf.cell 0).toNat >>> 1)
                rqrs := BitVec.ofNat 1 ((buf.cell 0).toNat &&& 0x01)
                dataLen := UInt16.ofNat (((buf.cell 2).toNat <<< 8) ||| (buf.cell 1).toNat)
                data := data }) := by
  unfold rpcMsgDeserialize
  simp only [calculateChecksum_eq hlen, hsum, Option.bind_eq_bind, Option.bind_some, ne_eq,
    not_true_eq_false, if_false, Block.load_eq (show 0 < buf.size by omega),
    Block.load_eq (show 1 < buf.size by omega), Block.load_eq (show 2 < buf.size by omega),
    ofNat_declaredLen]
  cases msg.data.memcpy 0 buf 3 (declaredLen (buf.cell 1) (buf.cell 2)) <;> rfl

/-- The same, when the declared payload lies inside both blocks. -/
theorem rpcMsgDeserialize_payload (msg : RpcMsg) {buf : Block UInt8} {len n : ℕ}
    (hlen : len ≤ buf.size) (hsum : (buf.cells 0 len).sum = 0)
    (hn : declaredLen (buf.cell 1) (buf.cell 2) = n) (hbuf : 3 + n ≤ buf.size)
    (hdata : n ≤ msg.data.size) :
    ∃ msg', rpcMsgDeserialize msg buf len = some (eOk, msg') ∧
      msg'.cmd = BitVec.ofNat 7 ((buf.cell 0).toNat >>> 1) ∧
      msg'.rqrs = BitVec.ofNat 1 ((buf.cell 0).toNat &&& 0x01) ∧
      msg'.dataLen.toNat = n ∧ msg'.payload = buf.cells 3 n := by
  have hofNat := (ofNat_declaredLen (buf.cell 1) (buf.cell 2)).trans hn
  rw [rpcMsgDeserialize_accept msg hlen (by omega) hsum, hn,
    Block.memcpy_eq (by omega) hbuf, Option.map_some]
  refine ⟨_, rfl, rfl, rfl, hofNat, ?_⟩
  rw [RpcMsg.payload, hofNat]
  exact Block.copyIn_cells ..

/-! ### Round trip -/

/-- Serializing `msg` and deserializing the bytes that were produced, in any
receive buffer that starts with them, gives the message back. -/
def RoundTrips (msg : RpcMsg) : Prop :=
  ∀ buf : Block UInt8, buf.size = rpcBufferSize →
    ∃ buf' len, rpcMsgSerialize buf msg = some (buf', len) ∧
      ∀ (rbuf : Block UInt8) (rx : RpcMsg), rbuf.size = rpcBufferSize →
        rbuf.cells 0 len = buf'.cells 0 len → msg.dataLen.toNat ≤ rx.data.size →
        ∃ rx', rpcMsgDeserialize rx rbuf len = some (eOk, rx') ∧
          rx'.cmd = msg.cmd ∧ rx'.rqrs = msg.rqrs ∧
          rx'.dataLen = msg.dataLen ∧ rx'.payload = msg.payload

/-- A buffer that starts with `msg.frame` has the header cells of `msg`. -/
theorem RpcMsg.frame_cells {msg : RpcMsg} {buf : Block UInt8}
    (h : buf.cells 0 (msg.dataLen.toNat + 4) = msg.frame) :
    buf.cell 0 = headByte msg.cmd msg.rqrs ∧
      declaredLen (buf.cell 1) (buf.cell 2) = msg.dataLen.toNat % 256 ∧
      buf.cells 3 msg.dataLen.toNat = msg.payload := by
  have hsplit : buf.cells 0 3 ++ buf.cells 3 msg.dataLen.toNat
      ++ [buf.cell (3 + msg.dataLen.toNat)] = msg.frame := by
    rw [← h, show msg.dataLen.toNat + 4 = 3 + (msg.dataLen.toNat + 1) by omega,
      Block.cells_add buf 0 3, Nat.zero_add, Block.cells_succ buf 3, List.append_assoc]
  have hbody := (List.append_inj' hsplit rfl).1
  rw [RpcMsg.body, show headByte msg.cmd msg.rqrs :: UInt8.ofNat (msg.dataLen.toNat &&& 0xFF) ::
    0 :: msg.payload = [headByte msg.cmd msg.rqrs, UInt8.ofNat (msg.dataLen.toNat &&& 0xFF), 0]
      ++ msg.payload from rfl] at hbody
  obtain ⟨hhead, hpay⟩ := List.append_inj hbody (by simp)
  simp only [Block.cells, List.range_succ, List.range_zero, List.nil_append, List.cons_append,
    List.map_cons, List.map_nil, Nat.zero_add, List.cons.injEq] at hhead
  obtain ⟨h₀, h₁, h₂, -⟩ := hhead
  refine ⟨h₀, ?_, hpay⟩
  rw [h₁, h₂, declaredLen, lowLenByte_toNat]
  simp

/-- A message that survives the trip has a one-byte length. -/
theorem dataLen_lt_of_roundTrips {msg : RpcMsg} (hfit : msg.dataLen.toNat + 4 ≤ rpcBufferSize)
    (hdata : msg.dataLen.toNat ≤ msg.data.size) (h : RoundTrips msg) :
    msg.dataLen.toNat < 256 := by
  obtain ⟨buf', hser, hsize, hframe⟩ :=
    rpcMsgSerialize_eq ⟨rpcBufferSize, fun _ => 0⟩ hfit hdata
  have hsize : buf'.size = rpcBufferSize := hsize
  obtain ⟨b, len, hser', hback⟩ := h ⟨rpcBufferSize, fun _ => 0⟩ rfl
  obtain ⟨rfl, rfl⟩ : buf' = b ∧ msg.dataLen.toNat + 4 = len := by
    simpa using hser.symm.trans hser'
  have hsum : (buf'.cells 0 (msg.dataLen.toNat + 4)).sum = 0 := by
    rw [hframe, RpcMsg.frame_sum]
  obtain ⟨-, hlen, -⟩ := RpcMsg.frame_cells hframe
  obtain ⟨rx', hde, -, -, hrx, -⟩ := hback buf' msg hsize rfl hdata
  obtain ⟨rx₂, hde₂, -, -, hrx₂, -⟩ := rpcMsgDeserialize_payload msg
    (show msg.dataLen.toNat + 4 ≤ buf'.size by omega) hsum hlen (by omega) (by omega)
  have hsame : rx' = rx₂ := by simpa using hde.symm.trans hde₂
  rw [← hsame, hrx] at hrx₂
  omega

/-- **Round trip.**  For every message whose frame fits the buffer, the two
codec functions are inverse to each other exactly when `data_len` is below
256. -/
theorem roundTrips_iff (msg : RpcMsg) (hfit : msg.dataLen.toNat + 4 ≤ rpcBufferSize)
    (hdata : msg.dataLen.toNat ≤ msg.data.size) :
    RoundTrips msg ↔ msg.dataLen.toNat < 256 := by
  refine ⟨dataLen_lt_of_roundTrips hfit hdata, fun hlt buf hbuf => ?_⟩
  obtain ⟨buf', hser, -, hframe⟩ := rpcMsgSerialize_eq buf (by omega) hdata
  refine ⟨buf', _, hser, fun rbuf rx hrbuf hsame hrx => ?_⟩
  have hrframe := hsame.trans hframe
  obtain ⟨h₀, hlen, hpay⟩ := RpcMsg.frame_cells hrframe
  rw [Nat.mod_eq_of_lt hlt] at hlen
  obtain ⟨rx', hde, hcmd, hrqrs, hdl, hpay'⟩ := rpcMsgDeserialize_payload rx
    (show msg.dataLen.toNat + 4 ≤ rbuf.size by omega) (by rw [hrframe, RpcMsg.frame_sum]) hlen
    (by omega) hrx
  refine ⟨rx', hde, ?_, ?_, UInt16.toNat_inj.mp hdl, hpay'.trans hpay⟩
  · rw [hcmd, h₀, headByte_cmd]
  · rw [hrqrs, h₀, headByte_rqrs]

/-- The message with 256 zero bytes, the shortest that is not received. -/
def msg256 : RpcMsg := ⟨0, 0, 256, ⟨256, fun _ => 0⟩⟩

theorem roundTrips_iff_four :
    RoundTrips ⟨0x0F, 1, 4, ⟨4, fun i => UInt8.ofNat i⟩⟩ ↔ (4 : UInt16).toNat < 256 :=
  roundTrips_iff ⟨0x0F, 1, 4, ⟨4, fun i => UInt8.ofNat i⟩⟩ (by decide) (by decide)

theorem not_roundTrips_msg256 :
    msg256.dataLen.toNat + 4 ≤ rpcBufferSize ∧ msg256.dataLen.toNat ≤ msg256.data.size ∧
      ¬ RoundTrips msg256 := by
  refine ⟨by decide, by decide, fun h => ?_⟩
  exact absurd (dataLen_lt_of_roundTrips (by decide) (by decide) h) (by decide)

/-! ### Whole frames -/

/-- A datagram that is one whole frame: at least the header and the checksum,
of the length it declares, and with a byte sum of 0. -/
def WholeFrame (d : List UInt8) : Prop :=
  4 ≤ d.length ∧ declaredLen (d.getD 1 0) (d.getD 2 0) + 4 = d.length ∧ d.sum = 0

/-- Whatever lies behind the datagram in the receive buffer, deserializing it
is defined, answers `E_OK` only for a whole frame, and then decodes the same
message from every other buffer that starts with the datagram. -/
def AcceptsOnlyWhole (d : List UInt8) : Prop :=
  ∀ (buf : Block UInt8) (msg : RpcMsg), buf.size = rpcBufferSize →
    buf.cells 0 d.length = d → 65535 ≤ msg.data.size →
    ∃ ret msg', rpcMsgDeserialize msg buf d.length = some (ret, msg') ∧
      (ret = eOk → WholeFrame d ∧
        ∀ buf₂ : Block UInt8, buf₂.size = rpcBufferSize → buf₂.cells 0 d.length = d →
          ∃ msg₂, rpcMsgDeserialize msg buf₂ d.length = some (eOk, msg₂) ∧
            msg₂.cmd = msg'.cmd ∧ msg₂.rqrs = msg'.rqrs ∧
            msg₂.dataLen = msg'.dataLen ∧ msg₂.payload = msg'.payload)

/-- The length fields agree: at least four bytes, and the length in bytes 1
and 2 is the rest of the datagram. -/
def LengthMatches (d : List UInt8) : Prop :=
  4 ≤ d.length ∧ declaredLen (d.getD 1 0) (d.getD 2 0) + 4 = d.length

/-- Receiving the datagram into an otherwise empty buffer. -/
def freshBuffer (d : List UInt8) : Block UInt8 :=
  (⟨rpcBufferSize, fun _ => 0⟩ : Block UInt8).overlay d

/-- If only whole frames are accepted, a zero sum is not all there is to the
datagram. -/
theorem lengthMatches_of_acceptsOnlyWhole {d : List UInt8} (hd : d.length ≤ rpcBufferSize)
    (h : AcceptsOnlyWhole d) (hsum : d.sum = 0) : LengthMatches d := by
  have hcells : (freshBuffer d).cells 0 d.length = d := Block.overlay_cells ..
  obtain ⟨ret, msg', hde, hok⟩ :=
    h (freshBuffer d) ⟨0, 0, 0, ⟨65535, fun _ => 0⟩⟩ rfl hcells le_rfl
  -- with a zero sum the only defined outcome is `E_OK`
  rw [rpcMsgDeserialize_accept _ hd (show 3 ≤ rpcBufferSize by decide) (by rw [hcells, hsum])] at hde
  obtain ⟨data, -, hret⟩ := Option.map_eq_some_iff.mp hde
  obtain ⟨rfl, -⟩ := Prod.mk.inj hret
  obtain ⟨⟨h4, hlen, -⟩, -⟩ := hok rfl
  exact ⟨h4, hlen⟩

/-- **Frames are accepted exactly when complete**, for the datagrams whose zero
byte sum does not come with a wrong length; for all others the property
fails. -/
theorem acceptsOnlyWhole_iff (d : List UInt8) (hd : d.length ≤ rpcBufferSize) :
    AcceptsOnlyWhole d ↔ (d.sum = 0 → LengthMatches d) := by
  refine ⟨lengthMatches_of_acceptsOnlyWhole hd, fun h buf msg hbuf hcells hdata => ?_⟩
  have hlen : d.length ≤ buf.size := by omega
  by_cases hsum : d.sum = 0
  · obtain ⟨h4, hdecl⟩ := h hsum
    have hcell : ∀ b : Block UInt8, b.cells 0 d.length = d → ∀ i, i < d.length →
        b.cell i = d.getD i 0 := by
      intro b hb i hi
      simpa using Block.cell_eq_getD hb hi 0
    -- both buffers decode to what the datagram itself says
    have hrun : ∀ b : Block UInt8, b.size = rpcBufferSize → b.cells 0 d.length = d →
        ∃ msg', rpcMsgDeserialize msg b d.length = some (eOk, msg') ∧
          msg'.cmd = BitVec.ofNat 7 ((d.getD 0 0).toNat >>> 1) ∧
          msg'.rqrs = BitVec.ofNat 1 ((d.getD 0 0).toNat &&& 0x01) ∧
          msg'.dataLen.toNat = d.length - 4 ∧ msg'.payload = b.cells 3 (d.length - 4) := by
      intro b hb hbc
      have hB : rpcBufferSize = 512 := rfl
      rw [← hcell b hbc 0 (by omega)]
      refine rpcMsgDeserialize_payload msg (by omega) (by rw [hbc, hsum]) ?_ (by omega) (by omega)
      rw [hcell b hbc 1 (by omega), hcell b hbc 2 (by omega)]
      omega
    obtain ⟨msg', hde, hcmd, hrqrs, hdl, hpay⟩ := hrun buf hbuf hcells
    refine ⟨eOk, msg', hde, fun _ => ⟨⟨h4, hdecl, hsum⟩, fun buf₂ hbuf₂ hcells₂ => ?_⟩⟩
    obtain ⟨msg₂, hde₂, hcmd₂, hrqrs₂, hdl₂, hpay₂⟩ := hrun buf₂ hbuf₂ hcells₂
    refine ⟨msg₂, hde₂, hcmd₂.trans hcmd.symm, hrqrs₂.trans hrqrs.symm,
      UInt16.toNat_inj.mp (hdl₂.trans hdl.symm), ?_⟩
    rw [hpay, hpay₂]
    apply Block.cells_congr
    intro k hk
    rw [hcell buf₂ hcells₂ (3 + k) (by omega), hcell buf hcells (3 + k) (by omega)]
  · refine ⟨eChecksum, msg, rpcMsgDeserialize_reject msg hlen (by rwa [hcells]), fun hret => ?_⟩
    exact absurd hret (by decide)

theorem acceptsOnlyWhole_iff_login :
    AcceptsOnlyWhole [0, 0, 0, 0] ↔
      (([0, 0, 0, 0] : List UInt8).sum = 0 → LengthMatches [0, 0, 0, 0]) :=
  acceptsOnlyWhole_iff [0, 0, 0, 0] (by decide)

/-- The empty datagram is accepted: the sum of no bytes is 0. -/
theorem not_acceptsOnlyWhole_nil : ¬ AcceptsOnlyWhole [] := by
  intro h
  have hlen := lengthMatches_of_acceptsOnlyWhole (by decide) h rfl
  exact absurd hlen.1 (by decide)

end CodeSnippet
