/-
CodeSnippet/RpcChecksum.lean

What the byte checksum of the RPC demo (rpc_intf/lib/utils.c) detects.

Main results:

* `passes_iff` — which strings of the length of an accepted one pass the test;
* `checksum_detects` — the sender's frames pass, changes are found as far as
  the sum shows them, and a refused frame leaves the message alone.
-/
import CodeSnippet.ByteSum
import CodeSnippet.RpcMsg

namespace CodeSnippet

open Memory Bytes

/-- The buffer starts with the bytes. -/
def Holds (buf : Block UInt8) (f : List UInt8) : Prop :=
  f.length ≤ buf.size ∧ buf.cells 0 f.length = f

/-- `rpc_msg_deserialize` takes the bytes, for some message and buffer. -/
def Accepted (f : List UInt8) : Prop :=
  ∃ buf msg msg', Holds buf f ∧ rpcMsgDeserialize msg buf f.length = some (eOk, msg')

/-- The checksum test of `rpc_msg_deserialize` on the bytes. -/
def Passes (f : List UInt8) : Prop :=
  ∀ buf, Holds buf f → calculateChecksum buf f.length = some 0

/-- `rpc_msg_deserialize` refuses the bytes, and does not touch the message. -/
def Refused (f : List UInt8) : Prop :=
  ∀ buf msg, Holds buf f → rpcMsgDeserialize msg buf f.length = some (eChecksum, msg)

/-- A buffer for any bytes. -/
theorem holds_overlay (f : List UInt8) :
    Holds ((⟨f.length, fun _ => 0⟩ : Block UInt8).overlay f) f :=
  ⟨le_rfl, Block.overlay_cells ..⟩

/-! ### The test -/

theorem Holds.checksum {buf : Block UInt8} {f : List UInt8} (h : Holds buf f) :
    calculateChecksum buf f.length = some f.sum := by
  rw [calculateChecksum_eq h.1, h.2]

/-- The test is about the sum of the bytes. -/
theorem passes_iff_sum (f : List UInt8) : Passes f ↔ f.sum = 0 := by
  constructor
  · intro h
    have hpass := h _ (holds_overlay f)
    rw [(holds_overlay f).checksum] at hpass
    exact Option.some.inj hpass
  · intro hsum buf hbuf
    rw [hbuf.checksum, hsum]

theorem Accepted.sum_eq {f : List UInt8} (h : Accepted f) : f.sum = 0 := by
  obtain ⟨buf, msg, msg', hbuf, hde⟩ := h
  by_contra hsum
  rw [rpcMsgDeserialize_reject msg hbuf.1 (by rw [hbuf.2]; exact hsum)] at hde
  obtain ⟨hret, -⟩ := Prod.mk.inj (Option.some.inj hde)
  exact absurd hret (by decide)

/-- Nothing but the sum decides, given the room for what the bytes declare. -/
theorem accepted_iff_sum (f : List UInt8) : Accepted f ↔ f.sum = 0 := by
  refine ⟨Accepted.sum_eq, fun hsum => ?_⟩
  let buf : Block UInt8 := (⟨f.length + 65538, fun _ => 0⟩ : Block UInt8).overlay f
  have hsize : buf.size = f.length + 65538 := rfl
  have hholds : Holds buf f := ⟨by omega, Block.overlay_cells ..⟩
  have hde := rpcMsgDeserialize_accept ⟨0, 0, 0, ⟨65535, fun _ => 0⟩⟩ hholds.1 (by omega)
    (by rw [hholds.2, hsum])
  have hdecl := declaredLen_lt (buf.cell 1) (buf.cell 2)
  have hroom : 0 + declaredLen (buf.cell 1) (buf.cell 2) ≤ 65535 := by omega
  rw [Block.memcpy_eq hroom (by omega), Option.map_some] at hde
  exact ⟨buf, _, _, hholds, hde⟩

/-- **Which changes pass**: those whose differences sum to a multiple of 256. -/
theorem passes_iff {f g : List UInt8} (hf : Accepted f) (hlen : g.length = f.length) :
    Passes g ↔ (differences f g).sum ≡ 0 [ZMOD 256] := by
  rw [passes_iff_sum, ← hf.sum_eq]
  exact sum_eq_iff hlen

theorem refused_of_sum {f : List UInt8} (h : f.sum ≠ 0) : Refused f :=
  fun _ msg hbuf => rpcMsgDeserialize_reject msg hbuf.1 (by rw [hbuf.2]; exact h)

/-- A change of one byte is found. -/
theorem refused_set {f : List UInt8} (hf : Accepted f) {i : ℕ} (hi : i < f.length) {v : UInt8}
    (hv : v ≠ f[i]) : Refused (f.set i v) := by
  apply refused_of_sum
  rw [← hf.sum_eq]
  exact sum_set_ne hi hv

/-! ### The error path -/

/-- The test comes before the first store. -/
theorem eq_of_eChecksum {buf : Block UInt8} {msg msg' : RpcMsg} {len : ℕ}
    (h : rpcMsgDeserialize msg buf len = some (eChecksum, msg')) : msg' = msg := by
  simp only [rpcMsgDeserialize, Option.bind_eq_bind] at h
  obtain ⟨cks, -, h⟩ := Option.bind_eq_some_iff.mp h
  split at h
  · exact (Prod.mk.inj (Option.some.inj h)).2.symm
  · -- from here on only `E_OK` is returned
    simp only [Option.bind_eq_some_iff] at h
    obtain ⟨b₀, -, b₁, -, b₂, -, data, -, hret⟩ := h
    obtain ⟨hcode, -⟩ := Prod.mk.inj (Option.some.inj hret)
    exact absurd hcode (by decide)

/-! ### Corruption is detected -/

/-- The frame that is sent sums to 0. -/
theorem serialize_sum {buf : Block UInt8} {msg : RpcMsg} (hfit : msg.dataLen.toNat + 4 ≤ buf.size)
    (hdata : msg.dataLen.toNat ≤ msg.data.size) :
    ∃ buf' len, rpcMsgSerialize buf msg = some (buf', len) ∧ (buf'.cells 0 len).sum = 0 := by
  obtain ⟨buf', hser, -, hframe⟩ := rpcMsgSerialize_eq buf hfit hdata
  exact ⟨buf', _, hser, by rw [hframe, RpcMsg.frame_sum]⟩

/-- **The checksum detects what it should.** -/
theorem checksum_detects :
    (∀ (buf : Block UInt8) (msg : RpcMsg), msg.dataLen.toNat + 4 ≤ buf.size →
      msg.dataLen.toNat ≤ msg.data.size →
      ∃ buf' len, rpcMsgSerialize buf msg = some (buf', len) ∧ (buf'.cells 0 len).sum = 0) ∧
    (∀ f g : List UInt8, Accepted f → g.length = f.length →
      (Passes g ↔ (differences f g).sum ≡ 0 [ZMOD 256])) ∧
    (∀ (f : List UInt8) (i : ℕ) (v : UInt8) (hi : i < f.length), Accepted f → v ≠ f[i] →
      Refused (f.set i v)) ∧
    ∀ (buf : Block UInt8) (len : ℕ) (msg msg' : RpcMsg),
      rpcMsgDeserialize msg buf len = some (eChecksum, msg') →
      msg'.cmd = msg.cmd ∧ msg'.rqrs = msg.rqrs ∧ msg'.dataLen = msg.dataLen ∧
        msg'.payload = msg.payload := by
  refine ⟨fun buf msg => serialize_sum, fun f g => passes_iff, fun f i v hi hf => refused_set hf hi,
    fun buf len msg msg' h => ?_⟩
  obtain rfl := eq_of_eChecksum h
  exact ⟨rfl, rfl, rfl, rfl⟩

/-- A request to log in. -/
def loginRequest : RpcMsg := ⟨0, 0, 0, ⟨0, fun _ => 0⟩⟩

/-- Its frame, two changes of it, and a byte that is refused. -/
theorem checksum_detects_login :
    (∃ buf' len, rpcMsgSerialize ⟨rpcBufferSize, fun _ => 0⟩ loginRequest = some (buf', len) ∧
      (buf'.cells 0 len).sum = 0) ∧
    (Passes [1, 0, 255, 0] ↔ (differences [0, 0, 0, 0] [1, 0, 255, 0]).sum ≡ 0 [ZMOD 256]) ∧
    Refused ([0, 0, 0, 0].set 1 7) ∧
    (rpcMsgDeserialize loginRequest ⟨1, fun _ => 1⟩ 1 = some (eChecksum, loginRequest) ∧
      loginRequest.cmd = loginRequest.cmd ∧ loginRequest.rqrs = loginRequest.rqrs ∧
      loginRequest.dataLen = loginRequest.dataLen ∧
      loginRequest.payload = loginRequest.payload) := by
  have hlogin : Accepted [0, 0, 0, 0] := (accepted_iff_sum _).mpr rfl
  have hrefuse : rpcMsgDeserialize loginRequest ⟨1, fun _ => 1⟩ 1 =
      some (eChecksum, loginRequest) := rpcMsgDeserialize_reject _ le_rfl (by decide)
  obtain ⟨hsend, hpass, hset, hkeep⟩ := checksum_detects
  exact ⟨hsend _ loginRequest (by decide) (by decide), hpass _ _ hlogin rfl,
    hset _ 1 7 (by decide) hlogin (by decide), hrefuse, hkeep _ _ _ _ hrefuse⟩

end CodeSnippet
