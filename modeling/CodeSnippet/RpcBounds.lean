/-
CodeSnippet/RpcBounds.lean

Where the RPC demo writes when it sends (rpc_intf/intf).  The functions stand
here once more as the machine runs them, without a check, over a send buffer
that keeps a log of its accesses; nothing on the way from the two length bytes
of a datagram to the send buffer looks at the length.

Main results:

* `rpcMsgSerialize_inside` — where the checked serializer is defined, the
  unchecked one does the same and stays inside its buffer;
* `responses_of_run` — the messages that a defined run of the server sends;
* `sendsInside_iff` — when sending stays inside the buffer, for any message and
  for all responses of a run of the server.
-/
import CodeSnippet.AccessLog
import CodeSnippet.RpcServer

namespace CodeSnippet

open Memory

variable {Addr : Type}

/-! ### Without a check -/

namespace Unchecked

def rpcMsgSerialize (buf : Logged UInt8) (msg : RpcMsg) : Logged UInt8 × ℕ :=
  let buf := buf.store 0 (UInt8.ofNat ((msg.cmd.toNat <<< 1) ||| msg.rqrs.toNat))
  let buf := buf.store 1 (UInt8.ofNat (msg.dataLen.toNat &&& 0xFF))
  let buf := buf.store 2 (UInt8.ofNat ((msg.dataLen.toNat <<< 8) &&& 0xFF))
  let bufLen := 3
  -- `data_len` is not compared with `RPC_BUFFER_SIZE`
  let buf := buf.memcpy 3 msg.data 0 msg.dataLen.toNat
  let bufLen := bufLen + msg.dataLen.toNat
  let (cks, buf) := buf.sumLoop id bufLen 0
  (buf.store bufLen (0 - cks), bufLen + 1)

/-- Return code and buffer. -/
def rpcIntfSendto (sock : List UInt8 → ℤ) (buf : Block UInt8) (msg : RpcMsg) : ℤ × Logged UInt8 :=
  let (buf, bufLen) := rpcMsgSerialize (.start buf) msg
  let (frame, buf) := buf.read bufLen
  (if sock frame < 0 then eSend else sock frame, buf)

/-- Return code and message. -/
def rpcMsgDeserialize (msg : RpcMsg) (buf : Block UInt8) (bufLen : ℕ) : ℤ × RpcMsg :=
  if ((Logged.start buf).sumLoop id bufLen 0).1 ≠ 0 then (eChecksum, msg)
  else
    -- whatever the peer has put there
    let dataLen := UInt16.ofNat (((buf.cell 2).toNat <<< 8) ||| (buf.cell 1).toNat)
    (eOk, { cmd := BitVec.ofNat 7 ((buf.cell 0).toNat >>> 1)
            rqrs := BitVec.ofNat 1 ((buf.cell 0).toNat &&& 0x01)
            dataLen := dataLen
            data := msg.data.copyIn 0 buf 3 dataLen.toNat })

/-- Buffer and message. -/
def rpcIntfRecvfrom (buf : StaticBuf) (msg : RpcMsg) : Arrival Addr → StaticBuf × RpcMsg
  | .error => (buf, msg)
  | .datagram _ bytes =>
      let buf := buf.receive bytes
      (buf, (rpcMsgDeserialize msg buf.1 (bytes.take rpcBufferSize).length).2)

/-- The messages that the server loop hands to `rpc_intf_sendto`. -/
def responses : StaticBuf → RpcMsg → List (Arrival Addr) → List RpcMsg
  | _, _, [] => []
  | buf, rq, a :: as =>
      let (buf, rq) := rpcIntfRecvfrom buf rq a
      let (_, rs, _) := rpcCmdRun rq
      { rs with rqrs := rqrsResponse } :: responses buf rq as

end Unchecked

/-! ### What is demanded -/

/-- Every write lies inside the send buffer, or the call fails before it has
written anything. -/
def SendsInside (msg : RpcMsg) : Prop :=
  ∀ (sock : List UInt8 → ℤ) (buf : StaticBuf),
    Below rpcBufferSize (Unchecked.rpcIntfSendto sock buf.1 msg).2.writes ∨
      (Unchecked.rpcIntfSendto sock buf.1 msg).1 < 0 ∧
        (Unchecked.rpcIntfSendto sock buf.1 msg).2.writes = []

/-- Every payload length that the server has in `rq` when it answers leaves
room for the header and the checksum: that of the datagram it has accepted, and
without one the length `n` that was there before. -/
def LengthsFit : StaticBuf → ℕ → List (Arrival Addr) → Prop
  | _, _, [] => True
  | buf, n, .error :: as => n + 4 ≤ rpcBufferSize ∧ LengthsFit buf n as
  | buf, n, .datagram _ bytes :: as =>
      if (bytes.take rpcBufferSize).sum = 0 then
        (buf.receive bytes).declared + 4 ≤ rpcBufferSize ∧
          LengthsFit (buf.receive bytes) (buf.receive bytes).declared as
      else
        -- a refused datagram: the request before it is answered again
        n + 4 ≤ rpcBufferSize ∧ LengthsFit (buf.receive bytes) n as

/-! ### The checked functions -/

/-- **Where the checked serializer is defined**, the unchecked one does the same
and stays inside. -/
theorem rpcMsgSerialize_inside {buf buf' : Block UInt8} {msg : RpcMsg} {len : ℕ}
    (h : rpcMsgSerialize buf msg = some (buf', len)) :
    (Unchecked.rpcMsgSerialize (.start buf) msg).1.Inside ∧
      (Unchecked.rpcMsgSerialize (.start buf) msg).1.block = buf' ∧
      (Unchecked.rpcMsgSerialize (.start buf) msg).2 = len := by
  simp only [rpcMsgSerialize, Option.bind_eq_bind, Option.bind_eq_some_iff] at h
  obtain ⟨b₁, h₁, b₂, h₂, b₃, h₃, b₄, h₄, cks, h₅, b₆, h₆, hret⟩ := h
  obtain ⟨rfl, rfl⟩ := Prod.mk.inj (Option.some.inj hret)
  obtain ⟨hin₁, rfl⟩ := (Logged.inside_start buf).store h₁
  obtain ⟨hin₂, rfl⟩ := hin₁.store h₂
  obtain ⟨hin₃, rfl⟩ := hin₂.store h₃
  obtain ⟨hin₄, rfl⟩ := hin₃.memcpy h₄
  obtain ⟨hin₅, rfl⟩ := hin₄.sumLoop h₅
  rw [← Logged.sumLoop_block id _ (3 + msg.dataLen.toNat) 0] at h₆
  obtain ⟨hin₆, rfl⟩ := hin₅.store h₆
  exact ⟨hin₆, rfl, rfl⟩

theorem checksum_unchecked {buf : Block UInt8} {len : ℕ} :
    ((Logged.start buf).sumLoop id len 0).1 = (buf.cells 0 len).sum := by
  rw [Logged.sumLoop_eq, List.map_id, zero_add]
  rfl

/-- Where the checked receiver is defined, the unchecked one does the same. -/
theorem rpcMsgDeserialize_unchecked {msg : RpcMsg} {buf : Block UInt8} {len : ℕ} {r : ℤ × RpcMsg}
    (hlen : len ≤ buf.size) (hsize : 3 ≤ buf.size) (h : rpcMsgDeserialize msg buf len = some r) :
    Unchecked.rpcMsgDeserialize msg buf len = r := by
  rw [Unchecked.rpcMsgDeserialize, checksum_unchecked]
  by_cases hsum : (buf.cells 0 len).sum = 0
  · rw [if_neg (not_not_intro hsum)]
    rw [rpcMsgDeserialize_accept msg hlen hsize hsum] at h
    obtain ⟨data, hcopy, rfl⟩ := Option.map_eq_some_iff.mp h
    obtain ⟨-, rfl⟩ := Block.memcpy_eq_some_iff.mp hcopy
    rw [← ofNat_declaredLen]
  · rw [if_pos hsum]
    exact Option.some.inj ((rpcMsgDeserialize_reject msg hlen hsum).symm.trans h)

theorem rpcIntfRecvfrom_unchecked {buf buf' : StaticBuf} {rq rq' : RpcMsg} {src src' : Addr}
    {a : Arrival Addr} {ret : ℤ} (h : rpcIntfRecvfrom buf rq src a = some (ret, buf', rq', src')) :
    Unchecked.rpcIntfRecvfrom buf rq a = (buf', rq') := by
  cases a with
  | error =>
      cases h
      rfl
  | datagram store bytes =>
      obtain ⟨⟨code, msg⟩, hde, hret⟩ := Option.bind_eq_some_iff.mp h
      cases hret
      have hlen : (bytes.take rpcBufferSize).length ≤ (buf.receive bytes).1.size := by
        rw [(buf.receive bytes).2]
        exact List.length_take_le ..
      have hsize : 3 ≤ (buf.receive bytes).1.size := by
        rw [(buf.receive bytes).2]
        decide
      have hraw := rpcMsgDeserialize_unchecked hlen hsize hde
      exact congrArg (fun r : ℤ × RpcMsg => (buf.receive bytes, r.2)) hraw

/-- The message that went out, if the effect is a send. -/
def Effect.sent : Effect Addr → Option RpcMsg
  | .ran _ => none
  | .sendto _ msg _ => some msg

/-- `rpc_cmd_run` copies the request. -/
theorem rpcCmdRun_rs (rq : RpcMsg) : (rpcCmdRun rq).2.1 = rq := by
  unfold rpcCmdRun
  rcases rpcFunc rq.cmd with _ | func
  · rfl
  · rfl

/-- What goes out in one iteration is the response. -/
theorem filterMap_sent (func : Option RpcFunc) (dst : Addr) (msg : RpcMsg) (frame : List UInt8) :
    (func.toList.map Effect.ran ++ [Effect.sendto dst msg frame]).filterMap Effect.sent = [msg] := by
  rcases func with _ | func
  · rfl
  · rfl

/-- One iteration: the request is answered, then come the others. -/
theorem responses_cons (buf : StaticBuf) (rq : RpcMsg) (a : Arrival Addr)
    (as : List (Arrival Addr)) :
    Unchecked.responses buf rq (a :: as) =
      (Unchecked.rpcIntfRecvfrom buf rq a).2.response ::
        Unchecked.responses (Unchecked.rpcIntfRecvfrom buf rq a).1
          (Unchecked.rpcIntfRecvfrom buf rq a).2 as := by
  rw [Unchecked.responses]
  simp only [rpcCmdRun_rs]
  rfl

/-- **A defined run of the server** sends the messages of the unchecked one. -/
theorem responses_of_run {sock : List UInt8 → ℤ} {s s' : Server Addr} {as : List (Arrival Addr)}
    {effs : List (Effect Addr)} (h : s.run sock as = some (s', effs)) :
    effs.filterMap Effect.sent = Unchecked.responses s.recvBuf s.rq as := by
  induction as generalizing s effs with
  | nil =>
      obtain ⟨-, rfl⟩ := Prod.mk.inj (Option.some.inj h)
      rfl
  | cons a as ih =>
      simp only [Server.run, Option.bind_eq_bind, Option.bind_eq_some_iff] at h
      obtain ⟨⟨s₁, eff⟩, hiter, ⟨s₂, effs₂⟩, hrun, h⟩ := h
      obtain ⟨rfl, rfl⟩ := Prod.mk.inj (Option.some.inj h)
      obtain ⟨s₀, hrecv, hreply⟩ := Option.bind_eq_some_iff.mp hiter
      obtain ⟨-, hbuf, hrq, -⟩ := Server.reply_spec hreply
      obtain ⟨ret, buf, rq, src, hr, rfl⟩ := Server.recv_eq_some_iff.mp hrecv
      have hrest := ih hrun
      rw [hbuf, hrq] at hrest
      rw [Server.reply_eq] at hreply
      obtain ⟨r, -, hr'⟩ := Option.map_eq_some_iff.mp hreply
      obtain ⟨-, rfl⟩ := Prod.mk.inj hr'
      rw [List.filterMap_append, hrest, filterMap_sent, responses_cons,
        rpcIntfRecvfrom_unchecked hr]
      rfl

/-! ### One message -/

theorem serialize_writes (buf : Block UInt8) (msg : RpcMsg) :
    (Unchecked.rpcMsgSerialize (.start buf) msg).1.writes =
      [0, 1, 2] ++ List.range' 3 msg.dataLen.toNat ++ [3 + msg.dataLen.toNat] := by
  rw [Unchecked.rpcMsgSerialize]
  simp only [Logged.sumLoop_eq]
  rfl

theorem sendto_writes (sock : List UInt8 → ℤ) (buf : Block UInt8) (msg : RpcMsg) :
    (Unchecked.rpcIntfSendto sock buf msg).2.writes =
      [0, 1, 2] ++ List.range' 3 msg.dataLen.toNat ++ [3 + msg.dataLen.toNat] :=
  serialize_writes buf msg

/-- The checksum is the last byte that is written. -/
theorem below_writes (m n : ℕ) :
    Below m ([0, 1, 2] ++ List.range' 3 n ++ [3 + n]) ↔ n + 4 ≤ m := by
  rw [below_append, below_append, below_range', below_singleton]
  constructor
  · rintro ⟨-, hlast⟩
    omega
  · intro h
    refine ⟨⟨fun i hi => ?_, .inr (by omega)⟩, by omega⟩
    have hi : i = 0 ∨ i = 1 ∨ i = 2 := by simpa using hi
    omega

theorem sendsInside_iff_fits (msg : RpcMsg) :
    SendsInside msg ↔ msg.dataLen.toNat + 4 ≤ rpcBufferSize := by
  unfold SendsInside
  simp only [sendto_writes, below_writes]
  constructor
  · intro h
    rcases h (fun frame => frame.length) ⟨⟨rpcBufferSize, fun _ => 0⟩, rfl⟩ with hfits | ⟨-, hnone⟩
    · exact hfits
    · cases hnone
  · exact fun h _ _ => .inl h

/-! ### Runs of the server -/

/-- What the response to an arrival is bounded by. -/
theorem recvfrom_dataLen (buf : StaticBuf) (rq : RpcMsg) (store : Addr → Addr)
    (bytes : List UInt8) :
    (Unchecked.rpcIntfRecvfrom buf rq (.datagram store bytes)).2.dataLen.toNat =
      if (bytes.take rpcBufferSize).sum = 0 then (buf.receive bytes).declared
      else rq.dataLen.toNat := by
  have hcells : (buf.receive bytes).1.cells 0 (bytes.take rpcBufferSize).length
      = bytes.take rpcBufferSize := Block.overlay_cells ..
  rw [Unchecked.rpcIntfRecvfrom]
  simp only
  rw [Unchecked.rpcMsgDeserialize, checksum_unchecked, hcells]
  by_cases hsum : (bytes.take rpcBufferSize).sum = 0
  · rw [if_neg (not_not_intro hsum), if_pos hsum]
    exact ofNat_declaredLen ..
  · rw [if_pos hsum, if_neg hsum]

/-- **A run of the server**, by induction on the arrivals. -/
theorem responses_inside_iff (buf : StaticBuf) (rq : RpcMsg) (as : List (Arrival Addr)) :
    (∀ msg ∈ Unchecked.responses buf rq as, SendsInside msg) ↔
      LengthsFit buf rq.dataLen.toNat as := by
  induction as generalizing buf rq with
  | nil => exact iff_of_true (fun msg h => absurd h List.not_mem_nil) trivial
  | cons a as ih =>
      rw [responses_cons, List.forall_mem_cons, sendsInside_iff_fits, ih, RpcMsg.response]
      cases a with
      | error => rfl
      | datagram store bytes =>
          rw [recvfrom_dataLen, LengthsFit]
          by_cases hsum : (bytes.take rpcBufferSize).sum = 0
          · rw [if_pos hsum, if_pos hsum]
            rfl
          · rw [if_neg hsum, if_neg hsum]
            rfl

/-- **When sending stays inside its buffer**: for any message, and for all that
the server sends in a run of any length. -/
theorem sendsInside_iff (msg : RpcMsg) (buf : StaticBuf) (rq : RpcMsg) (as : List (Arrival Addr)) :
    (SendsInside msg ↔ msg.dataLen.toNat + 4 ≤ rpcBufferSize) ∧
      ((∀ rs ∈ Unchecked.responses buf rq as, SendsInside rs) ↔
        LengthsFit buf rq.dataLen.toNat as) :=
  ⟨sendsInside_iff_fits msg, responses_inside_iff buf rq as⟩

/-- A frame without data that declares 509 bytes: the answer to it writes its
checksum behind the end of the buffer. -/
theorem not_sendsInside :
    ¬ (∀ msg : RpcMsg, SendsInside msg) ∧
    ∃ msg ∈ Unchecked.responses idleServer.recvBuf idleServer.rq
        [(.datagram id [0x00, 0xFD, 0x01, 0x02] : Arrival Unit)],
      msg.dataLen = 509 ∧ ¬ SendsInside msg := by
  have hover : ∀ msg : RpcMsg, msg.dataLen = 509 → ¬ SendsInside msg := by
    intro msg hlen
    rw [sendsInside_iff_fits, hlen]
    decide
  rw [responses_cons]
  have hlen : (Unchecked.rpcIntfRecvfrom idleServer.recvBuf idleServer.rq
      (.datagram id [0x00, 0xFD, 0x01, 0x02] : Arrival Unit)).2.response.dataLen = 509 := by
    apply UInt16.toNat_inj.mp
    rw [RpcMsg.response, recvfrom_dataLen]
    decide
  refine ⟨fun hevery => ?_, _, List.mem_cons_self .., hlen, hover _ hlen⟩
  exact hover ⟨0, 0, 509, ⟨509, fun _ => 0⟩⟩ rfl (hevery _)

end CodeSnippet
