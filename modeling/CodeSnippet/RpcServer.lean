/-
CodeSnippet/RpcServer.lean

The RPC server (rpc_intf/src): receiving a datagram, running its command and
answering it, over and over.

The request structure `rq` and the receive buffer live as long as the loop, so
an iteration starts from whatever the datagrams before it left there.  The
loop never looks at what `rpc_intf_recvfrom` returned; a datagram that was
refused is therefore answered as if it were the last accepted one.

`servesExactly_iff` says when a run of any length does what a server should do:
answer each accepted request once, in order, and nothing else.
-/
import CodeSnippet.RpcMsg

namespace CodeSnippet

open Memory

variable {Addr : Type}

/-! ### Sending and receiving -/

/-- A static message buffer, of the size the source gives it. -/
abbrev StaticBuf := {b : Block UInt8 // b.size = rpcBufferSize}

/-- What `recvfrom` comes back with: an error, or a datagram.  `store` is what the call
makes of the address structure it is given, whose length goes in and comes out. -/
inductive Arrival (Addr : Type)
  | error
  | datagram (store : Addr → Addr) (bytes : List UInt8)

/-- `rpc_intf_sendto`: return code, buffer, and the frame given to the socket.
`sock` is the result of the socket call on that frame. -/
def rpcIntfSendto (sock : List UInt8 → ℤ) (buf : StaticBuf) (msg : RpcMsg) :
    Option (ℤ × StaticBuf × List UInt8) :=
  match h : rpcMsgSerialize buf.1 msg with
  | none => none
  | some (buf', len) =>
      (buf'.read 0 len).map fun frame =>
        (if sock frame < 0 then eSend else sock frame,
          ⟨buf', (rpcMsgSerialize_size h).trans buf.2⟩, frame)

/-- The receive buffer after `recvfrom`: a datagram that is too long is cut. -/
def StaticBuf.receive (buf : StaticBuf) (bytes : List UInt8) : StaticBuf :=
  ⟨buf.1.overlay (bytes.take rpcBufferSize), buf.2⟩

/-- `rpc_intf_recvfrom`: return code, buffer, message and address structure. -/
def rpcIntfRecvfrom (buf : StaticBuf) (msg : RpcMsg) (src : Addr) :
    Arrival Addr → Option (ℤ × StaticBuf × RpcMsg × Addr)
  | .error => some (eRecv, buf, msg, src)
  | .datagram store bytes => do
      let src := store src
      let buf := buf.receive bytes
      let len := (bytes.take rpcBufferSize).length
      let (ret, msg) ← rpcMsgDeserialize msg buf.1 len
      return (if ret ≠ eOk then eChecksum else (len : ℤ), buf, msg, src)

/-! ### Commands -/

/-- The handlers of `rpc_cmd_list`.  Each only prints its name. -/
inductive RpcFunc
  | rpcCmdLogin | rpcCmdExit | rpcCmdGetServerNum | rpcCmdGetServerInfo
  | rpcCmdAttachServer | rpcCmdDetachServer | rpcCmdSwitchRights | rpcCmdSolData
  deriving DecidableEq

/-- `rpc_cmd_list`, without its end mark. -/
def rpcCmdList : List (RpcFunc × UInt8) :=
  [(.rpcCmdLogin, 0x00), (.rpcCmdExit, 0x01), (.rpcCmdGetServerNum, 0x02),
    (.rpcCmdGetServerInfo, 0x03), (.rpcCmdAttachServer, 0x04), (.rpcCmdDetachServer, 0x05),
    (.rpcCmdSwitchRights, 0x06), (.rpcCmdSolData, 0x0F)]

/-- The first entry of the list with the command code `cmd`. -/
def rpcFunc (cmd : BitVec 7) : Option RpcFunc :=
  (rpcCmdList.find? fun entry => entry.2.toNat == cmd.toNat).map Prod.fst

/-- `rpc_cmd_run`: return code, response, and the handler that was called. -/
def rpcCmdRun (rq : RpcMsg) : ℤ × RpcMsg × Option RpcFunc :=
  match rpcFunc rq.cmd with
  | some func => (0, rq, some func)
  | none => (-1, rq, none)

/-! ### The server loop -/

/-- What lives across iterations of the server loop. -/
structure Server (Addr : Type) where
  recvBuf : StaticBuf
  sendBuf : StaticBuf
  rq : RpcMsg
  rs : RpcMsg
  clientaddr : Addr

/-- What an iteration does to the outside. -/
inductive Effect (Addr : Type)
  | ran (func : RpcFunc)
  | sendto (dst : Addr) (msg : RpcMsg) (frame : List UInt8)

/-- The first half of an iteration, up to and with `rpc_intf_recvfrom`.  Its
return value is dropped. -/
def Server.recv (s : Server Addr) (a : Arrival Addr) : Option (Server Addr) := do
  let (_, recvBuf, rq, clientaddr) ← rpcIntfRecvfrom s.recvBuf s.rq s.clientaddr a
  return { s with recvBuf := recvBuf, rq := rq, clientaddr := clientaddr }

/-- The second half: run the command, mark the response, send it. -/
def Server.reply (sock : List UInt8 → ℤ) (s : Server Addr) :
    Option (Server Addr × List (Effect Addr)) := do
  let (_, rs, func) := rpcCmdRun s.rq
  let rs := { rs with rqrs := rqrsResponse }
  let (_, sendBuf, frame) ← rpcIntfSendto sock s.sendBuf rs
  return ({ s with sendBuf := sendBuf, rs := rs },
    func.toList.map .ran ++ [.sendto s.clientaddr rs frame])

/-- One iteration of the server loop. -/
def Server.iter (sock : List UInt8 → ℤ) (s : Server Addr) (a : Arrival Addr) :
    Option (Server Addr × List (Effect Addr)) :=
  (s.recv a).bind (Server.reply sock)

/-- The server loop on a finite sequence of arrivals. -/
def Server.run (sock : List UInt8 → ℤ) :
    Server Addr → List (Arrival Addr) → Option (Server Addr × List (Effect Addr))
  | s, [] => some (s, [])
  | s, a :: as => do
      let (s', eff) ← s.iter sock a
      let (s'', effs) ← Server.run sock s' as
      return (s'', eff ++ effs)

/-! ### What a server should do -/

/-- The commands of the requests that `rpc_intf_recvfrom` accepts, in order of
arrival: what it reports for `as`, started from the given receive state. -/
def requests : StaticBuf → RpcMsg → Addr → List (Arrival Addr) → List (BitVec 7)
  | _, _, _, [] => []
  | buf, rq, src, a :: as =>
      match rpcIntfRecvfrom buf rq src a with
      | none => []
      | some (ret, buf, rq, src) =>
          if ret < 0 then requests buf rq src as else rq.cmd :: requests buf rq src as

/-- The outline of an effect: which command ran, or which response went out. -/
inductive Answer
  | ran (func : RpcFunc)
  | response (cmd : BitVec 7) (rqrs : BitVec 1)
  deriving DecidableEq

def Effect.outline : Effect Addr → Answer
  | .ran func => .ran func
  | .sendto _ msg _ => .response msg.cmd msg.rqrs

/-- The answer to a request: run its command if there is one, then respond. -/
def answers (cmd : BitVec 7) : List Answer :=
  (rpcFunc cmd).toList.map .ran ++ [.response cmd rqrsResponse]

/-- The run on `as` is defined, and what it does is to answer each accepted
request once, in order, and nothing else. -/
def ServesExactly (sock : List UInt8 → ℤ) (s : Server Addr) (as : List (Arrival Addr)) : Prop :=
  ∃ s' effs, s.run sock as = some (s', effs) ∧
    effs.map Effect.outline = (requests s.recvBuf s.rq s.clientaddr as).flatMap answers

/-- The payload length that the receive buffer declares. -/
def StaticBuf.declared (buf : StaticBuf) : ℕ :=
  declaredLen (buf.1.cell 1) (buf.1.cell 2)

/-- An arrival that the server can answer: a datagram that passes the checksum
test and declares a payload for which there is room behind `rq.data` and in the
two buffers. -/
def Served (s : Server Addr) : Arrival Addr → Prop
  | .error => False
  | .datagram _ bytes =>
      (bytes.take rpcBufferSize).sum = 0 ∧
        (s.recvBuf.receive bytes).declared + 4 ≤ rpcBufferSize ∧
        (s.recvBuf.receive bytes).declared ≤ s.rq.data.size

/-- Every step of the run on `as` meets `Served`. -/
def AllServed (sock : List UInt8 → ℤ) : Server Addr → List (Arrival Addr) → Prop
  | _, [] => True
  | s, a :: as => Served s a ∧ ∀ s' eff, s.iter sock a = some (s', eff) → AllServed sock s' as

/-! ### One iteration -/

/-- What the first half of an iteration can do, read off the receive call. -/
theorem Server.recv_eq_some_iff {s s' : Server Addr} {a : Arrival Addr} :
    s.recv a = some s' ↔
      ∃ ret buf rq src, rpcIntfRecvfrom s.recvBuf s.rq s.clientaddr a = some (ret, buf, rq, src) ∧
        s' = { s with recvBuf := buf, rq := rq, clientaddr := src } := by
  simp only [Server.recv, Option.bind_eq_bind, Option.bind_eq_some_iff]
  constructor
  · rintro ⟨⟨ret, buf, rq, src⟩, hr, hs⟩
    exact ⟨ret, buf, rq, src, hr, (Option.some.inj hs).symm⟩
  · rintro ⟨ret, buf, rq, src, hr, rfl⟩
    exact ⟨_, hr, rfl⟩

/-- The response to `rq`: a copy of it, marked as response. -/
def RpcMsg.response (rq : RpcMsg) : RpcMsg := { rq with rqrs := rqrsResponse }

/-- The second half of an iteration is one call of `rpc_intf_sendto`, for the
response to whatever `rq` holds. -/
theorem Server.reply_eq (sock : List UInt8 → ℤ) (s : Server Addr) :
    s.reply sock = (rpcIntfSendto sock s.sendBuf s.rq.response).map fun r =>
      ({ s with sendBuf := r.2.1, rs := s.rq.response },
        (rpcFunc s.rq.cmd).toList.map .ran
          ++ [.sendto s.clientaddr s.rq.response r.2.2]) := by
  unfold Server.reply rpcCmdRun
  cases rpcFunc s.rq.cmd with
  | none | some func =>
      simp only [Option.bind_eq_bind, RpcMsg.response]
      cases rpcIntfSendto sock s.sendBuf { s.rq with rqrs := rqrsResponse } <;> rfl

/-- Sending is defined exactly for messages whose frame fits. -/
theorem rpcIntfSendto_isSome_iff (sock : List UInt8 → ℤ) (buf : StaticBuf) (msg : RpcMsg) :
    (rpcIntfSendto sock buf msg).isSome ↔
      msg.dataLen.toNat + 4 ≤ rpcBufferSize ∧ msg.dataLen.toNat ≤ msg.data.size := by
  unfold rpcIntfSendto
  constructor
  · intro h
    split at h
    · cases h
    · rename_i buf' len hser
      rw [← buf.2]
      exact rpcMsgSerialize_fits hser
  · rintro ⟨hfit, hdata⟩
    rw [← buf.2] at hfit
    obtain ⟨buf', hser, hsize, -⟩ := rpcMsgSerialize_eq buf.1 hfit hdata
    split
    · rename_i hnone
      rw [hnone] at hser
      cases hser
    · rename_i b len hser'
      obtain ⟨rfl, rfl⟩ : buf' = b ∧ _ = len := by simpa using hser.symm.trans hser'
      rw [Block.read_eq (by omega)]
      rfl

/-- The second half of an iteration answers `rq`, whatever it is, and leaves
the receive state alone. -/
theorem Server.reply_spec {sock : List UInt8 → ℤ} {s s' : Server Addr} {eff : List (Effect Addr)}
    (h : s.reply sock = some (s', eff)) :
    eff.map Effect.outline = answers s.rq.cmd ∧ s'.recvBuf = s.recvBuf ∧ s'.rq = s.rq ∧
      s'.clientaddr = s.clientaddr := by
  rw [Server.reply_eq] at h
  obtain ⟨r, -, hr⟩ := Option.map_eq_some_iff.mp h
  obtain ⟨rfl, rfl⟩ := Prod.mk.inj hr
  refine ⟨?_, rfl, rfl, rfl⟩
  cases hf : rpcFunc s.rq.cmd <;> simp [answers, Effect.outline, RpcMsg.response, hf]

theorem Server.reply_isSome_iff (sock : List UInt8 → ℤ) (s : Server Addr) :
    (s.reply sock).isSome ↔
      s.rq.dataLen.toNat + 4 ≤ rpcBufferSize ∧ s.rq.dataLen.toNat ≤ s.rq.data.size := by
  rw [Server.reply_eq, Option.isSome_map]
  exact rpcIntfSendto_isSome_iff ..

/-- A datagram that passes the checksum test is received exactly when there is
room for the payload it declares; then `rq` declares that payload. -/
theorem rpcIntfRecvfrom_accept (buf : StaticBuf) (rq : RpcMsg) (src : Addr)
    (store : Addr → Addr) {bytes : List UInt8} (hsum : (bytes.take rpcBufferSize).sum = 0) :
    rpcIntfRecvfrom buf rq src (.datagram store bytes) =
      (rq.data.memcpy 0 (buf.receive bytes).1 3 (buf.receive bytes).declared).map fun data =>
        (((bytes.take rpcBufferSize).length : ℤ), buf.receive bytes,
          { cmd := BitVec.ofNat 7 (((buf.receive bytes).1.cell 0).toNat >>> 1)
            rqrs := BitVec.ofNat 1 (((buf.receive bytes).1.cell 0).toNat &&& 0x01)
            dataLen := UInt16.ofNat ((((buf.receive bytes).1.cell 2).toNat <<< 8)
              ||| ((buf.receive bytes).1.cell 1).toNat)
            data := data }, store src) := by
  have hsize : (buf.receive bytes).1.size = rpcBufferSize := (buf.receive bytes).2
  have hcells : (buf.receive bytes).1.cells 0 (bytes.take rpcBufferSize).length
      = bytes.take rpcBufferSize := Block.overlay_cells ..
  have hlen : (bytes.take rpcBufferSize).length ≤ (buf.receive bytes).1.size := by
    rw [hsize]
    exact List.length_take_le ..
  have hde := rpcMsgDeserialize_accept rq hlen (by rw [hsize]; decide)
    (by rw [hcells, hsum])
  simp only [rpcIntfRecvfrom, hde, Option.bind_eq_bind, StaticBuf.declared]
  cases rq.data.memcpy 0 (buf.receive bytes).1 3
    (declaredLen ((buf.receive bytes).1.cell 1) ((buf.receive bytes).1.cell 2)) <;> rfl

/-- One that does not is received without a trace in `rq`. -/
theorem rpcIntfRecvfrom_reject {buf : StaticBuf} {rq : RpcMsg} {src : Addr} {store : Addr → Addr}
    {bytes : List UInt8} (hsum : (bytes.take rpcBufferSize).sum ≠ 0) :
    rpcIntfRecvfrom buf rq src (.datagram store bytes)
      = some (eChecksum, buf.receive bytes, rq, store src) := by
  have hcells : (buf.receive bytes).1.cells 0 (bytes.take rpcBufferSize).length
      = bytes.take rpcBufferSize := Block.overlay_cells ..
  have hlen : (bytes.take rpcBufferSize).length ≤ (buf.receive bytes).1.size := by
    rw [(buf.receive bytes).2]
    exact List.length_take_le ..
  have hde := rpcMsgDeserialize_reject rq hlen (by rwa [hcells])
  simp only [rpcIntfRecvfrom, hde, Option.bind_eq_bind, Option.bind_some]
  rfl

/-- An answerable arrival makes a defined iteration, which answers the request
it brought. -/
theorem Served.iter (sock : List UInt8 → ℤ) {s : Server Addr} {a : Arrival Addr}
    (h : Served s a) : ∃ s' eff, s.iter sock a = some (s', eff) := by
  cases a with
  | error => exact h.elim
  | datagram store bytes =>
      obtain ⟨hsum, hfit, hdata⟩ := h
      have hsize : (s.recvBuf.receive bytes).1.size = rpcBufferSize := (s.recvBuf.receive bytes).2
      have hrecv := rpcIntfRecvfrom_accept s.recvBuf s.rq s.clientaddr store hsum
      rw [Block.memcpy_eq (by omega) (by omega), Option.map_some] at hrecv
      obtain ⟨s₀, hs₀, hlen, hroom⟩ : ∃ s₀, s.recv (.datagram store bytes) = some s₀ ∧
          s₀.rq.dataLen.toNat = (s.recvBuf.receive bytes).declared ∧
          s₀.rq.data.size = s.rq.data.size :=
        ⟨_, Server.recv_eq_some_iff.mpr ⟨_, _, _, _, hrecv, rfl⟩, ofNat_declaredLen .., rfl⟩
      have hreply := (Server.reply_isSome_iff sock s₀).mpr (by omega)
      obtain ⟨⟨s', eff⟩, hs'⟩ := Option.isSome_iff_exists.mp hreply
      exact ⟨s', eff, by rw [Server.iter, hs₀, Option.bind_some, hs']⟩

/-- What a defined iteration can be: the arrival was answerable, and its
request is answered; or it was refused, and no request comes of it. -/
theorem Server.iter_cases {sock : List UInt8 → ℤ} {s s' : Server Addr} {a : Arrival Addr}
    {eff : List (Effect Addr)} (h : s.iter sock a = some (s', eff)) :
    (Served s a ∧ eff.map Effect.outline = answers s'.rq.cmd ∧
      ∀ as, requests s.recvBuf s.rq s.clientaddr (a :: as) =
        s'.rq.cmd :: requests s'.recvBuf s'.rq s'.clientaddr as) ∨
    (¬ Served s a ∧ ∀ as, requests s.recvBuf s.rq s.clientaddr (a :: as) =
        requests s'.recvBuf s'.rq s'.clientaddr as) := by
  obtain ⟨s₀, hrecv, hreply⟩ := Option.bind_eq_some_iff.mp h
  obtain ⟨hout, hbuf, hrq, hsrc⟩ := Server.reply_spec hreply
  obtain ⟨hfit, hdata⟩ := (Server.reply_isSome_iff ..).mp (Option.isSome_of_eq_some hreply)
  obtain ⟨ret, buf, rq, src, hr, rfl⟩ := Server.recv_eq_some_iff.mp hrecv
  rw [hbuf, hrq, hsrc]
  cases a with
  | error =>
      right
      simp only [rpcIntfRecvfrom] at hr
      cases hr
      refine ⟨id, fun as => ?_⟩
      simp only [requests, rpcIntfRecvfrom]
      rw [if_pos (by decide)]
  | datagram store bytes =>
      by_cases hsum : (bytes.take rpcBufferSize).sum = 0
      · left
        have hr' := hr
        rw [rpcIntfRecvfrom_accept _ _ _ _ hsum] at hr'
        obtain ⟨data, hcopy, hret⟩ := Option.map_eq_some_iff.mp hr'
        obtain ⟨⟨hroom, -⟩, rfl⟩ := Block.memcpy_eq_some_iff.mp hcopy
        cases hret
        rw [ofNat_declaredLen] at hfit
        refine ⟨⟨hsum, hfit, by omega⟩, hout, fun as => ?_⟩
        simp only [requests, hr]
        rw [if_neg (by omega)]
      · right
        have hr' := hr
        rw [rpcIntfRecvfrom_reject hsum] at hr'
        cases hr'
        refine ⟨fun hserved => hsum hserved.1, fun as => ?_⟩
        simp only [requests, hr]
        rw [if_pos (by decide)]

/-! ### Runs -/

theorem requests_length_le (buf : StaticBuf) (rq : RpcMsg) (src : Addr)
    (as : List (Arrival Addr)) : (requests buf rq src as).length ≤ as.length := by
  induction as generalizing buf rq src with
  | nil => simp [requests]
  | cons a as ih =>
      simp only [requests]
      split
      · simp
      · rename_i ret buf rq src _
        have := ih buf rq src
        split <;> simp <;> omega

/-- Each answer holds one response. -/
theorem answers_responses (cmds : List (BitVec 7)) :
    ((cmds.flatMap answers).filter fun a => a matches .response _ _).length = cmds.length := by
  induction cmds with
  | nil => rfl
  | cons c cmds ih =>
      rw [List.flatMap_cons, List.filter_append, List.length_append, ih]
      cases hf : rpcFunc c <;> simp [answers, hf, Nat.add_comm]

/-- Every iteration of a defined run sends one response. -/
theorem Server.run_responses {sock : List UInt8 → ℤ} {s s' : Server Addr}
    {as : List (Arrival Addr)} {effs : List (Effect Addr)} (h : s.run sock as = some (s', effs)) :
    ((effs.map Effect.outline).filter fun a => a matches .response _ _).length = as.length := by
  induction as generalizing s effs with
  | nil =>
      obtain ⟨-, rfl⟩ := Prod.mk.inj (Option.some.inj h)
      rfl
  | cons a as ih =>
      simp only [Server.run, Option.bind_eq_bind, Option.bind_eq_some_iff] at h
      obtain ⟨⟨s₁, eff⟩, hiter, ⟨s₂, effs₂⟩, hrun, h⟩ := h
      obtain ⟨rfl, rfl⟩ := Prod.mk.inj (Option.some.inj h)
      obtain ⟨s₀, -, hreply⟩ := Option.bind_eq_some_iff.mp hiter
      obtain ⟨hout, -⟩ := Server.reply_spec hreply
      rw [List.map_append, List.filter_append, List.length_append, ih hrun, hout]
      cases hf : rpcFunc s₀.rq.cmd <;> simp [answers, hf, Nat.add_comm]

theorem Server.run_cons {sock : List UInt8 → ℤ} {s s' : Server Addr} {a : Arrival Addr}
    {eff : List (Effect Addr)} (h : s.iter sock a = some (s', eff)) (as : List (Arrival Addr)) :
    s.run sock (a :: as) = (s'.run sock as).map fun r => (r.1, eff ++ r.2) := by
  simp only [Server.run, h, Option.bind_eq_bind, Option.bind_some]
  cases s'.run sock as <;> rfl

/-- **The server answers each valid request once and nothing else** in exactly
the runs in which every arrival can be answered. -/
theorem servesExactly_iff (sock : List UInt8 → ℤ) (s : Server Addr) (as : List (Arrival Addr)) :
    ServesExactly sock s as ↔ AllServed sock s as := by
  induction as generalizing s with
  | nil => simp [ServesExactly, AllServed, Server.run, requests]
  | cons a as ih =>
      constructor
      · rintro ⟨s'', effs, hrun, hout⟩
        have hcount := Server.run_responses hrun
        obtain ⟨⟨s', eff⟩, hiter, -⟩ := Option.bind_eq_some_iff.mp hrun
        rw [Server.run_cons hiter] at hrun
        obtain ⟨⟨t, effs₂⟩, hrun', hpair⟩ := Option.map_eq_some_iff.mp hrun
        obtain ⟨rfl, rfl⟩ := Prod.mk.inj hpair
        rcases Server.iter_cases hiter with ⟨hserved, hans, hreq⟩ | ⟨-, hreq⟩
        · refine ⟨hserved, fun s₁ eff₁ h₁ => ?_⟩
          obtain ⟨rfl, rfl⟩ : s' = s₁ ∧ eff = eff₁ := by simpa using hiter.symm.trans h₁
          rw [hreq, List.flatMap_cons, List.map_append, hans] at hout
          exact (ih s').mp ⟨t, effs₂, hrun', List.append_cancel_left hout⟩
        · -- a refused datagram is answered all the same: one response too many
          rw [hout, answers_responses, hreq] at hcount
          have hle := requests_length_le s'.recvBuf s'.rq s'.clientaddr as
          simp only [List.length_cons] at hcount
          omega
      · rintro ⟨hserved, hrest⟩
        obtain ⟨s', eff, hiter⟩ := hserved.iter sock
        obtain ⟨t, effs, hrun, hout⟩ := (ih s').mpr (hrest s' eff hiter)
        rcases Server.iter_cases hiter with ⟨-, hans, hreq⟩ | ⟨hnot, -⟩
        · refine ⟨t, eff ++ effs, by rw [Server.run_cons hiter, hrun]; rfl, ?_⟩
          rw [hreq, List.flatMap_cons, List.map_append, hans, hout]
        · exact absurd hserved hnot

/-- A server that has just entered its loop, with zeros in its locals. -/
def idleServer : Server Unit :=
  { recvBuf := ⟨⟨rpcBufferSize, fun _ => 0⟩, rfl⟩
    sendBuf := ⟨⟨rpcBufferSize, fun _ => 0⟩, rfl⟩
    rq := ⟨0, 0, 0, ⟨0, fun _ => 0⟩⟩
    rs := ⟨0, 0, 0, ⟨0, fun _ => 0⟩⟩
    clientaddr := () }

/-- The one-byte datagram 01 is refused with `E_CHECKSUM`, and answered. -/
theorem not_servesExactly_idleServer :
    ¬ ServesExactly (fun frame => frame.length) idleServer [.datagram id [0x01]] := by
  rintro ⟨s', effs, hrun, hout⟩
  have hcount := Server.run_responses hrun
  have hreq : requests idleServer.recvBuf idleServer.rq idleServer.clientaddr
      [.datagram id [0x01]] = [] := by
    simp only [requests, rpcIntfRecvfrom_reject (show (List.take rpcBufferSize [0x01]).sum ≠
      (0 : UInt8) by decide)]
    rfl
  rw [hout, hreq] at hcount
  exact absurd hcount (by decide)

end CodeSnippet
