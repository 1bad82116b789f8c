/-
CodeSnippet/RpcPairing.lean

Any number of RPC clients against one server, over a network that delays,
reorders and drops datagrams.

A frame carries neither a sequence number nor the identity of the client.
What pairs a response with its request is that a client sends its next request
only after it has received a datagram: each client owns at most one *token*,
which is its request in flight, or its request held by the server, or its
response in flight.  `Network.Inv` states this together with what the token's
bytes are, and every step of every party keeps it (`Network.Inv.step`).

The server sends its answer to the address that `recvfrom` has stored, and never
sets the length that `recvfrom` stores by.  The token of a client becomes another
client's where that length leaves a part of the address as it was.

Main results:
  * `Network.Inv.step` — every step keeps the invariant.
  * `rpc_pairing_iff` — for which address structure of the server requests and
    responses pair up.
-/
import CodeSnippet.RpcAddress
import CodeSnippet.RpcServer
import CodeSnippet.Transition

namespace CodeSnippet

open Memory RpcAddress Transition

variable {ι : Type}

/-! ### The client -/

/-- Where a client is in its loop: about to send request `i`, blocked in
`rpc_intf_recvfrom`, or through. -/
inductive ClientPc
  | sending | waiting | done
  deriving DecidableEq

/-- A client: the loop variable `i`, its message and its static buffers. -/
structure Client where
  i : ℕ
  pc : ClientPc
  msg : RpcMsg
  sendBuf : StaticBuf
  recvBuf : StaticBuf

/-- The request of round `i`. -/
def Client.request (c : Client) : RpcMsg :=
  { c.msg with cmd := BitVec.ofNat 7 c.i, rqrs := rqrsRequest, dataLen := 0 }

/-- The first half of a round: fill in the request and send it. -/
def Client.send (sock : List UInt8 → ℤ) (c : Client) : Option (Client × List UInt8) :=
  (rpcIntfSendto sock c.sendBuf c.request).map fun r =>
    ({ c with msg := c.request, sendBuf := r.2.1, pc := .waiting }, r.2.2)

/-- The second half: receive a datagram, whatever it is, and go on to the next
round while `i <= 0xF`. -/
def Client.recv (c : Client) (bytes : List UInt8) : Option Client :=
  (rpcIntfRecvfrom c.recvBuf c.msg () (.datagram id bytes)).map fun r =>
    { c with msg := r.2.2.1, recvBuf := r.2.1, i := c.i + 1,
             pc := if c.i + 1 ≤ 0xF then .sending else .done }

/-! ### Addresses -/

/-- The address of each client, and the client that a host and a port lead to. -/
structure Hosts (ι : Type) where
  addr : ι → UInt32 × UInt16
  owner : UInt32 × UInt16 → Option ι
  owner_addr : ∀ c, owner (addr c) = some c

/-- The address structure that the network gives for a client. -/
def Hosts.sender (hosts : Hosts ι) (c : ι) : RpcAddr :=
  (rpcAddrPack (hosts.addr c).1 (hosts.addr c).2).2

/-- The client that receives what is sent to an address structure. -/
def Hosts.receiver (hosts : Hosts ι) (dst : RpcAddr) : Option ι :=
  dst.sendto.bind hosts.owner

/-- What `recvfrom` makes of the address structure leads back to the sender or to no
client.  A length of 8 covers family, port and host, and one that is negative as an
`int` is refused; below that it depends on the bytes that stay. -/
def Hosts.StoresSender (hosts : Hosts ι) (src : RpcAddr) : Prop :=
  8 ≤ src.len.toNat ∨ ∀ c d, hosts.receiver (src.stored (hosts.sender c)) = some d → d = c

section Addresses

variable {hosts : Hosts ι} {src src' : RpcAddr} {c d : ι}

/-- Only the client at an address is led to by it. -/
theorem Hosts.receiver_of_sendto (h : src.sendto = some (hosts.addr c)) :
    hosts.receiver src = some c := by
  rw [Hosts.receiver, h, Option.bind_some, hosts.owner_addr]

/-- The address that is stored is the sender's. -/
theorem Hosts.StoresSender.eq (h : hosts.StoresSender src)
    (hsrc : src.recvfrom (hosts.sender c) = some src') (hd : hosts.receiver src' = some d) :
    d = c := by
  rcases h with hlen | hother
  · obtain ⟨dst, hdst, howner⟩ := Option.bind_eq_some_iff.mp hd
    obtain rfl := RpcAddr.sendto_recvfrom hlen hsrc hdst
    exact Option.some.inj (howner.symm.trans (hosts.owner_addr c))
  · obtain ⟨-, hsome⟩ := Option.ite_none_right_eq_some.mp hsrc
    obtain rfl := Option.some.inj hsome
    exact hother c d hd

theorem Hosts.storesSender_recvfrom (hsrc : src.recvfrom (hosts.sender c) = some src') :
    hosts.StoresSender src' := by
  refine .inl ?_
  rw [RpcAddr.len_recvfrom hsrc]
  decide

/-- A length that `recvfrom` refuses is refused by `sendto`. -/
theorem Hosts.receiver_refused (hsrc : src.recvfrom (hosts.sender c) = none) :
    hosts.receiver src = none := by
  have hlen : ¬ src.len.toNat < 2 ^ 31 := fun hlt => by
    rw [RpcAddr.recvfrom, if_pos hlt] at hsrc
    cases hsrc
  rw [Hosts.receiver, RpcAddr.sendto, if_pos (.inr (by omega)), Option.bind_none]

end Addresses

/-! ### The network -/

/-- A datagram in flight.  A client's socket is connected to the server, so
it is either on its way there or on its way back. -/
inductive Packet (ι : Type)
  | toServer (src : ι) (bytes : List UInt8)
  | toClient (dst : ι) (bytes : List UInt8)

/-- The client a datagram comes from or goes to. -/
def Packet.client : Packet ι → ι
  | .toServer src _ => src
  | .toClient dst _ => dst

@[simp] theorem Packet.client_toServer (c : ι) (bytes : List UInt8) :
    (Packet.toServer c bytes).client = c := rfl

@[simp] theorem Packet.client_toClient (c : ι) (bytes : List UInt8) :
    (Packet.toClient c bytes).client = c := rfl

variable [DecidableEq ι]

/-- All parties and the datagrams in flight.  `replying` says that the server
is between `rpc_intf_recvfrom` and `rpc_intf_sendto`. -/
structure Network (ι : Type) where
  clients : ι → Client
  server : Server RpcAddr
  replying : Bool
  flight : Multiset (Packet ι)

/-- The datagrams that the effects of a server iteration put in flight. -/
def sent (hosts : Hosts ι) (effs : List (Effect RpcAddr)) : List (Packet ι) :=
  effs.filterMap fun
    | .ran _ => none
    | .sendto dst _ frame => (hosts.receiver dst).map fun c => .toClient c frame

/-- One step of one party, or the loss of one datagram.  The server goes on to its
answer also when `recvfrom` has failed for the length of the address, which it does
behind the copy of the data. -/
inductive Network.Step (hosts : Hosts ι) (sock : List UInt8 → ℤ) : Network ι → Network ι → Prop
  | clientSend {n : Network ι} (c : ι) {cl : Client} {frame : List UInt8}
      (hpc : (n.clients c).pc = .sending) (hsend : (n.clients c).send sock = some (cl, frame)) :
      Step hosts sock n { n with clients := Function.update n.clients c cl
                                 flight := .toServer c frame ::ₘ n.flight }
  | clientRecv {n : Network ι} (c : ι) {cl : Client} {bytes : List UInt8}
      {rest : Multiset (Packet ι)} (hpc : (n.clients c).pc = .waiting)
      (hflight : n.flight = .toClient c bytes ::ₘ rest)
      (hrecv : (n.clients c).recv bytes = some cl) :
      Step hosts sock n { n with clients := Function.update n.clients c cl, flight := rest }
  | serverRecv {n : Network ι} (c : ι) {src : RpcAddr} {sv : Server RpcAddr} {bytes : List UInt8}
      {rest : Multiset (Packet ι)} (hidle : n.replying = false)
      (hflight : n.flight = .toServer c bytes ::ₘ rest)
      (hsrc : n.server.clientaddr.recvfrom (hosts.sender c) = some src)
      (hrecv : n.server.recv (.datagram (fun _ => src) bytes) = some sv) :
      Step hosts sock n { n with server := sv, replying := true, flight := rest }
  | serverRefuse {n : Network ι} (c : ι) {sv : Server RpcAddr} {bytes : List UInt8}
      {rest : Multiset (Packet ι)} (hidle : n.replying = false)
      (hflight : n.flight = .toServer c bytes ::ₘ rest)
      (hsrc : n.server.clientaddr.recvfrom (hosts.sender c) = none)
      (hrecv : n.server.recv .error = some sv) :
      Step hosts sock n { n with server := { sv with recvBuf := sv.recvBuf.receive bytes }
                                 replying := true, flight := rest }
  | serverReply {n : Network ι} {sv : Server RpcAddr} {effs : List (Effect RpcAddr)}
      (hreplying : n.replying = true) (hreply : n.server.reply sock = some (sv, effs)) :
      Step hosts sock n { n with server := sv, replying := false
                                 flight := sent hosts effs + n.flight }
  | drop {n : Network ι} {p : Packet ι} {rest : Multiset (Packet ι)}
      (hflight : n.flight = p ::ₘ rest) :
      Step hosts sock n { n with flight := rest }

/-- All clients before their first round, the server before its first
iteration, nothing in flight.  The locals hold anything. -/
def Network.Start (n : Network ι) : Prop :=
  (∀ c, (n.clients c).i = 0 ∧ (n.clients c).pc = .sending) ∧ n.replying = false ∧ n.flight = 0

/-- All interleavings from the state `n₀` on. -/
def rpcSystem (hosts : Hosts ι) (sock : List UInt8 → ℤ) (n₀ : Network ι) :
    System (Network ι) where
  init := fun n => n = n₀
  step := Network.Step hosts sock

/-! ### Frames without payload -/

/-- The frame of a message with `data_len` 0. -/
def shortFrame (cmd : BitVec 7) (rqrs : BitVec 1) : List UInt8 :=
  [headByte cmd rqrs, 0, 0, 0 - headByte cmd rqrs]

theorem RpcMsg.frame_of_dataLen {msg : RpcMsg} (h : msg.dataLen = 0) :
    msg.frame = shortFrame msg.cmd msg.rqrs := by
  have hpay : msg.payload = [] := by simp [RpcMsg.payload, h]
  simp [RpcMsg.frame, RpcMsg.body, shortFrame, hpay, h]

theorem rpcIntfSendto_frame {sock : List UInt8 → ℤ} {buf buf' : StaticBuf} {msg : RpcMsg}
    {ret : ℤ} {frame : List UInt8} (h : rpcIntfSendto sock buf msg = some (ret, buf', frame)) :
    frame = msg.frame := by
  unfold rpcIntfSendto at h
  split at h
  · cases h
  · rename_i b len hser
    obtain ⟨hfit, hdata⟩ := rpcMsgSerialize_fits hser
    obtain ⟨b₂, hser₂, hsize, hframe⟩ := rpcMsgSerialize_eq buf.1 hfit hdata
    obtain ⟨rfl, rfl⟩ : b₂ = b ∧ _ = len := by simpa using hser₂.symm.trans hser
    rw [Block.read_eq (by omega), Option.map_some] at h
    cases h
    exact hframe

/-- Receiving a frame without payload gives back its header. -/
theorem rpcIntfRecvfrom_shortFrame {Addr : Type} (buf : StaticBuf) (rq : RpcMsg)
    (src : Addr) (store : Addr → Addr) (cmd : BitVec 7) (rqrs : BitVec 1) :
    ∃ rq', rpcIntfRecvfrom buf rq src (.datagram store (shortFrame cmd rqrs)) =
        some (4, buf.receive (shortFrame cmd rqrs), rq', store src) ∧
      rq'.cmd = cmd ∧ rq'.rqrs = rqrs ∧ rq'.dataLen = 0 := by
  have htake : (shortFrame cmd rqrs).take rpcBufferSize = shortFrame cmd rqrs := rfl
  have hsum : ((shortFrame cmd rqrs).take rpcBufferSize).sum = 0 := by
    rw [htake]
    simp [shortFrame]
  have hdecl : (buf.receive (shortFrame cmd rqrs)).declared = 0 := rfl
  have hsize := (buf.receive (shortFrame cmd rqrs)).2
  rw [rpcIntfRecvfrom_accept _ _ _ _ hsum, hdecl, Block.memcpy_eq (by omega) (by rw [hsize]; decide)]
  exact ⟨_, rfl, headByte_cmd cmd rqrs, headByte_rqrs cmd rqrs,
    UInt16.toNat_inj.mp ((ofNat_declaredLen ..).trans hdecl)⟩

/-! ### The invariant -/

/-- The bytes that a datagram of a client in round `i` must have. -/
def Packet.Carries (i : ℕ) : Packet ι → Prop
  | .toServer _ bytes => bytes = shortFrame (BitVec.ofNat 7 i) rqrsRequest
  | .toClient _ bytes => bytes = shortFrame (BitVec.ofNat 7 i) rqrsResponse

/-- How many of the datagrams in `m` come from or go to client `c`. -/
def packetsOf (m : Multiset (Packet ι)) (c : ι) : ℕ :=
  m.countP fun p => p.client = c

theorem packetsOf_cons (p : Packet ι) (m : Multiset (Packet ι)) (c : ι) :
    packetsOf (p ::ₘ m) c = packetsOf m c + if p.client = c then 1 else 0 :=
  Multiset.countP_cons ..

theorem packetsOf_pos {p : Packet ι} {m : Multiset (Packet ι)} (hp : p ∈ m) :
    0 < packetsOf m p.client :=
  Multiset.countP_pos.mpr ⟨p, hp, rfl⟩

/-- 1 if the server holds a request that it will answer to client `c`, else 0. -/
def Network.held (hosts : Hosts ι) (n : Network ι) (c : ι) : ℕ :=
  if n.replying = true ∧ hosts.receiver n.server.clientaddr = some c then 1 else 0

/-- How many tokens a client may own: one while it waits. -/
def ClientPc.tokens : ClientPc → ℕ
  | .waiting => 1
  | _ => 0

theorem ClientPc.tokens_le_one (pc : ClientPc) : pc.tokens ≤ 1 := by
  cases pc <;> decide

theorem ClientPc.eq_waiting_of_tokens_pos {pc : ClientPc} (h : 0 < pc.tokens) :
    pc = .waiting := by
  cases pc <;> first | rfl | exact absurd h (by decide)

/-- The pairing invariant. -/
structure Network.Inv (hosts : Hosts ι) (n : Network ι) : Prop where
  /-- A client that waits owns at most one token, any other client none. -/
  tokens : ∀ c, packetsOf n.flight c + n.held hosts c ≤ (n.clients c).pc.tokens
  /-- A datagram in flight belongs to the present round of its client. -/
  flight : ∀ p ∈ n.flight, p.Carries (n.clients p.client).i
  /-- So does the request that the server holds. -/
  holds : n.replying = true → ∀ c, hosts.receiver n.server.clientaddr = some c →
    n.server.rq.cmd = BitVec.ofNat 7 (n.clients c).i ∧ n.server.rq.dataLen = 0
  /-- A client in its loop is in one of the rounds 0..15. -/
  round : ∀ c, (n.clients c).pc ≠ .done → (n.clients c).i ≤ 0xF
  /-- The address of the next sender will be stored. -/
  stores : hosts.StoresSender n.server.clientaddr

section Invariant

variable {hosts : Hosts ι} {n : Network ι}

theorem Network.Inv.start (h : n.Start) (hstores : hosts.StoresSender n.server.clientaddr) :
    n.Inv hosts := by
  obtain ⟨hclients, hidle, hflight⟩ := h
  refine ⟨fun c => ?_, fun p hp => ?_, fun hr => ?_, fun c _ => ?_, hstores⟩
  · simp [packetsOf, Network.held, hidle, hflight]
  · rw [hflight] at hp
    exact absurd hp (Multiset.notMem_zero p)
  · rw [hidle] at hr
    cases hr
  · rw [(hclients c).1]
    exact Nat.zero_le _

/-- A datagram in flight is the only token of its client: the client waits, and
neither the server nor the rest of the network has another one. -/
theorem Network.Inv.token (h : n.Inv hosts) {p : Packet ι} {rest : Multiset (Packet ι)}
    (hflight : n.flight = p ::ₘ rest) :
    (n.clients p.client).pc = .waiting ∧ n.held hosts p.client = 0 ∧
      packetsOf rest p.client = 0 := by
  have htok := h.tokens p.client
  rw [hflight, packetsOf_cons, if_pos rfl] at htok
  have hone := (n.clients p.client).pc.tokens_le_one
  exact ⟨ClientPc.eq_waiting_of_tokens_pos (by omega), by omega, by omega⟩

/-- When the server holds no request of `c`, changing the state of `c` does not
touch what it holds. -/
theorem Network.Inv.holds_update (h : n.Inv hosts) {c : ι} (cl : Client)
    (hheld : n.held hosts c = 0) (hr : n.replying = true) (d : ι)
    (hd : hosts.receiver n.server.clientaddr = some d) :
    n.server.rq.cmd = BitVec.ofNat 7 (Function.update n.clients c cl d).i ∧
      n.server.rq.dataLen = 0 := by
  have hne : d ≠ c := by
    rintro rfl
    have : n.held hosts d = 1 := if_pos ⟨hr, hd⟩
    omega
  rw [Function.update_of_ne hne]
  exact h.holds hr d hd

/-! ### Steps -/

variable {sock : List UInt8 → ℤ}

theorem Network.Inv.clientSend (h : n.Inv hosts) {c : ι} {cl : Client} {frame : List UInt8}
    (hpc : (n.clients c).pc = .sending) (hsend : (n.clients c).send sock = some (cl, frame)) :
    Network.Inv hosts { n with clients := Function.update n.clients c cl
                               flight := .toServer c frame ::ₘ n.flight } := by
  obtain ⟨⟨ret, buf, fr⟩, hr, hcl⟩ := Option.map_eq_some_iff.mp hsend
  obtain ⟨rfl, rfl⟩ := Prod.mk.inj hcl
  have hfr : fr = shortFrame (BitVec.ofNat 7 (n.clients c).i) rqrsRequest :=
    (rpcIntfSendto_frame hr).trans (RpcMsg.frame_of_dataLen rfl)
  -- the client that sends owns no token yet
  have hfree : packetsOf n.flight c + n.held hosts c ≤ 0 := by
    have := h.tokens c
    rwa [hpc] at this
  refine ⟨fun d => ?_, fun p hp => ?_, h.holds_update _ (by omega), fun d hd => ?_, h.stores⟩
  · show packetsOf (.toServer c fr ::ₘ n.flight) d + n.held hosts d
      ≤ (Function.update n.clients c _ d).pc.tokens
    rw [packetsOf_cons, Packet.client_toServer]
    rcases eq_or_ne d c with rfl | hdc
    · rw [Function.update_self, if_pos rfl]
      show _ ≤ 1
      omega
    · rw [Function.update_of_ne hdc, if_neg (Ne.symm hdc)]
      exact h.tokens d
  · dsimp only at hp ⊢
    rcases Multiset.mem_cons.mp hp with rfl | hold
    · rw [Packet.client_toServer, Function.update_self]
      exact hfr
    · have hne : p.client ≠ c := by
        rintro rfl
        have := packetsOf_pos hold
        omega
      rw [Function.update_of_ne hne]
      exact h.flight p hold
  · dsimp only at hd ⊢
    rcases eq_or_ne d c with rfl | hdc
    · rw [Function.update_self]
      exact h.round d (by rw [hpc]; decide)
    · rw [Function.update_of_ne hdc] at hd ⊢
      exact h.round d hd

theorem Network.Inv.clientRecv (h : n.Inv hosts) {c : ι} {cl : Client} {bytes : List UInt8}
    {rest : Multiset (Packet ι)} (hflight : n.flight = .toClient c bytes ::ₘ rest)
    (hrecv : (n.clients c).recv bytes = some cl) :
    Network.Inv hosts { n with clients := Function.update n.clients c cl, flight := rest } := by
  obtain ⟨r, -, rfl⟩ := Option.map_eq_some_iff.mp hrecv
  obtain ⟨-, hheld, hrest⟩ := h.token hflight
  rw [Packet.client_toClient] at hheld hrest
  refine ⟨fun d => ?_, fun p hp => ?_, h.holds_update _ hheld, fun d hd => ?_, h.stores⟩
  · show packetsOf rest d + n.held hosts d ≤ (Function.update n.clients c _ d).pc.tokens
    rcases eq_or_ne d c with rfl | hdc
    · omega
    · have htok := h.tokens d
      rw [hflight, packetsOf_cons] at htok
      rw [Function.update_of_ne hdc]
      omega
  · dsimp only at hp ⊢
    have hne : p.client ≠ c := by
      rintro rfl
      have := packetsOf_pos hp
      omega
    rw [Function.update_of_ne hne]
    exact h.flight p (by rw [hflight]; exact Multiset.mem_cons_of_mem hp)
  · dsimp only at hd ⊢
    rcases eq_or_ne d c with rfl | hdc
    · rw [Function.update_self] at hd ⊢
      by_contra hgt
      exact hd (if_neg hgt)
    · rw [Function.update_of_ne hdc] at hd ⊢
      exact h.round d hd

/-- The token moves from the network to the server. -/
theorem Network.Inv.serverRecv (h : n.Inv hosts) {c : ι} {src : RpcAddr} {sv : Server RpcAddr}
    {bytes : List UInt8} {rest : Multiset (Packet ι)}
    (hflight : n.flight = .toServer c bytes ::ₘ rest)
    (hsrc : n.server.clientaddr.recvfrom (hosts.sender c) = some src)
    (hrecv : n.server.recv (.datagram (fun _ => src) bytes) = some sv) :
    Network.Inv hosts { n with server := sv, replying := true, flight := rest } := by
  have hbytes : bytes = shortFrame (BitVec.ofNat 7 (n.clients c).i) rqrsRequest :=
    h.flight (.toServer c bytes) (by rw [hflight]; exact Multiset.mem_cons_self ..)
  obtain ⟨ret, buf, rq, src', hr, rfl⟩ := Server.recv_eq_some_iff.mp hrecv
  obtain ⟨rq', hr', hcmd, -, hlen⟩ := rpcIntfRecvfrom_shortFrame n.server.recvBuf n.server.rq
    n.server.clientaddr (fun _ => src) (BitVec.ofNat 7 (n.clients c).i) rqrsRequest
  rw [hbytes, hr'] at hr
  cases hr
  have hsender : ∀ d, hosts.receiver src = some d → d = c := fun d => h.stores.eq hsrc
  refine ⟨fun d => ?_, fun p hp => ?_, fun _ d hd => ?_, h.round, Hosts.storesSender_recvfrom hsrc⟩
  · have htok := h.tokens d
    rw [hflight, packetsOf_cons, Packet.client_toServer] at htok
    show packetsOf rest d + (if true = true ∧ hosts.receiver src = some d then 1 else 0) ≤ _
    simp only [true_and]
    by_cases hd : hosts.receiver src = some d
    · rw [if_pos (hsender d hd).symm] at htok
      rw [if_pos hd]
      omega
    · rw [if_neg hd]
      omega
  · exact h.flight p (by rw [hflight]; exact Multiset.mem_cons_of_mem hp)
  · rw [hsender d hd]
    exact ⟨hcmd, hlen⟩

/-- The token is lost. -/
theorem Network.Inv.serverRefuse (h : n.Inv hosts) {c : ι} {sv : Server RpcAddr}
    {bytes : List UInt8} {rest : Multiset (Packet ι)}
    (hflight : n.flight = .toServer c bytes ::ₘ rest)
    (hsrc : n.server.clientaddr.recvfrom (hosts.sender c) = none)
    (hrecv : n.server.recv .error = some sv) :
    Network.Inv hosts { n with server := { sv with recvBuf := sv.recvBuf.receive bytes }
                               replying := true, flight := rest } := by
  obtain ⟨ret, buf, rq, src', hr, rfl⟩ := Server.recv_eq_some_iff.mp hrecv
  cases hr
  have hnone : hosts.receiver n.server.clientaddr = none := Hosts.receiver_refused hsrc
  refine ⟨fun d => ?_, fun p hp => ?_, fun _ d hd => ?_, h.round, h.stores⟩
  · have htok := h.tokens d
    rw [hflight, packetsOf_cons] at htok
    rw [Network.held, if_neg (by simp [hnone])]
    show packetsOf rest d + 0 ≤ (n.clients d).pc.tokens
    omega
  · exact h.flight p (by rw [hflight]; exact Multiset.mem_cons_of_mem hp)
  · rw [hnone] at hd
    cases hd

omit [DecidableEq ι] in
/-- What the server puts in flight: its answer, where the address leads to a client. -/
theorem sent_reply (hosts : Hosts ι) (func : Option RpcFunc) (dst : RpcAddr) (msg : RpcMsg)
    (frame : List UInt8) :
    sent hosts (func.toList.map Effect.ran ++ [.sendto dst msg frame]) =
      ((hosts.receiver dst).map fun c => Packet.toClient c frame).toList := by
  cases func <;> cases hreceiver : hosts.receiver dst <;> simp [sent, hreceiver]

/-- The token moves from the server to the network. -/
theorem Network.Inv.serverReply (h : n.Inv hosts) {sv : Server RpcAddr}
    {effs : List (Effect RpcAddr)} (hreplying : n.replying = true)
    (hreply : n.server.reply sock = some (sv, effs)) :
    Network.Inv hosts { n with server := sv, replying := false
                               flight := sent hosts effs + n.flight } := by
  rw [Server.reply_eq] at hreply
  obtain ⟨⟨ret, buf, fr⟩, hr, hsv⟩ := Option.map_eq_some_iff.mp hreply
  obtain ⟨rfl, rfl⟩ := Prod.mk.inj hsv
  rw [sent_reply]
  rcases hclient : hosts.receiver n.server.clientaddr with _ | c
  · simp only [Option.map_none, Option.toList_none, Multiset.coe_nil, zero_add]
    refine ⟨fun d => ?_, h.flight, by rintro ⟨⟩, h.round, h.stores⟩
    have htok := h.tokens d
    show packetsOf n.flight d + 0 ≤ (n.clients d).pc.tokens
    omega
  · obtain ⟨hcmd, hlen⟩ := h.holds hreplying c hclient
    have hfr : fr = shortFrame (BitVec.ofNat 7 (n.clients c).i) rqrsResponse := by
      have hlen' : n.server.rq.response.dataLen = 0 := hlen
      rw [rpcIntfSendto_frame hr, RpcMsg.frame_of_dataLen hlen', ← hcmd]
      rfl
    simp only [Option.map_some, Option.toList_some, Multiset.coe_singleton, Multiset.singleton_add]
    refine ⟨fun d => ?_, fun p hp => ?_, by rintro ⟨⟩, h.round, h.stores⟩
    · have htok := h.tokens d
      rw [Network.held, hreplying, hclient] at htok
      show packetsOf (.toClient c fr ::ₘ n.flight) d + 0 ≤ _
      rw [packetsOf_cons, Packet.client_toClient]
      simp only [true_and, Option.some.injEq] at htok
      omega
    · rcases Multiset.mem_cons.mp hp with rfl | hp
      · exact hfr
      · exact h.flight p hp

theorem Network.Inv.drop (h : n.Inv hosts) {p : Packet ι} {rest : Multiset (Packet ι)}
    (hflight : n.flight = p ::ₘ rest) : Network.Inv hosts { n with flight := rest } := by
  refine ⟨fun d => ?_, fun q hq => ?_, h.holds, h.round, h.stores⟩
  · have htok := h.tokens d
    rw [hflight, packetsOf_cons] at htok
    show packetsOf rest d + n.held hosts d ≤ (n.clients d).pc.tokens
    omega
  · exact h.flight q (by rw [hflight]; exact Multiset.mem_cons_of_mem hq)

/-- Every step of every party keeps the invariant. -/
theorem Network.Inv.step {n' : Network ι} (h : n.Inv hosts) (hs : Network.Step hosts sock n n') :
    n'.Inv hosts := by
  cases hs with
  | clientSend c hpc hsend => exact h.clientSend hpc hsend
  | clientRecv c _ hflight hrecv => exact h.clientRecv hflight hrecv
  | serverRecv c _ hflight hsrc hrecv => exact h.serverRecv hflight hsrc hrecv
  | serverRefuse c _ hflight hsrc hrecv => exact h.serverRefuse hflight hsrc hrecv
  | serverReply hreplying hreply => exact h.serverReply hreplying hreply
  | drop hflight => exact h.drop hflight

theorem Network.Inv.of_reachable {n₀ : Network ι} (h₀ : n₀.Start)
    (hstores : hosts.StoresSender n₀.server.clientaddr)
    (h : Reachable (rpcSystem hosts sock n₀) n) : n.Inv hosts := by
  refine h.invariant ?_ fun _ _ => Network.Inv.step
  rintro _ rfl
  exact .start h₀ hstores

end Invariant

/-! ### Pairing -/

/-- What `rpc_intf_recvfrom` makes of `bytes` at a client is a response with
command code `cmd`. -/
def Client.DecodesResponse (c : Client) (bytes : List UInt8) (cmd : ℕ) : Prop :=
  ∃ ret buf msg, rpcIntfRecvfrom c.recvBuf c.msg () (.datagram id bytes)
      = some (ret, buf, msg, ()) ∧
    0 ≤ ret ∧ msg.cmd.toNat = cmd ∧ msg.rqrs = rqrsResponse

/-- Each client has at most one datagram in flight, and whatever a client can receive
while it waits decodes to the response to its request. -/
def Network.Paired (n : Network ι) : Prop :=
  ∀ c, packetsOf n.flight c ≤ 1 ∧
    ∀ bytes, .toClient c bytes ∈ n.flight → (n.clients c).pc = .waiting →
      (n.clients c).DecodesResponse bytes (n.clients c).i

theorem Network.Inv.paired {hosts : Hosts ι} {n : Network ι} (h : n.Inv hosts) : n.Paired := by
  intro c
  constructor
  · have htok := h.tokens c
    have hone := (n.clients c).pc.tokens_le_one
    omega
  · intro bytes hmem hwait
    have hbytes : bytes = shortFrame (BitVec.ofNat 7 (n.clients c).i) rqrsResponse :=
      h.flight _ hmem
    have hround := h.round c (by rw [hwait]; decide)
    obtain ⟨msg, hr, hcmd, hrqrs, -⟩ := rpcIntfRecvfrom_shortFrame (n.clients c).recvBuf
      (n.clients c).msg () id (BitVec.ofNat 7 (n.clients c).i) rqrsResponse
    refine ⟨4, _, msg, hbytes ▸ hr, by decide, ?_, hrqrs⟩
    rw [hcmd, BitVec.toNat_ofNat]
    omega

section Runs

variable {hosts : Hosts ι} {sock : List UInt8 → ℤ} {n₀ n : Network ι}

/-- A client that is about to send can do so. -/
theorem exists_clientSend (h : Reachable (rpcSystem hosts sock n₀) n) {c : ι}
    (hpc : (n.clients c).pc = .sending) :
    ∃ cl, Reachable (rpcSystem hosts sock n₀)
      { n with clients := Function.update n.clients c cl
               flight := .toServer c (shortFrame (BitVec.ofNat 7 (n.clients c).i) rqrsRequest) ::ₘ
                 n.flight } := by
  obtain ⟨⟨ret, buf, fr⟩, hsendto⟩ := Option.isSome_iff_exists.mp
    ((rpcIntfSendto_isSome_iff sock (n.clients c).sendBuf (n.clients c).request).mpr
      ⟨by simp [Client.request, rpcBufferSize], Nat.zero_le _⟩)
  have hframe : fr = shortFrame (BitVec.ofNat 7 (n.clients c).i) rqrsRequest :=
    (rpcIntfSendto_frame hsendto).trans (RpcMsg.frame_of_dataLen rfl)
  refine ⟨{ n.clients c with msg := (n.clients c).request, sendBuf := buf, pc := .waiting },
    h.step ?_⟩
  rw [← hframe]
  exact Network.Step.clientSend c hpc (Option.map_eq_some_iff.mpr ⟨_, hsendto, rfl⟩)

/-- The request of one client goes through the server, and the answer to where the
address structure leads. -/
theorem exists_reply (sock : List UInt8 → ℤ) (h₀ : n₀.Start) {c : ι} {src : RpcAddr}
    (hsrc : n₀.server.clientaddr.recvfrom (hosts.sender c) = some src) :
    ∃ n fr, Reachable (rpcSystem hosts sock n₀) n ∧
      n.flight = ((hosts.receiver src).map fun d => Packet.toClient d fr).toList ∧
      ∀ d ≠ c, n.clients d = n₀.clients d := by
  obtain ⟨hclients, hidle, hflight⟩ := h₀
  have hstart : Reachable (rpcSystem hosts sock n₀) n₀ := .init rfl
  obtain ⟨cl, h₁⟩ := exists_clientSend hstart (hclients c).2
  -- the server receives
  obtain ⟨rq, hrecv, -, -, hlen⟩ := rpcIntfRecvfrom_shortFrame n₀.server.recvBuf n₀.server.rq
    n₀.server.clientaddr (fun _ => src) (BitVec.ofNat 7 (n₀.clients c).i) rqrsRequest
  have h₂ := h₁.step (Network.Step.serverRecv c hidle rfl hsrc
    (Server.recv_eq_some_iff.mpr ⟨_, _, _, _, hrecv, rfl⟩))
  -- and replies
  obtain ⟨⟨ret, buf, fr⟩, hreply⟩ := Option.isSome_iff_exists.mp
    ((rpcIntfSendto_isSome_iff sock n₀.server.sendBuf rq.response).mpr
      (by simp [RpcMsg.response, hlen, rpcBufferSize]))
  have h₃ := h₂.step (Network.Step.serverReply rfl
    ((Server.reply_eq ..).trans (Option.map_eq_some_iff.mpr ⟨_, hreply, rfl⟩)))
  refine ⟨_, fr, h₃, ?_, fun d hd => Function.update_of_ne hd ..⟩
  rw [sent_reply, hflight, add_zero]

/-- Otherwise the answer to a client goes to another one, which sends its own request
then. -/
theorem storesSender_of_paired (h₀ : n₀.Start)
    (hpaired : ∀ n, Reachable (rpcSystem hosts sock n₀) n → n.Paired) :
    hosts.StoresSender n₀.server.clientaddr := by
  by_contra hnot
  simp only [Hosts.StoresSender, not_or, not_le, not_forall] at hnot
  obtain ⟨hlen, c, d, hd, hne⟩ := hnot
  have hsrc : n₀.server.clientaddr.recvfrom (hosts.sender c) =
      some (n₀.server.clientaddr.stored (hosts.sender c)) := if_pos (by omega)
  obtain ⟨n, fr, hreach, hflight, hothers⟩ := exists_reply sock h₀ hsrc
  have hpc : (n.clients d).pc = .sending := by
    rw [hothers d hne]
    exact (h₀.1 d).2
  obtain ⟨cl, hreach'⟩ := exists_clientSend hreach hpc
  have htwo := (hpaired _ hreach' d).1
  rw [hflight, hd, packetsOf_cons, Packet.client_toServer, if_pos rfl] at htwo
  have hone := packetsOf_pos (m := [Packet.toClient d fr]) (p := .toClient d fr) (by simp)
  simp only [Packet.client_toClient] at hone
  exact absurd hone (by simpa using htwo)

/-- **Requests and responses pair up** in every run of any number of clients, exactly
when the address structure of the server stores the first sender. -/
theorem rpc_pairing_iff (hosts : Hosts ι) (sock : List UInt8 → ℤ) (h₀ : n₀.Start) :
    (∀ n, Reachable (rpcSystem hosts sock n₀) n → n.Paired) ↔
      hosts.StoresSender n₀.server.clientaddr :=
  ⟨storesSender_of_paired h₀, fun hstores _ hreach =>
    (Network.Inv.of_reachable h₀ hstores hreach).paired⟩

end Runs

/-- Two clients at 127.0.0.1, with the ports 40000 and 40001. -/
def twoHosts : Hosts Bool where
  addr := fun c => (0x7f000001, if c then 40001 else 40000)
  owner := fun a => if a = (0x7f000001, 40001) then some true
    else if a = (0x7f000001, 40000) then some false else none
  owner_addr := by decide

/-- Before the first request, with zeros in the locals and `clientaddr` as it is given. -/
def startNetwork (clientaddr : RpcAddr) : Network Bool where
  clients := fun _ => ⟨0, .sending, ⟨0, 0, 0, ⟨0, fun _ => 0⟩⟩, idleServer.sendBuf,
    idleServer.recvBuf⟩
  server := { idleServer with clientaddr }
  replying := false
  flight := 0

theorem startNetwork_start (clientaddr : RpcAddr) : (startNetwork clientaddr).Start :=
  ⟨fun _ => ⟨rfl, rfl⟩, rfl, rfl⟩

theorem twoHosts_sendto : ∀ c, (twoHosts.sender c).sendto = some (twoHosts.addr c) := by
  decide +kernel

/-- With a length that was set, an answer gets into flight, and all of them pair up. -/
theorem rpc_pairing_iff_clearedAddr :
    let runs := rpcSystem twoHosts (fun frame => frame.length) (startNetwork clearedAddr)
    (∃ n, Reachable runs n ∧ ∃ fr, .toClient false fr ∈ n.flight) ∧
      ∀ n, Reachable runs n → n.Paired := by
  intro runs
  have hstores : twoHosts.StoresSender clearedAddr := .inl (by decide)
  refine ⟨?_, (rpc_pairing_iff twoHosts _ (startNetwork_start _)).mpr hstores⟩
  have hsrc : clearedAddr.recvfrom (twoHosts.sender false) = some (twoHosts.sender false) :=
    (if_pos (by decide)).trans (congrArg some (RpcAddr.ext (by decide +kernel) rfl))
  obtain ⟨n, fr, hreach, hflight, -⟩ := exists_reply _ (startNetwork_start _) hsrc
  refine ⟨n, hreach, fr, ?_⟩
  rw [hflight, Hosts.receiver_of_sendto (twoHosts_sendto false)]
  simp

/-- The address of the second client, which an earlier call has left on the stack, with
a length of 0: the answer to the first client goes to the second one. -/
def staleAddr : RpcAddr := { twoHosts.sender true with len := 0 }

theorem not_rpc_pairing :
    ¬ ∀ n, Reachable (rpcSystem twoHosts (fun frame => frame.length) (startNetwork staleAddr)) n →
      n.Paired := by
  have hstores : ¬ twoHosts.StoresSender staleAddr := by
    rintro (hlen | hother)
    · exact absurd hlen (by decide)
    · have hsrc : (staleAddr.stored (twoHosts.sender false)).sendto = some (twoHosts.addr true) := by
        decide +kernel
      exact absurd (hother false true (Hosts.receiver_of_sendto hsrc)) (by decide)
  exact fun hpaired => hstores (storesSender_of_paired (startNetwork_start staleAddr) hpaired)

end CodeSnippet
