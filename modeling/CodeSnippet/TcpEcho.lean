/-
CodeSnippet/TcpEcho.lean

The echo server of src/socket/tcp/server_blocked.c and its clients
(src/socket/tcp/client.c), any number of them.  A connection is two channels of
bytes, which `send` and `recv` cut where they like; the server serves one
connection at a time, and all of them with one buffer that it never clears.

Main results:
  * `echoed_sublist` — no client receives a byte that it has not sent, none
    twice, and none out of order.
  * `echoed_prefix` — as long as the server's calls of `send` take all bytes, it
    receives the first bytes that it has sent.
-/
import CodeSnippet.CharStream
import CodeSnippet.TextFile
import CodeSnippet.Transition

namespace CodeSnippet

open Memory Transition TextFile

variable {ι : Type} [DecidableEq ι]

/-! ### Channels -/

namespace EchoChannel

/-- Some bytes are sent. -/
def put (c : Fifo UInt8) (l : List UInt8) : Fifo UInt8 :=
  { c with queue := c.queue ++ l, sent := c.sent ++ l }

/-- `n` bytes are received. -/
def get (c : Fifo UInt8) (n : ℕ) : Fifo UInt8 :=
  { c with queue := c.queue.drop n, received := c.received ++ c.queue.take n }

/-- A channel that is used with `put` and `get` only. -/
def Sound (c : Fifo UInt8) : Prop := Reachable (Fifo.system UInt8) c

theorem sound_empty : Sound ⟨[], [], []⟩ := .init rfl

theorem Sound.put {c : Fifo UInt8} (h : Sound c) (l : List UInt8) : Sound (put c l) :=
  h.step (.put c l)

theorem Sound.get {c : Fifo UInt8} (h : Sound c) (n : ℕ) : Sound (get c n) :=
  h.step (.get c _ _ (List.take_append_drop n c.queue).symm)

/-- What was received is what was sent first. -/
theorem Sound.prefix {c : Fifo UInt8} (h : Sound c) : c.received <+: c.sent :=
  ⟨c.queue, Fifo.conservation h⟩

end EchoChannel

open EchoChannel

/-! ### The parties -/

/-- `strncmp(b, "quit", 4) == 0 || strncmp(b, "exit", 4) == 0` -/
def isQuit (b : Block UInt8) : Bool := b.cells 0 4 == bytes "quit" || b.cells 0 4 == bytes "exit"

/-- What a client does next. -/
inductive EchoPc
  | fgets | recv | done
  deriving DecidableEq

/-- A client, with the texts that it has sent and the return codes and texts that
it has printed; there is no text where the string does not end in the buffer. -/
structure EchoClient where
  pc : EchoPc
  stdin : List UInt8
  sendBuf : Block UInt8
  recvBuf : Block UInt8
  asked : List (List UInt8)
  shown : List (ℕ × Option (List UInt8))

/-- `fgets(send_buf, BUF_SIZE, stdin)`, which leaves the buffer as it is at the
end of the input. -/
def EchoClient.fill (c : EchoClient) : Block UInt8 × List UInt8 :=
  (fgets c.sendBuf c.stdin).getD (c.sendBuf, c.stdin)

/-- The string that `send` is called with. -/
def EchoClient.text (c : EchoClient) : Option (List UInt8) := c.fill.1.cstr 0

/-- What the server does with a connection. -/
inductive EchoStage
  | backlog | recv | send (recvlen : ℕ) | closed
  deriving DecidableEq

/-- A client, the bytes in both directions, and the state of the connection. -/
structure EchoConn where
  client : EchoClient
  up : Fifo UInt8
  down : Fifo UInt8
  stage : EchoStage

/-- The connections, the one that is served, and the buffer of the server with
the texts that it has printed. -/
structure Echo (ι : Type) where
  conn : ι → EchoConn
  serving : Option ι
  buf : Block UInt8
  printed : List (Option (List UInt8))

def Echo.setConn (s : Echo ι) (i : ι) (c : EchoConn) : Echo ι :=
  { s with conn := Function.update s.conn i c }

/-- The calls that return, with what they return. -/
inductive EchoEvent (ι : Type)
  | clientSend (i : ι) (ret : ℕ)
  | clientSendFails (i : ι)
  | clientRecv (i : ι) (ret : ℕ)
  | clientRecvFails (i : ι)
  | accept (i : ι)
  | serverRecv (ret : ℕ)
  | serverRecvFails
  | serverSend (ret : ℕ)
  | serverSendFails

/-- `close(clientfd)`, and back to `accept`. -/
def Echo.hangUp (s : Echo ι) (i : ι) : Echo ι :=
  { s.setConn i { s.conn i with stage := .closed } with serving := none }

/-- `recv` into the buffer, over what it holds, and `printf`. -/
def Echo.receive (s : Echo ι) (i : ι) (ret : ℕ) : Echo ι :=
  let buf := s.buf.overlay ((s.conn i).up.queue.take ret)
  { s.setConn i { s.conn i with up := get (s.conn i).up ret, stage := .send ret } with
    buf := buf
    printed := s.printed ++ [buf.cstr 0] }

/-- A call of a client.  `recv` returns 0 when the server has closed the
connection and nothing is left to receive. -/
def EchoConn.takeSend (c : EchoConn) (ret : ℕ) : Option EchoConn :=
  match c.client.pc, c.client.text with
  | .fgets, some text =>
      if ret ≤ text.length then
        let (sendBuf, stdin) := c.client.fill
        some { c with
          up := put c.up (text.take ret)
          client := { c.client with
            pc := if isQuit sendBuf then .done else .recv
            stdin := stdin
            sendBuf := sendBuf
            asked := c.client.asked ++ [text] } }
      else none
  | _, _ => none

def EchoConn.takeRecv (c : EchoConn) (ret : ℕ) : Option EchoConn :=
  if c.client.pc = .recv ∧ ret ≤ c.client.recvBuf.size ∧ ret ≤ c.down.queue.length ∧
      (ret = 0 → c.down.queue = [] ∧ c.stage = .closed) then
    -- `memset` and `recv`
    let recvBuf := (c.client.recvBuf.fillIn 0 0 c.client.recvBuf.size).overlay
      (c.down.queue.take ret)
    some { c with
      down := get c.down ret
      client := { c.client with
        pc := .fgets
        recvBuf := recvBuf
        shown := c.client.shown ++ [(ret, recvBuf.cstr 0)] } }
  else none

/-- A client that leaves its loop. -/
def EchoConn.leave (c : EchoConn) : EchoConn := { c with client := { c.client with pc := .done } }

/-- One call of a client or of the server. -/
def Echo.take (s : Echo ι) : EchoEvent ι → Option (Echo ι)
  | .clientSend i ret => ((s.conn i).takeSend ret).map (s.setConn i)
  | .clientSendFails i =>
      if (s.conn i).client.pc = .fgets then some (s.setConn i (s.conn i).leave) else none
  | .clientRecv i ret => ((s.conn i).takeRecv ret).map (s.setConn i)
  | .clientRecvFails i =>
      if (s.conn i).client.pc = .recv then some (s.setConn i (s.conn i).leave) else none
  | .accept i =>
      if s.serving = none ∧ (s.conn i).stage = .backlog then
        some { s.setConn i { s.conn i with stage := .recv } with serving := some i }
      else none
  | .serverRecv ret => do
      let i ← s.serving
      let c := s.conn i
      if c.stage = .recv ∧ ret ≤ s.buf.size ∧ ret ≤ c.up.queue.length then
        if ret = 0 then
          -- the client has closed the connection, and has sent nothing more
          if c.client.pc = .done ∧ c.up.queue = [] then some (s.hangUp i) else none
        else
          let s := s.receive i ret
          some (if isQuit s.buf then s.hangUp i else s)
      else none
  | .serverRecvFails => do
      let i ← s.serving
      if (s.conn i).stage = .recv then some (s.hangUp i) else none
  | .serverSend ret => do
      let i ← s.serving
      match (s.conn i).stage with
      | .send recvlen =>
          if 0 < ret ∧ ret ≤ recvlen then
            some (s.setConn i { s.conn i with
              down := put (s.conn i).down (s.buf.cells 0 ret)
              stage := .recv })
          else none
      | _ => none
  | .serverSendFails => do
      let i ← s.serving
      match (s.conn i).stage with
      | .send _ => some (s.hangUp i)
      | _ => none

/-- The connection of a client before its first call. -/
def newConn (stdin : List UInt8) : EchoConn where
  client := ⟨.fgets, stdin, ⟨64, fun _ => 0⟩, ⟨64, fun _ => 0⟩, [], []⟩
  up := ⟨[], [], []⟩
  down := ⟨[], [], []⟩
  stage := .backlog

/-- The clients with their input, and the server in front of its loop. -/
def newEcho (stdin : ι → List UInt8) : Echo ι where
  conn := fun i => newConn (stdin i)
  serving := none
  buf := ⟨1024, fun _ => 0⟩
  printed := []

def tcpEcho (stdin : ι → List UInt8) : EventSystem (Echo ι) (EchoEvent ι) where
  init := fun s => s = newEcho stdin
  take := Echo.take

/-! ### One connection by itself -/

/-- Every call of `send` takes all the bytes. -/
def Echo.WholeSend (s : Echo ι) : EchoEvent ι → Prop
  | .serverSend ret => ∀ i, s.serving = some i → (s.conn i).stage = .send ret
  | _ => True

/-- Every call takes as many bytes as there are, or as there is room for. -/
def Echo.Whole (s : Echo ι) : EchoEvent ι → Prop
  | .clientSend i ret => (s.conn i).client.text.map List.length = some ret
  | .clientRecv i ret =>
      ret = min (s.conn i).client.recvBuf.size (s.conn i).down.queue.length
  | .serverRecv ret => ∀ i, s.serving = some i →
      ret = min s.buf.size (s.conn i).up.queue.length
  | .serverSend ret => s.WholeSend (.serverSend ret)
  | _ => True

/-- What can happen to one connection, with the bytes that wait to be sent back.
Under `whole` the calls take all bytes, under `wholeSend` the server's `send`
does. -/
inductive ConnStep (whole wholeSend : Prop) :
    EchoConn × List UInt8 → EchoConn × List UInt8 → Prop
  | clientSend {c c' : EchoConn} {ret : ℕ} (p : List UInt8) (h : c.takeSend ret = some c')
      (hw : whole → c.client.text.map List.length = some ret) :
      ConnStep whole wholeSend (c, p) (c', p)
  | clientRecv {c c' : EchoConn} {ret : ℕ} (p : List UInt8) (h : c.takeRecv ret = some c')
      (hw : whole → ret = min c.client.recvBuf.size c.down.queue.length) :
      ConnStep whole wholeSend (c, p) (c', p)
  | leave (c : EchoConn) (p : List UInt8) : ConnStep whole wholeSend (c, p) (c.leave, p)
  | accept {c : EchoConn} (p : List UInt8) (h : c.stage = .backlog) :
      ConnStep whole wholeSend (c, p) ({ c with stage := .recv }, [])
  | serverRecv {c : EchoConn} {ret : ℕ} (p : List UInt8) (h : c.stage = .recv) (hpos : 0 < ret)
      (hle : ret ≤ c.up.queue.length) (hw : whole → ret = min 1024 c.up.queue.length) :
      ConnStep whole wholeSend (c, p)
        ({ c with up := get c.up ret, stage := .send ret }, c.up.queue.take ret)
  | quit {c : EchoConn} {ret : ℕ} (p : List UInt8) (h : c.stage = .recv)
      (hle : ret ≤ c.up.queue.length) (hw : whole → ret = min 1024 c.up.queue.length) :
      ConnStep whole wholeSend (c, p) ({ c with up := get c.up ret, stage := .closed }, [])
  | serverSend {c : EchoConn} {ret recvlen : ℕ} (p : List UInt8) (h : c.stage = .send recvlen)
      (hpos : 0 < ret) (hw : wholeSend → ret = recvlen) :
      ConnStep whole wholeSend (c, p)
        ({ c with down := put c.down (p.take ret), stage := .recv }, [])
  | hangUp {c : EchoConn} (p : List UInt8) (h : c.stage ≠ .backlog) (hc : c.stage ≠ .closed) :
      ConnStep whole wholeSend (c, p) ({ c with stage := .closed }, [])

def connSystem (whole wholeSend : Prop) (stdin : List UInt8) : System (EchoConn × List UInt8) where
  init := fun v => v = (newConn stdin, [])
  step := ConnStep whole wholeSend

/-- The bytes that wait to be sent back. -/
def Echo.pending (s : Echo ι) (i : ι) : List UInt8 :=
  match (s.conn i).stage with
  | .send recvlen => s.buf.cells 0 recvlen
  | _ => []

/-- The connection that the server works on is the one that it serves. -/
structure Echo.Serves (s : Echo ι) : Prop where
  serving : ∀ i, (s.conn i).stage ≠ .backlog → (s.conn i).stage ≠ .closed → s.serving = some i
  buf_size : s.buf.size = 1024

section Steps

variable {s s' : Echo ι} {i j : ι} {c : EchoConn}

@[simp] theorem setConn_self (s : Echo ι) (i : ι) (c : EchoConn) : (s.setConn i c).conn i = c :=
  Function.update_self ..

theorem setConn_ne (hji : j ≠ i) (s : Echo ι) (c : EchoConn) :
    (s.setConn i c).conn j = s.conn j :=
  Function.update_of_ne hji ..

omit [DecidableEq ι] in
/-- The bytes that wait on a connection depend on its stage and on the buffer. -/
theorem pending_congr (hstage : (s'.conn i).stage = (s.conn i).stage)
    (hbuf : ∀ n, (s.conn i).stage = .send n → s'.buf = s.buf) : s'.pending i = s.pending i := by
  rw [Echo.pending, Echo.pending, hstage]
  rcases hs : (s.conn i).stage with _ | _ | n | _
  · rfl
  · rfl
  · rw [hbuf n hs]
  · rfl

/-- What a client sends. -/
theorem takeSend_cases {c' : EchoConn} {ret : ℕ} (h : c.takeSend ret = some c') :
    ∃ text, c.client.pc = .fgets ∧ c.client.text = some text ∧ ret ≤ text.length ∧
      c' = { c with
        up := put c.up (text.take ret)
        client := { c.client with
          pc := if isQuit c.client.fill.1 then .done else .recv
          stdin := c.client.fill.2
          sendBuf := c.client.fill.1
          asked := c.client.asked ++ [text] } } := by
  rw [EchoConn.takeSend] at h
  split at h
  · rename_i text hpc htext
    obtain ⟨hle, hret⟩ := Option.ite_none_right_eq_some.mp h
    cases hret
    exact ⟨text, hpc, htext, hle, rfl⟩
  · cases h

/-- What it receives. -/
theorem takeRecv_cases {c' : EchoConn} {ret : ℕ} (h : c.takeRecv ret = some c') :
    c.client.pc = .recv ∧ ret ≤ c.client.recvBuf.size ∧
      (ret = 0 → c.down.queue = [] ∧ c.stage = .closed) ∧ ret ≤ c.down.queue.length ∧
      c' = { c with
        down := get c.down ret
        client := { c.client with
          pc := .fgets
          recvBuf := (c.client.recvBuf.fillIn 0 0 c.client.recvBuf.size).overlay
            (c.down.queue.take ret)
          shown := c.client.shown ++ [(ret, ((c.client.recvBuf.fillIn 0 0
            c.client.recvBuf.size).overlay (c.down.queue.take ret)).cstr 0)] } } := by
  obtain ⟨⟨hpc, hsize, hle, hzero⟩, hret⟩ := Option.ite_none_right_eq_some.mp h
  cases hret
  exact ⟨hpc, hsize, hzero, hle, rfl⟩

/-- What a step of the system is for its connections: one of them takes a step of
its own, and the others do not notice. -/
structure StepOf (whole wholeSend : Prop) (s s' : Echo ι) (i : ι) : Prop where
  others : ∀ j, j ≠ i → s'.conn j = s.conn j ∧ s'.pending j = s.pending j
  own : ConnStep whole wholeSend (s.conn i, s.pending i) (s'.conn i, s'.pending i)
  serves : s'.Serves

/-- A call of a client. -/
theorem stepOf_client {whole wholeSend : Prop} (hs : s.Serves)
    (hstage : c.stage = (s.conn i).stage)
    (hstep : ConnStep whole wholeSend (s.conn i, s.pending i) (c, s.pending i)) :
    StepOf whole wholeSend s (s.setConn i c) i := by
  have hpending : (s.setConn i c).pending i = s.pending i :=
    pending_congr (by rw [setConn_self, hstage]) fun _ _ => rfl
  refine ⟨fun j hj => ?_, ?_, ⟨fun j hb hc => ?_, hs.buf_size⟩⟩
  · have hconn := setConn_ne hj s c
    exact ⟨hconn, pending_congr (by rw [hconn]) fun _ _ => rfl⟩
  · rw [hpending, setConn_self]
    exact hstep
  · by_cases hj : j = i
    · subst hj
      rw [setConn_self, hstage] at hb hc
      exact hs.serving j hb hc
    · rw [setConn_ne hj] at hb hc
      exact hs.serving j hb hc

/-- A step of the server, on the connection that it serves or begins to serve. -/
theorem stepOf_server {whole wholeSend : Prop} (hs : s.Serves)
    (hserving : s.serving = none ∨ s.serving = some i) (hconn : ∀ j, j ≠ i → s'.conn j = s.conn j)
    (hown : ConnStep whole wholeSend (s.conn i, s.pending i) (s'.conn i, s'.pending i))
    (hnext : (s'.conn i).stage ≠ .backlog → (s'.conn i).stage ≠ .closed → s'.serving = some i)
    (hsize : s'.buf.size = s.buf.size) : StepOf whole wholeSend s s' i := by
  -- no other connection is being served
  have hidle : ∀ j, j ≠ i → (s.conn j).stage = .backlog ∨ (s.conn j).stage = .closed := by
    intro j hj
    by_contra hactive
    rw [not_or] at hactive
    have hj' := hs.serving j hactive.1 hactive.2
    rcases hserving with hnone | hsome
    · rw [hnone] at hj'
      cases hj'
    · rw [hsome] at hj'
      exact hj (Option.some.inj hj').symm
  refine ⟨fun j hj => ⟨hconn j hj, pending_congr (by rw [hconn j hj]) fun n hn => ?_⟩, hown,
    ⟨fun j hb hc => ?_, hsize.trans hs.buf_size⟩⟩
  · rcases hidle j hj with h | h
    · rw [h] at hn
      cases hn
    · rw [h] at hn
      cases hn
  · by_cases hj : j = i
    · subst hj
      exact hnext hb hc
    · rw [hconn j hj] at hb hc
      exact ((hidle j hj).elim hb hc).elim

/-- The server closes a connection. -/
theorem stepOf_hangUp {whole wholeSend : Prop} (hs : s.Serves) (hserving : s.serving = some i)
    (hb : (s.conn i).stage ≠ .backlog) (hc : (s.conn i).stage ≠ .closed) :
    StepOf whole wholeSend s (s.hangUp i) i := by
  have hself : (s.hangUp i).conn i = { s.conn i with stage := .closed } := setConn_self s i _
  have hpending : (s.hangUp i).pending i = [] := by rw [Echo.pending, hself]
  refine stepOf_server hs (.inr hserving) (fun j hj => setConn_ne hj s _) ?_ (fun _ hcl => ?_) rfl
  · rw [hself, hpending]
    exact .hangUp _ hb hc
  · exact absurd (congrArg EchoConn.stage hself) hcl

theorem take_serverRecv {whole wholeSend : Prop} (hs : s.Serves) {ret : ℕ}
    (hwhole : whole → s.Whole (.serverRecv ret)) (h : s.take (.serverRecv ret) = some s') :
    ∃ i, StepOf whole wholeSend s s' i := by
  obtain ⟨i, hserving, h⟩ := Option.bind_eq_some_iff.mp h
  obtain ⟨⟨hstage, -, hle⟩, h⟩ := Option.ite_none_right_eq_some.mp h
  have hw : whole → ret = min 1024 (s.conn i).up.queue.length := by
    intro hwh
    rw [← hs.buf_size]
    exact hwhole hwh i hserving
  by_cases hzero : ret = 0
  · -- the client has closed its end
    rw [if_pos hzero] at h
    obtain ⟨-, hret⟩ := Option.ite_none_right_eq_some.mp h
    cases hret
    exact ⟨i, stepOf_hangUp hs hserving (by rw [hstage]; decide) (by rw [hstage]; decide)⟩
  rw [if_neg hzero] at h
  have hlen : ((s.conn i).up.queue.take ret).length = ret := List.length_take_of_le hle
  have hcells : (s.receive i ret).buf.cells 0 ret = (s.conn i).up.queue.take ret := by
    have hover := Block.overlay_cells s.buf ((s.conn i).up.queue.take ret)
    rwa [hlen] at hover
  have hself : (s.receive i ret).conn i =
      { s.conn i with up := get (s.conn i).up ret, stage := .send ret } := setConn_self s i _
  have hothers : ∀ j, j ≠ i → (s.receive i ret).conn j = s.conn j :=
    fun j hj => setConn_ne hj s _
  have hsize : (s.receive i ret).buf.size = s.buf.size := rfl
  have hserving₁ : (s.receive i ret).serving = some i := hserving
  generalize s.receive i ret = s₁ at h hcells hself hothers hsize hserving₁
  -- what is in the buffer is what was taken off the stream
  have hpending : s₁.pending i = (s.conn i).up.queue.take ret := by
    rw [Echo.pending, hself]
    exact hcells
  simp only at h
  rcases hquit : isQuit s₁.buf with _ | _
  · rw [hquit, if_neg Bool.false_ne_true] at h
    cases h
    refine ⟨i, stepOf_server hs (.inr hserving) hothers ?_ (fun _ _ => hserving₁) hsize⟩
    rw [hpending, hself]
    exact .serverRecv _ hstage (Nat.pos_of_ne_zero hzero) hle hw
  · -- a text that quits is not answered
    rw [hquit, if_pos rfl] at h
    cases h
    have hclosed : (s₁.hangUp i).conn i =
        { s.conn i with up := get (s.conn i).up ret, stage := .closed } := by
      rw [Echo.hangUp]
      show (s₁.setConn i { s₁.conn i with stage := .closed }).conn i = _
      rw [setConn_self, hself]
    refine ⟨i, stepOf_server hs (.inr hserving) (fun j hj => ?_) ?_ (fun _ hcl => ?_) hsize⟩
    · rw [← hothers j hj]
      exact setConn_ne hj s₁ _
    · rw [show (s₁.hangUp i).pending i = [] by rw [Echo.pending, hclosed], hclosed]
      exact .quit _ hstage hle hw
    · exact absurd (congrArg EchoConn.stage hclosed) hcl

theorem take_serverSend {whole wholeSend : Prop} (hs : s.Serves) {ret : ℕ}
    (hsend : wholeSend → s.WholeSend (.serverSend ret))
    (h : s.take (.serverSend ret) = some s') : ∃ i, StepOf whole wholeSend s s' i := by
  obtain ⟨i, hserving, h⟩ := Option.bind_eq_some_iff.mp h
  rcases hstage : (s.conn i).stage with _ | _ | recvlen | _
  · rw [hstage] at h
    cases h
  · rw [hstage] at h
    cases h
  · rw [hstage] at h
    obtain ⟨⟨hpos, hle⟩, hret⟩ := Option.ite_none_right_eq_some.mp h
    cases hret
    have hpending : s.pending i = s.buf.cells 0 recvlen := by rw [Echo.pending, hstage]
    refine ⟨i, stepOf_server hs (.inr hserving) (fun j hj => setConn_ne hj s _) ?_
      (fun _ _ => hserving) rfl⟩
    have hstep : ConnStep whole wholeSend (s.conn i, s.buf.cells 0 recvlen)
        ({ s.conn i with
          down := put (s.conn i).down ((s.buf.cells 0 recvlen).take ret)
          stage := .recv }, []) :=
      .serverSend _ hstage hpos fun hw =>
        EchoStage.send.inj ((hsend hw i hserving).symm.trans hstage)
    rw [Block.cells_take _ _ hle] at hstep
    rw [hpending, setConn_self]
    simpa [Echo.pending] using hstep
  · rw [hstage] at h
    cases h

/-- **Every step of the system is a step of one connection.** -/
theorem take_stepOf {whole wholeSend : Prop} (hs : s.Serves) {e : EchoEvent ι}
    (hwhole : whole → s.Whole e) (hsend : wholeSend → s.WholeSend e) (h : s.take e = some s') :
    ∃ i, StepOf whole wholeSend s s' i := by
  cases e with
  | clientSend i ret =>
      obtain ⟨c, hc, rfl⟩ := Option.map_eq_some_iff.mp h
      obtain ⟨text, -, -, -, hret⟩ := takeSend_cases hc
      exact ⟨i, stepOf_client hs (by rw [hret]) (.clientSend _ hc hwhole)⟩
  | clientSendFails i =>
      obtain ⟨-, hret⟩ := Option.ite_none_right_eq_some.mp h
      cases hret
      exact ⟨i, stepOf_client hs rfl (.leave _ _)⟩
  | clientRecv i ret =>
      obtain ⟨c, hc, rfl⟩ := Option.map_eq_some_iff.mp h
      obtain ⟨-, -, -, -, hret⟩ := takeRecv_cases hc
      exact ⟨i, stepOf_client hs (by rw [hret]) (.clientRecv _ hc hwhole)⟩
  | clientRecvFails i =>
      obtain ⟨-, hret⟩ := Option.ite_none_right_eq_some.mp h
      cases hret
      exact ⟨i, stepOf_client hs rfl (.leave _ _)⟩
  | accept i =>
      obtain ⟨⟨hnone, hstage⟩, hret⟩ := Option.ite_none_right_eq_some.mp h
      cases hret
      refine ⟨i, stepOf_server hs (.inl hnone) (fun j hj => setConn_ne hj s _) ?_ (fun _ _ => rfl)
        rfl⟩
      have hstep : ConnStep whole wholeSend (s.conn i, s.pending i)
          ({ s.conn i with stage := .recv }, []) := .accept _ hstage
      simpa [Echo.pending] using hstep
  | serverRecv ret => exact take_serverRecv hs hwhole h
  | serverRecvFails =>
      obtain ⟨i, hserving, h⟩ := Option.bind_eq_some_iff.mp h
      obtain ⟨hstage, hret⟩ := Option.ite_none_right_eq_some.mp h
      cases hret
      exact ⟨i, stepOf_hangUp hs hserving (by rw [hstage]; decide) (by rw [hstage]; decide)⟩
  | serverSend ret => exact take_serverSend hs hsend h
  | serverSendFails =>
      obtain ⟨i, hserving, h⟩ := Option.bind_eq_some_iff.mp h
      rcases hstage : (s.conn i).stage with _ | _ | recvlen | _
      · rw [hstage] at h
        cases h
      · rw [hstage] at h
        cases h
      · rw [hstage] at h
        cases h
        exact ⟨i, stepOf_hangUp hs hserving (by rw [hstage]; exact nofun)
          (by rw [hstage]; exact nofun)⟩
      · rw [hstage] at h
        cases h

end Steps

/-- **Every connection by itself** is a run of the connection system, whatever
happens on the others. -/
theorem view_reachable {stdin : ι → List UInt8} {ok : Echo ι → EchoEvent ι → Prop}
    {whole wholeSend : Prop} (hwhole : ∀ s e, ok s e → whole → s.Whole e)
    (hsend : ∀ s e, ok s e → wholeSend → s.WholeSend e) {s : Echo ι}
    (h : Reachable ((tcpEcho stdin).under ok) s) :
    s.Serves ∧ ∀ i, Reachable (connSystem whole wholeSend (stdin i)) (s.conn i, s.pending i) := by
  refine EventSystem.invariant (P := fun s => s.Serves ∧
    ∀ i, Reachable (connSystem whole wholeSend (stdin i)) (s.conn i, s.pending i)) ?_ ?_ h
  · rintro _ rfl
    exact ⟨⟨fun i hb => absurd rfl hb, rfl⟩, fun i => .init rfl⟩
  · rintro s e s' ⟨hs, hviews⟩ hok htake
    obtain ⟨i, hstep⟩ := take_stepOf hs (hwhole s e hok) (hsend s e hok) htake
    refine ⟨hstep.serves, fun j => ?_⟩
    by_cases hj : j = i
    · subst hj
      exact (hviews j).step hstep.own
    · obtain ⟨hconn, hpending⟩ := hstep.others j hj
      rw [hconn, hpending]
      exact hviews j

/-! ### What is echoed -/

/-- In one connection the bytes that are sent back, with those that wait, are
among those that the server has received, in their order. -/
theorem conn_sublist {whole wholeSend : Prop} {stdin : List UInt8} {v : EchoConn × List UInt8}
    (h : Reachable (connSystem whole wholeSend stdin) v) :
    Sound v.1.up ∧ Sound v.1.down ∧ (v.1.down.sent ++ v.2).Sublist v.1.up.received := by
  refine h.invariant (P := fun v => Sound v.1.up ∧ Sound v.1.down ∧
    (v.1.down.sent ++ v.2).Sublist v.1.up.received) ?_ ?_
  · rintro _ rfl
    exact ⟨sound_empty, sound_empty, List.Sublist.refl _⟩
  · rintro v v' ⟨hup, hdown, hsub⟩ hstep
    have hdrop : (v.1.down.sent ++ []).Sublist v.1.up.received := by
      rw [List.append_nil]
      exact (List.sublist_append_left _ _).trans hsub
    cases hstep with
    | clientSend p hc =>
        obtain ⟨text, -, -, -, rfl⟩ := takeSend_cases hc
        exact ⟨hup.put _, hdown, hsub⟩
    | clientRecv p hc =>
        obtain ⟨-, -, -, -, rfl⟩ := takeRecv_cases hc
        exact ⟨hup, hdown.get _, hsub⟩
    | leave c p => exact ⟨hup, hdown, hsub⟩
    | accept p => exact ⟨hup, hdown, hdrop⟩
    | serverRecv p hstage hpos hle =>
        refine ⟨hup.get _, hdown, List.Sublist.append ?_ (List.Sublist.refl _)⟩
        exact (List.sublist_append_left _ _).trans hsub
    | quit p hstage hle =>
        exact ⟨hup.get _, hdown, hdrop.trans (List.sublist_append_left _ _)⟩
    | serverSend p hstage hpos =>
        refine ⟨hup, hdown.put _, ?_⟩
        show ((_ ++ p.take _) ++ []).Sublist _
        rw [List.append_nil]
        exact (List.Sublist.append_left (List.take_sublist _ _) _).trans hsub
    | hangUp p => exact ⟨hup, hdown, hdrop⟩

/-- **What a client receives** are bytes that it has sent, in the same order, and
none of them twice. -/
theorem echoed_sublist {stdin : ι → List UInt8} {s : Echo ι}
    (h : Reachable (tcpEcho stdin).system s) (i : ι) :
    (s.conn i).down.received.Sublist (s.conn i).up.sent := by
  have hwhole : ∀ (s : Echo ι) e, True → False → s.Whole e := fun _ _ _ hf => hf.elim
  have hsend : ∀ (s : Echo ι) e, True → False → s.WholeSend e := fun _ _ _ hf => hf.elim
  obtain ⟨-, hviews⟩ := view_reachable hwhole hsend h
  obtain ⟨hup, hdown, hsub⟩ := conn_sublist (hviews i)
  have hsent : (s.conn i).down.sent.Sublist (s.conn i).up.received :=
    (List.sublist_append_left _ _).trans hsub
  exact hdown.prefix.sublist.trans (hsent.trans hup.prefix.sublist)

/-- The inputs of two clients. -/
def twoLines : Bool → List UInt8
  | false => bytes "ab"
  | true => bytes "hi\n"

/-- The server sends one byte of three, and the client sends its line again. -/
def shortSendRun : List (EchoEvent Bool) :=
  [.clientSend true 3, .clientSend false 2, .accept true, .serverRecv 3, .serverSend 1,
    .clientRecv true 1, .clientSend true 3, .serverRecv 3, .serverSend 3, .clientRecv true 3]

/-- `echoed_sublist` at the end of a run that has lost two bytes: what the client has
received is not the beginning of what it has sent. -/
theorem echoed_sublist_twoLines : ∃ s : Echo Bool,
    (tcpEcho twoLines).run (newEcho twoLines) shortSendRun = some s ∧
      (∀ i, (s.conn i).down.received.Sublist (s.conn i).up.sent) ∧
      ¬ (s.conn true).down.received <+: (s.conn true).up.sent := by
  have hrun : ((tcpEcho twoLines).run (newEcho twoLines) shortSendRun).map (fun s =>
      ((s.conn true).down.received, (s.conn true).up.sent)) =
        some (bytes "hhi\n", bytes "hi\nhi\n") := by
    decide +kernel
  obtain ⟨s, hs, hbytes⟩ := Option.map_eq_some_iff.mp hrun
  obtain ⟨hreceived, hsent⟩ := Prod.mk.inj hbytes
  refine ⟨s, hs, echoed_sublist
    (EventSystem.reachable_run (.init rfl) (fun _ _ _ => trivial) hs), ?_⟩
  rw [hreceived, hsent]
  decide

/-- What the server has sent back, when its calls of `send` take all bytes. -/
structure EchoesAll (c : EchoConn) (pending : List UInt8) : Prop where
  backlog : c.stage = .backlog → c.up.received = [] ∧ c.down.sent = []
  recv : c.stage = .recv → c.down.sent = c.up.received
  send : ∀ n, c.stage = .send n → pending.length = n ∧ c.down.sent ++ pending = c.up.received
  sent : c.down.sent <+: c.up.received

theorem conn_echoesAll {whole : Prop} {stdin : List UInt8} {v : EchoConn × List UInt8}
    (h : Reachable (connSystem whole True stdin) v) : EchoesAll v.1 v.2 := by
  refine h.invariant (P := fun v => EchoesAll v.1 v.2) ?_ ?_
  · rintro _ rfl
    exact ⟨fun _ => ⟨rfl, rfl⟩, nofun, nofun, List.prefix_rfl⟩
  · rintro v v' ⟨hbacklog, hrecv, hsend, hsent⟩ hstep
    cases hstep with
    | clientSend p hc =>
        obtain ⟨text, -, -, -, rfl⟩ := takeSend_cases hc
        exact ⟨hbacklog, hrecv, hsend, hsent⟩
    | clientRecv p hc =>
        obtain ⟨-, -, -, -, rfl⟩ := takeRecv_cases hc
        exact ⟨hbacklog, hrecv, hsend, hsent⟩
    | leave c p => exact ⟨hbacklog, hrecv, hsend, hsent⟩
    | accept p hstage =>
        obtain ⟨hreceived, hnone⟩ := hbacklog hstage
        exact ⟨nofun, fun _ => hnone.trans hreceived.symm, nofun, hsent⟩
    | @serverRecv c ret p hstage hpos hle =>
        refine ⟨nofun, nofun, ?_, hsent.trans (List.prefix_append _ _)⟩
        rintro n hn
        cases hn
        refine ⟨List.length_take_of_le hle, ?_⟩
        show c.down.sent ++ c.up.queue.take ret = c.up.received ++ c.up.queue.take ret
        rw [hrecv hstage]
    | quit p hstage hle => exact ⟨nofun, nofun, nofun, hsent.trans (List.prefix_append _ _)⟩
    | @serverSend c ret recvlen p hstage hpos hw =>
        -- everything that waited is sent
        obtain ⟨hlen, hall⟩ := hsend recvlen hstage
        have htake : c.down.sent ++ p.take ret = c.up.received := by
          rw [hw trivial, ← hlen, List.take_length]
          exact hall
        exact ⟨nofun, fun _ => htake, nofun, ⟨[], by rw [List.append_nil]; exact htake⟩⟩
    | hangUp p => exact ⟨nofun, nofun, nofun, hsent⟩

/-- **As long as the server sends all that it has received**, what a client
receives is the beginning of what it has sent. -/
theorem echoed_prefix {stdin : ι → List UInt8} {s : Echo ι}
    (h : Reachable ((tcpEcho stdin).under Echo.WholeSend) s) (i : ι) :
    (s.conn i).down.received <+: (s.conn i).up.sent := by
  have hwhole : ∀ (s : Echo ι) e, s.WholeSend e → False → s.Whole e := fun _ _ _ hf => hf.elim
  have hsend : ∀ (s : Echo ι) e, s.WholeSend e → True → s.WholeSend e := fun _ _ hok _ => hok
  obtain ⟨-, hviews⟩ := view_reachable hwhole hsend h
  obtain ⟨hup, hdown, -⟩ := conn_sublist (hviews i)
  exact hdown.prefix.trans ((conn_echoesAll (hviews i)).sent.trans hup.prefix)

instance (s : Echo Bool) (e : EchoEvent Bool) : Decidable (s.WholeSend e) :=
  match e with
  | .serverSend ret => inferInstanceAs (Decidable (∀ i, s.serving = some i →
      (s.conn i).stage = .send ret))
  | .clientSend _ _ | .clientSendFails _ | .clientRecv _ _ | .clientRecvFails _ | .accept _
  | .serverRecv _ | .serverRecvFails | .serverSendFails => .isTrue trivial

/-- The second client is served, and the bytes for it are cut. -/
def twoLinesRun : List (EchoEvent Bool) :=
  [.clientSend true 3, .clientSend false 2, .accept true, .serverRecv 2, .serverSend 2,
    .clientRecv true 1, .serverRecv 1, .serverSend 1]

/-- `echoed_prefix` at the end of the run. -/
theorem echoed_prefix_twoLines : ∃ s : Echo Bool,
    (tcpEcho twoLines).runUnder Echo.WholeSend (newEcho twoLines) twoLinesRun = some s ∧
      ∀ i, (s.conn i).down.received <+: (s.conn i).up.sent := by
  obtain ⟨s, hs⟩ := Option.isSome_iff_exists.mp (by decide +kernel :
    ((tcpEcho twoLines).runUnder Echo.WholeSend (newEcho twoLines) twoLinesRun).isSome = true)
  exact ⟨s, hs, echoed_prefix (EventSystem.reachable_runUnder (.init rfl) hs)⟩

end CodeSnippet
