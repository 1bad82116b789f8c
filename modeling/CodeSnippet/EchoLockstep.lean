/-
CodeSnippet/EchoLockstep.lean

The echo clients and their server (TcpEcho) in the runs in which every call of
`send` and `recv` takes as many bytes as there are, or as there is room for.  A
client then never has more than one line on its way.

Main results:
  * `conn_lockstep` — the line that a client waits for is on its way to the
    server, waits there or is on its way back, and is never in two pieces.
  * `lockstep_answers` — the k-th answer that a client prints is its k-th line,
    until the server closes its connection; the server prints only texts that
    end in its buffer.
-/
import CodeSnippet.TcpEcho

namespace CodeSnippet

open Memory Transition TextFile EchoChannel

/-! ### What a client sends -/

/-- The texts that the calls of `fgets` leave in the buffer of a client. -/
def echoLines (stdin : List UInt8) : List (List UInt8) := (pieces 63 stdin).map Block.untilNul

/-- A call of `fgets` takes the first of them. -/
theorem fgets_echoLines {b : Block UInt8} (hb : b.size = 64) {stdin : List UInt8}
    (hne : stdin ≠ []) : ∃ b' rest text, fgets b stdin = some (b', rest) ∧ b'.size = 64 ∧
      b'.Spells 0 text ∧ echoLines stdin = text :: echoLines rest := by
  obtain ⟨d, tail, rfl⟩ := List.exists_cons_of_ne_nil hne
  have hlen := fgetsBytes_length_le 63 (d :: tail)
  have hcells := Block.overlay_cells b (fgetsBytes 63 (d :: tail) ++ [0])
  rw [List.length_append, List.length_singleton] at hcells
  refine ⟨b.overlay (fgetsBytes 63 (d :: tail) ++ [0]),
    (d :: tail).drop (fgetsBytes 63 (d :: tail)).length,
    Block.untilNul (fgetsBytes 63 (d :: tail)), ?_, hb, ?_, ?_⟩
  · have hfgets : fgets b (d :: tail) =
        some (b.overlay (fgetsBytes (b.size - 1) (d :: tail) ++ [0]),
          (d :: tail).drop (fgetsBytes (b.size - 1) (d :: tail)).length) := rfl
    rw [hfgets, hb]
  · apply Block.spells_untilNul hcells
    rw [Nat.zero_add, Block.overlay_size, hb]
    omega
  · have hpieces : pieces 63 (d :: tail) = fgetsBytes 63 (d :: tail) ::
        pieces 63 ((d :: tail).drop (fgetsBytes 63 (d :: tail)).length) :=
      cut_eq 63 (by decide) hne
    rw [echoLines, hpieces, List.map_cons, echoLines]

/-- The text that is left there at the end of the input. -/
def lastLine (stdin : List UInt8) : List UInt8 := (echoLines stdin).getLast?.getD []

/-- A client has sent the lines of its input, and when there are no more, the last
one again and again. -/
structure Asks (stdin : List UInt8) (c : EchoClient) : Prop where
  size : c.sendBuf.size = 64
  spells : c.sendBuf.Spells 0 (c.asked.getLast?.getD [])
  lines : ∃ j, c.asked ++ echoLines c.stdin =
      echoLines stdin ++ List.replicate j (lastLine stdin) ∧ (0 < j → c.stdin = [])

theorem Asks.lastLine_eq {stdin : List UInt8} {c : EchoClient} (h : Asks stdin c)
    (hend : c.stdin = []) : c.asked.getLast?.getD [] = lastLine stdin := by
  obtain ⟨j, hlines, -⟩ := h.lines
  rw [hend, show echoLines [] = [] from rfl, List.append_nil] at hlines
  rw [hlines]
  cases j with
  | zero => rw [List.replicate_zero, List.append_nil, lastLine]
  | succ j =>
      rw [List.replicate_succ', ← List.append_assoc, List.getLast?_concat, Option.getD_some]

/-- The text of a call of `send`. -/
theorem Asks.fill {stdin : List UInt8} {c : EchoClient} (h : Asks stdin c) {text : List UInt8}
    (htext : c.text = some text) (pc : EchoPc) :
    text.length < 64 ∧ 0 ∉ text ∧
      Asks stdin { c with
        pc := pc
        stdin := c.fill.2
        sendBuf := c.fill.1
        asked := c.asked ++ [text] } := by
  have hspells : c.fill.1.Spells 0 text := Block.cstr_eq_some_iff.mp htext
  have hlast : (c.asked ++ [text]).getLast?.getD [] = text := by
    rw [List.getLast?_concat, Option.getD_some]
  rcases hstdin : c.stdin with _ | ⟨d, rest⟩
  · -- `fgets` returns `NULL`, and the buffer is as it was
    have hfill : c.fill = (c.sendBuf, []) := by rw [EchoClient.fill, hstdin]; rfl
    rw [hfill] at hspells ⊢
    have hsame : text = c.asked.getLast?.getD [] := hspells.unique h.spells
    have hroom := hspells.room
    rw [Nat.zero_add, h.size] at hroom
    refine ⟨hroom, hspells.noNul, h.size, by rw [hlast]; exact hspells, ?_⟩
    obtain ⟨j, hlines, -⟩ := h.lines
    rw [hstdin, show echoLines [] = [] from rfl, List.append_nil] at hlines
    refine ⟨j + 1, ?_, fun _ => rfl⟩
    show c.asked ++ [text] ++ [] = _
    rw [List.append_nil, List.replicate_succ', ← List.append_assoc, ← hlines, hsame,
      h.lastLine_eq hstdin]
  · have hne : c.stdin ≠ [] := by rw [hstdin]; exact List.cons_ne_nil d rest
    obtain ⟨b, rest, line, hfgets, hsize, hline, hlines'⟩ := fgets_echoLines h.size hne
    have hfill : c.fill = (b, rest) := by rw [EchoClient.fill, hfgets, Option.getD_some]
    rw [hfill] at hspells ⊢
    have hsame : text = line := hspells.unique hline
    have hroom := hspells.room
    rw [Nat.zero_add, hsize] at hroom
    refine ⟨hroom, hspells.noNul, hsize, by rw [hlast]; exact hspells, ?_⟩
    obtain ⟨j, hlines, hj⟩ := h.lines
    have hzero : j = 0 := by
      by_contra hpos
      exact hne (hj (Nat.pos_of_ne_zero hpos))
    subst hzero
    refine ⟨0, ?_, fun hpos => absurd hpos (lt_irrefl 0)⟩
    rw [← hlines, hlines', hsame, List.append_assoc]
    rfl

/-! ### One line at a time -/

/-- Where `text` is: on the way to the server, in its buffer, or on the way
back. -/
def Along (text : List UInt8) (c : EchoConn) (p : List UInt8) : Prop :=
  (c.up.queue = text ∧ p = [] ∧ c.down.queue = []) ∨
    (c.up.queue = [] ∧ p = text ∧ c.down.queue = []) ∨
    (c.up.queue = [] ∧ p = [] ∧ c.down.queue = text)

/-- The answers that a client has printed: its lines, and nothing for the lines
that it sent when the server had closed the connection. -/
structure Answered (c : EchoConn) (n m : ℕ) : Prop where
  shown : c.client.shown = (c.client.asked.take n).map (fun text => (text.length, some text)) ++
    List.replicate m (0, some [])
  closed : 0 < m → c.stage = .closed ∧ c.down.queue = []
  le : n + m ≤ c.client.asked.length
  ge : c.client.asked.length ≤ n + m + 1
  ready : c.client.pc = .fgets → n + m = c.client.asked.length
  waits : c.client.pc = .recv → n + m + 1 = c.client.asked.length

/-- A connection whose calls take all bytes. -/
structure Lockstep (stdin : List UInt8) (c : EchoConn) (p : List UInt8) : Prop where
  asks : Asks stdin c.client
  recvBuf : c.client.recvBuf.size = 64
  idle : (∀ n, c.stage ≠ .send n) → p = []
  along : ∃ text, text.length < 64 ∧ 0 ∉ text ∧ (c.stage ≠ .closed → Along text c p) ∧
    (c.stage = .closed → c.down.queue = [] ∨ c.down.queue = text) ∧
    (c.client.pc = .fgets → text = []) ∧
    (c.client.pc = .recv → c.client.asked.getLast? = some text)
  answered : ∃ n m, Answered c n m

theorem Answered.congr {c c' : EchoConn} {n m : ℕ} (h : Answered c n m)
    (hclient : c'.client = c.client) (hclosed : c.stage = .closed → c'.stage = .closed)
    (hdown : c.stage = .closed → c.down.queue = [] → c'.down.queue = []) : Answered c' n m where
  shown := hclient ▸ h.shown
  closed := fun hm => ⟨hclosed (h.closed hm).1, hdown (h.closed hm).1 (h.closed hm).2⟩
  le := hclient ▸ h.le
  ge := hclient ▸ h.ge
  ready := hclient ▸ h.ready
  waits := hclient ▸ h.waits

/-- A step of the server on a connection that is not closed. -/
theorem Lockstep.server {stdin : List UInt8} {c c' : EchoConn} {p p' : List UInt8}
    (h : Lockstep stdin c p) (hopen : c.stage ≠ .closed) (hclient : c'.client = c.client)
    (hidle : (∀ n, c'.stage ≠ .send n) → p' = [])
    (halong : ∀ text, text.length < 64 → Along text c p → (c'.stage ≠ .closed → Along text c' p') ∧
      (c'.stage = .closed → c'.down.queue = [] ∨ c'.down.queue = text)) :
    Lockstep stdin c' p' := by
  obtain ⟨text, hlt, hnoNul, hwire, -, hready, hwaits⟩ := h.along
  obtain ⟨n, m, hanswered⟩ := h.answered
  obtain ⟨hnext, hclosed⟩ := halong text hlt (hwire hopen)
  exact {
    asks := hclient ▸ h.asks
    recvBuf := hclient ▸ h.recvBuf
    idle := hidle
    along := ⟨text, hlt, hnoNul, hnext, hclosed, hclient ▸ hready, hclient ▸ hwaits⟩
    answered := ⟨n, m, hanswered.congr hclient (fun hcl => absurd hcl hopen)
      (fun hcl => absurd hcl hopen)⟩ }

/-- What `recv` leaves in the buffer that was cleared before. -/
theorem spells_cleared {b : Block UInt8} {l : List UInt8} (hsize : b.size = 64)
    (hlen : l.length < 64) (hnoNul : 0 ∉ l) :
    ((b.fillIn 0 0 b.size).overlay l).Spells 0 l where
  cells := Block.overlay_cells _ l
  room := by
    rw [Block.overlay_size, Block.fillIn_size, hsize, Nat.zero_add]
    exact hlen
  nul := by
    rw [Nat.zero_add, Block.overlay_cell_of_le _ le_rfl, Block.fillIn_cell, hsize, Nat.zero_add,
      if_pos ⟨Nat.zero_le _, hlen⟩]
  noNul := hnoNul

/-- When the server closes the connection, what was on its way back may still be
received. -/
theorem Along.closed {text p : List UInt8} {c : EchoConn} (h : Along text c p) :
    c.down.queue = [] ∨ c.down.queue = text := by
  rcases h with ⟨-, -, hdown⟩ | ⟨-, -, hdown⟩ | ⟨-, -, hdown⟩
  · exact .inl hdown
  · exact .inl hdown
  · exact .inr hdown

/-- A client sends a line when nothing is on its way. -/
theorem Lockstep.takeSend {stdin p : List UInt8} {c c' : EchoConn} {ret : ℕ}
    (h : Lockstep stdin c p) (hc : c.takeSend ret = some c')
    (hw : c.client.text.map List.length = some ret) : Lockstep stdin c' p := by
  obtain ⟨text, hpc, htext, -, rfl⟩ := takeSend_cases hc
  obtain ⟨old, -, -, hwire, hdown, hready, -⟩ := h.along
  obtain ⟨n, m, hanswered⟩ := h.answered
  obtain ⟨hlt, hnoNul, hasks⟩ := h.asks.fill htext
    (if isQuit c.client.fill.1 then .done else .recv)
  have hnone : old = [] := hready hpc
  have hcount : n + m = c.client.asked.length := hanswered.ready hpc
  subst hnone
  have hret : text.take ret = text := by
    rw [htext] at hw
    rw [← Option.some.inj hw, List.take_length]
  refine ⟨hasks, h.recvBuf, h.idle, ⟨text, hlt, hnoNul, fun hopen => ?_, fun hcl => ?_, ?_, ?_⟩,
    n, m, ?_⟩
  · -- nothing was on its way
    rcases hwire hopen with ⟨hup, hp, hd⟩ | ⟨hup, hp, hd⟩ | ⟨hup, hp, hd⟩
    all_goals
      refine .inl ⟨?_, hp, hd⟩
      show c.up.queue ++ text.take ret = text
      rw [hup, hret, List.nil_append]
  · exact .inl ((hdown hcl).elim id id)
  · intro hf
    show text = []
    have hf' : (if isQuit c.client.fill.1 = true then EchoPc.done else .recv) = .fgets := hf
    split at hf' <;> cases hf'
  · exact fun _ => List.getLast?_concat
  · refine ⟨?_, hanswered.closed, ?_, ?_, ?_, ?_⟩
    · show c.client.shown = _
      rw [hanswered.shown, List.take_append_of_le_length (by omega)]
    · show n + m ≤ (c.client.asked ++ [text]).length
      rw [List.length_append, List.length_singleton]
      omega
    · show (c.client.asked ++ [text]).length ≤ n + m + 1
      rw [List.length_append, List.length_singleton]
      omega
    · intro hf
      have hf' : (if isQuit c.client.fill.1 = true then EchoPc.done else .recv) = .fgets := hf
      split at hf' <;> cases hf'
    · intro _
      show n + m + 1 = (c.client.asked ++ [text]).length
      rw [List.length_append, List.length_singleton]
      omega

/-- It receives the line that it waits for, or nothing when the connection is
closed. -/
theorem Lockstep.takeRecv {stdin p : List UInt8} {c c' : EchoConn} {ret : ℕ}
    (h : Lockstep stdin c p) (hc : c.takeRecv ret = some c')
    (hw : ret = min c.client.recvBuf.size c.down.queue.length) : Lockstep stdin c' p := by
  obtain ⟨hpc, hsize, hzero, hle, rfl⟩ := takeRecv_cases hc
  obtain ⟨text, hlt, hnoNul, hwire, hdown, -, hwaits⟩ := h.along
  obtain ⟨n, m, hanswered⟩ := h.answered
  have hlast := hwaits hpc
  have hcount : n + m + 1 = c.client.asked.length := hanswered.waits hpc
  have hsome : ∀ l : List UInt8, l.length < 64 → 0 ∉ l →
      ((c.client.recvBuf.fillIn 0 0 c.client.recvBuf.size).overlay l).cstr 0 = some l :=
    fun l hl h0 => Block.cstr_eq_some_iff.mpr (spells_cleared h.recvBuf hl h0)
  by_cases hqueue : c.down.queue = []
  · -- there is nothing more to receive, so the connection is closed
    have hret : ret = 0 := by
      rw [hqueue, List.length_nil] at hle
      omega
    obtain ⟨-, hcl⟩ := hzero hret
    have hnil : c.down.queue.take ret = [] := by rw [hqueue, List.take_nil]
    have hnext : c.down.queue.drop ret = [] := by rw [hqueue, List.drop_nil]
    refine ⟨⟨h.asks.size, h.asks.spells, h.asks.lines⟩, h.recvBuf, h.idle,
      ⟨[], by decide, List.not_mem_nil, fun hopen => absurd hcl hopen, fun _ => .inl hnext,
        fun _ => rfl, nofun⟩, n, m + 1, ?_⟩
    refine ⟨?_, fun _ => ⟨hcl, hnext⟩, hcount.le, Nat.le_succ_of_le hcount.ge, fun _ => hcount,
      nofun⟩
    show c.client.shown ++ [_] = _
    rw [hnil, hret, hsome [] (by decide) List.not_mem_nil, hanswered.shown,
      List.replicate_succ', List.append_assoc]
  · have hback : c.down.queue = text := by
      by_cases hcl : c.stage = .closed
      · exact (hdown hcl).resolve_left hqueue
      · exact (hwire hcl).closed.resolve_left hqueue
    have hret : ret = text.length := by
      rw [hw, h.recvBuf, hback]
      omega
    have htake : c.down.queue.take ret = text := by rw [hret, hback, List.take_length]
    have hnext : c.down.queue.drop ret = [] := by rw [hret, hback, List.drop_length]
    have hm : m = 0 := by
      by_contra hpos
      exact hqueue (hanswered.closed (Nat.pos_of_ne_zero hpos)).2
    subst hm
    refine ⟨⟨h.asks.size, h.asks.spells, h.asks.lines⟩, h.recvBuf, h.idle,
      ⟨[], by decide, List.not_mem_nil, fun hopen => ?_, fun _ => .inl hnext, fun _ => rfl,
        nofun⟩, n + 1, 0, ?_⟩
    · rcases hwire hopen with ⟨-, -, hd⟩ | ⟨-, -, hd⟩ | ⟨hup, hp, -⟩
      · exact absurd hd hqueue
      · exact absurd hd hqueue
      · exact .inr (.inr ⟨hup, hp, hnext⟩)
    · refine ⟨?_, fun hpos => absurd hpos (lt_irrefl 0), hcount.le, Nat.le_succ_of_le hcount.ge,
        fun _ => hcount, nofun⟩
      -- the line is the last one that was sent
      have hasked : c.client.asked = c.client.asked.take n ++ [text] := by
        obtain ⟨l, hl⟩ := List.getLast?_eq_some_iff.mp hlast
        have hlen : l.length = n := by
          rw [hl, List.length_append, List.length_singleton] at hcount
          omega
        rw [hl, List.take_left' hlen]
      show c.client.shown ++ [_] = (c.client.asked.take (n + 1)).map _ ++ _
      have hfull : c.client.asked.take (n + 1) = c.client.asked :=
        List.take_of_length_le hcount.ge
      rw [hfull, hasked, htake, hret, hsome text hlt hnoNul, hanswered.shown, List.map_append]
      simp

/-- **The line of a client is never in two pieces.** -/
theorem Lockstep.step {stdin : List UInt8} {v v' : EchoConn × List UInt8}
    (hall : EchoesAll v.1 v.2) (h : Lockstep stdin v.1 v.2) (hstep : ConnStep True True v v') :
    Lockstep stdin v'.1 v'.2 := by
  cases hstep with
  | clientSend p hc hw => exact h.takeSend hc (hw trivial)
  | clientRecv p hc hw => exact h.takeRecv hc (hw trivial)
  | leave c p =>
      obtain ⟨text, hlt, hnoNul, hwire, hdown, -, -⟩ := h.along
      obtain ⟨n, m, hanswered⟩ := h.answered
      exact {
        asks := ⟨h.asks.size, h.asks.spells, h.asks.lines⟩
        recvBuf := h.recvBuf
        idle := h.idle
        along := ⟨text, hlt, hnoNul, hwire, hdown, nofun, nofun⟩
        answered := ⟨n, m, hanswered.shown, hanswered.closed, hanswered.le, hanswered.ge, nofun,
          nofun⟩ }
  | @accept c p hstage =>
      refine h.server (by rw [hstage]; exact nofun) rfl (fun _ => rfl) fun text hlt halong =>
        ⟨fun _ => ?_, nofun⟩
      have hidle : p = [] := h.idle (by rw [hstage]; exact nofun)
      subst hidle
      exact halong
  | @serverRecv c ret p hstage hpos hle hw =>
      have hidle : p = [] := h.idle (by rw [hstage]; exact nofun)
      subst hidle
      refine h.server (by rw [hstage]; exact nofun) rfl (fun hn => absurd rfl (hn ret))
        fun text hlt halong => ⟨fun _ => ?_, nofun⟩
      rcases halong with ⟨hup, -, hd⟩ | ⟨hup, -, -⟩ | ⟨hup, -, -⟩
      · have hret : ret = text.length := by
          rw [hw trivial, hup]
          omega
        refine .inr (.inl ⟨?_, ?_, hd⟩)
        · show c.up.queue.drop ret = []
          rw [hup, hret, List.drop_length]
        · rw [hup, hret, List.take_length]
      · rw [hup, List.length_nil] at hle
        omega
      · rw [hup, List.length_nil] at hle
        omega
  | @quit c ret p hstage hle hw =>
      exact h.server (by rw [hstage]; exact nofun) rfl (fun _ => rfl) fun text hlt halong =>
        ⟨fun hcl => absurd rfl hcl, fun _ => halong.closed⟩
  | @serverSend c ret recvlen p hstage hpos hw =>
      refine h.server (by rw [hstage]; exact nofun) rfl (fun _ => rfl) fun text hlt halong =>
        ⟨fun _ => ?_, nofun⟩
      have hlen : p.length = recvlen := (hall.send recvlen hstage).1
      have hret := hw trivial
      rcases halong with ⟨-, hp, -⟩ | ⟨hup, hp, hd⟩ | ⟨-, hp, -⟩
      · have hnil : p = [] := hp
        rw [hnil, List.length_nil] at hlen
        omega
      · refine .inr (.inr ⟨hup, rfl, ?_⟩)
        show c.down.queue ++ p.take ret = text
        rw [hd, List.nil_append, hret, ← hlen, List.take_length]
        exact hp
      · have hnil : p = [] := hp
        rw [hnil, List.length_nil] at hlen
        omega
  | @hangUp c p hb hc =>
      exact h.server hc rfl (fun _ => rfl) fun text hlt halong =>
        ⟨fun hcl => absurd rfl hcl, fun _ => halong.closed⟩

theorem lockstep_newConn (stdin : List UInt8) : Lockstep stdin (newConn stdin) [] where
  asks := ⟨rfl, ⟨rfl, (by decide : 0 < 64), rfl, List.not_mem_nil⟩, 0, by simp [newConn], nofun⟩
  recvBuf := rfl
  idle := fun _ => rfl
  along := ⟨[], by decide, List.not_mem_nil, fun _ => .inl ⟨rfl, rfl, rfl⟩, nofun, fun _ => rfl,
    nofun⟩
  answered := ⟨0, 0, rfl, nofun, le_rfl, Nat.zero_le _, fun _ => rfl, nofun⟩

theorem conn_lockstep {stdin : List UInt8} {v : EchoConn × List UInt8}
    (h : Reachable (connSystem True True stdin) v) : Lockstep stdin v.1 v.2 := by
  have hboth : Reachable (connSystem True True stdin) v ∧ Lockstep stdin v.1 v.2 := by
    refine h.invariant (P := fun v => Reachable (connSystem True True stdin) v ∧
      Lockstep stdin v.1 v.2) ?_ ?_
    · rintro _ rfl
      exact ⟨.init rfl, lockstep_newConn stdin⟩
    · rintro v v' ⟨hv, hlock⟩ hstep
      exact ⟨hv.step hstep, hlock.step (conn_echoesAll hv) hstep⟩
  exact hboth.2

/-! ### The buffer of the server -/

/-- The server has only received short lines, so that its buffer ends in NUL
bytes. -/
structure ServerBuf (b : Block UInt8) (printed : List (Option (List UInt8))) : Prop where
  size : b.size = 1024
  nul : ∀ k, 63 ≤ k → b.cell k = 0
  printed : ∀ text ∈ printed, text ≠ none

theorem ServerBuf.receive {b : Block UInt8} {printed : List (Option (List UInt8))}
    (h : ServerBuf b printed) {l : List UInt8} (hl : l.length < 64) :
    ServerBuf (b.overlay l) (printed ++ [(b.overlay l).cstr 0]) := by
  have hnul : ∀ k, 63 ≤ k → (b.overlay l).cell k = 0 := by
    intro k hk
    rw [Block.overlay_cell_of_le b (by omega)]
    exact h.nul k hk
  refine ⟨h.size, hnul, fun text hmem => ?_⟩
  rcases List.mem_append.mp hmem with hold | hnew
  · exact h.printed text hold
  · rw [List.mem_singleton.mp hnew]
    have hlt : 0 + 63 < (b.overlay l).size := by
      rw [Block.overlay_size, h.size]
      decide
    obtain ⟨l', hl'⟩ := Block.exists_cstr hlt (by rw [Nat.zero_add]; exact hnul 63 le_rfl)
    rw [hl']
    exact Option.some_ne_none l'

/-- The server receives at most one line. -/
theorem Lockstep.queue_lt {stdin p : List UInt8} {c : EchoConn} (h : Lockstep stdin c p)
    (hopen : c.stage ≠ .closed) : c.up.queue.length < 64 := by
  obtain ⟨text, hlt, -, hwire, -⟩ := h.along
  rcases hwire hopen with ⟨hup, -⟩ | ⟨hup, -⟩ | ⟨hup, -⟩
  · rw [hup]
    exact hlt
  · rw [hup]
    decide
  · rw [hup]
    decide

section Server

variable {ι : Type} [DecidableEq ι] {s s' : Echo ι}

omit [DecidableEq ι] in
theorem whole_wholeSend {e : EchoEvent ι} (h : s.Whole e) : s.WholeSend e := by
  cases e with
  | serverSend ret => exact h
  | _ => exact trivial

/-- The calls that do not receive leave the buffer alone. -/
theorem take_serverBuf {stdin : ι → List UInt8}
    (hlock : ∀ i, Lockstep (stdin i) (s.conn i) (s.pending i)) (hbuf : ServerBuf s.buf s.printed)
    {e : EchoEvent ι} (h : s.take e = some s') : ServerBuf s'.buf s'.printed := by
  cases e with
  | clientSend i ret =>
      obtain ⟨c, -, rfl⟩ := Option.map_eq_some_iff.mp h
      exact hbuf
  | clientSendFails i =>
      obtain ⟨-, hret⟩ := Option.ite_none_right_eq_some.mp h
      cases hret
      exact hbuf
  | clientRecv i ret =>
      obtain ⟨c, -, rfl⟩ := Option.map_eq_some_iff.mp h
      exact hbuf
  | clientRecvFails i =>
      obtain ⟨-, hret⟩ := Option.ite_none_right_eq_some.mp h
      cases hret
      exact hbuf
  | accept i =>
      obtain ⟨-, hret⟩ := Option.ite_none_right_eq_some.mp h
      cases hret
      exact hbuf
  | serverRecv ret =>
      obtain ⟨i, -, h⟩ := Option.bind_eq_some_iff.mp h
      obtain ⟨⟨hstage, -, -⟩, h⟩ := Option.ite_none_right_eq_some.mp h
      by_cases hzero : ret = 0
      · rw [if_pos hzero] at h
        obtain ⟨-, hret⟩ := Option.ite_none_right_eq_some.mp h
        cases hret
        exact hbuf
      rw [if_neg hzero] at h
      have hlt := (hlock i).queue_lt (by rw [hstage]; exact nofun)
      have hnew : ServerBuf (s.receive i ret).buf (s.receive i ret).printed :=
        hbuf.receive (by rw [List.length_take]; omega)
      generalize s.receive i ret = s₁ at h hnew
      simp only at h
      split at h
      · cases h
        exact hnew
      · cases h
        exact hnew
  | serverRecvFails =>
      obtain ⟨i, -, h⟩ := Option.bind_eq_some_iff.mp h
      obtain ⟨-, hret⟩ := Option.ite_none_right_eq_some.mp h
      cases hret
      exact hbuf
  | serverSend ret =>
      obtain ⟨i, -, h⟩ := Option.bind_eq_some_iff.mp h
      split at h
      · obtain ⟨-, hret⟩ := Option.ite_none_right_eq_some.mp h
        cases hret
        exact hbuf
      · cases h
  | serverSendFails =>
      obtain ⟨i, -, h⟩ := Option.bind_eq_some_iff.mp h
      split at h
      · cases h
        exact hbuf
      · cases h

/-- **Line by line.**  When the calls of `send` and `recv` take all bytes, a
client sends the lines of its input and then the last one again and again.  Every
answer that it prints is the line that it has sent, until the server closes the
connection and there are no answers any more.  What the server prints is always a
string in its buffer. -/
theorem lockstep_answers {stdin : ι → List UInt8}
    (h : Reachable ((tcpEcho stdin).under Echo.Whole) s) :
    (∀ text ∈ s.printed, text ≠ none) ∧ ∀ i,
      (∃ j, (s.conn i).client.asked <+:
        echoLines (stdin i) ++ List.replicate j (lastLine (stdin i))) ∧
      ∃ n m, Answered (s.conn i) n m := by
  have hviews : ∀ {s : Echo ι}, Reachable ((tcpEcho stdin).under Echo.Whole) s →
      ∀ i, Lockstep (stdin i) (s.conn i) (s.pending i) := by
    intro s hs i
    have hwhole : ∀ (s : Echo ι) e, s.Whole e → True → s.Whole e := fun _ _ hok _ => hok
    have hsend : ∀ (s : Echo ι) e, s.Whole e → True → s.WholeSend e :=
      fun _ _ hok _ => whole_wholeSend hok
    exact conn_lockstep ((view_reachable hwhole hsend hs).2 i)
  have hprinted : Reachable ((tcpEcho stdin).under Echo.Whole) s ∧
      ServerBuf s.buf s.printed := by
    refine EventSystem.invariant (P := fun s => Reachable ((tcpEcho stdin).under Echo.Whole) s ∧
      ServerBuf s.buf s.printed) ?_ ?_ h
    · rintro _ rfl
      exact ⟨.init rfl, rfl, fun _ _ => rfl, nofun⟩
    · rintro s e s' ⟨hs, hbuf⟩ hok htake
      exact ⟨hs.step ⟨e, hok, htake⟩, take_serverBuf (hviews hs) hbuf htake⟩
  refine ⟨hprinted.2.printed, fun i => ⟨?_, (hviews h i).answered⟩⟩
  obtain ⟨j, hlines, -⟩ := (hviews h i).asks.lines
  exact ⟨j, _, hlines⟩

end Server

instance (s : Echo Bool) (e : EchoEvent Bool) : Decidable (s.Whole e) :=
  match e with
  | .clientSend i ret =>
      inferInstanceAs (Decidable ((s.conn i).client.text.map List.length = some ret))
  | .clientRecv i ret => inferInstanceAs (Decidable (ret =
      min (s.conn i).client.recvBuf.size (s.conn i).down.queue.length))
  | .serverRecv ret => inferInstanceAs (Decidable (∀ i, s.serving = some i →
      ret = min s.buf.size (s.conn i).up.queue.length))
  | .serverSend ret => inferInstanceAs (Decidable (s.WholeSend (.serverSend ret)))
  | .clientSendFails _ | .clientRecvFails _ | .accept _ | .serverRecvFails | .serverSendFails =>
      .isTrue trivial

/-- A line that comes back, and the line at the end of the input that is sent
again. -/
def wholeLinesRun : List (EchoEvent Bool) :=
  [.clientSend true 3, .clientSend false 2, .accept true, .serverRecv 3, .serverSend 3,
    .clientRecv true 3, .clientSend true 3]

/-- `lockstep_answers` after that run. -/
theorem lockstep_answers_twoLines : ∃ s : Echo Bool,
    (tcpEcho twoLines).runUnder Echo.Whole (newEcho twoLines) wholeLinesRun = some s ∧
      (∀ text ∈ s.printed, text ≠ none) ∧ ∀ i,
        (∃ j, (s.conn i).client.asked <+:
          echoLines (twoLines i) ++ List.replicate j (lastLine (twoLines i))) ∧
        ∃ n m, Answered (s.conn i) n m := by
  obtain ⟨s, hs⟩ := Option.isSome_iff_exists.mp (by decide +kernel :
    ((tcpEcho twoLines).runUnder Echo.Whole (newEcho twoLines) wholeLinesRun).isSome = true)
  exact ⟨s, hs, lockstep_answers (EventSystem.reachable_runUnder (.init rfl) hs)⟩

end CodeSnippet
