/-
CodeSnippet/UdpEcho.lean

The echo server of src/socket/udp/server.c and its clients (src/socket/udp/client.c),
any number of them.  Datagrams can be lost, overtake each other and arrive more
than once.  Both sides clear their buffers before they receive; the server sends
back the string in its buffer, and stops at a string that starts with "quit" or
"exit", whichever client it is from.

Main results:
  * `udp_integrity` — whatever happens to the datagrams, an answer that a client
    prints is a line that it has sent, and no answer starts with "quit" or "exit".
  * `udp_lockstep` — as long as no datagram arrives twice, the k-th answer is the
    k-th line.
-/
import CodeSnippet.EchoLockstep

namespace CodeSnippet

open Memory Transition TextFile

variable {ι : Type} [DecidableEq ι]

namespace UdpEcho

/-! ### The parties -/

/-- A client, with the texts that it has sent and the lengths and texts of the
answers that it has printed. -/
structure Client where
  pc : EchoPc
  stdin : List UInt8
  asked : List (List UInt8)
  shown : List (ℕ × Option (List UInt8))

/-- What the server does next. -/
inductive ServerPc (ι : Type)
  | recvfrom | sendto (clientaddr : ι) | done
  deriving DecidableEq

/-- The clients, the server with its buffer and what it has printed, and the
datagrams on their way, with the client that they are from or for. -/
structure State (ι : Type) where
  client : ι → Client
  server : ServerPc ι
  buf : Block UInt8
  printed : List (ι × Option (List UInt8))
  toServer : List (ι × List UInt8)
  toClient : List (ι × List UInt8)

def clearedBuf (size : ℕ) : Block UInt8 := ⟨size, fun _ => 0⟩

/-- `memset(send_buf, ...)` and `fgets(send_buf, sizeof(send_buf), stdin)`. -/
def Client.fill (c : Client) : Block UInt8 × List UInt8 :=
  (fgets (clearedBuf 64) c.stdin).getD (clearedBuf 64, c.stdin)

/-- `strncmp(buf, "quitall", 4) == 0 || strncmp(buf, "exitall", 4) == 0` -/
def isQuitAll (b : Block UInt8) : Bool :=
  b.cells 0 4 == (bytes "quitall").take 4 || b.cells 0 4 == (bytes "exitall").take 4

/-- The calls that return, and what happens to datagrams on their way. -/
inductive Event (ι : Type)
  | clientSendto (i : ι)
  | clientSendtoFails (i : ι)
  | clientRecvfrom (i : ι) (data : List UInt8)
  | clientRecvfromFails (i : ι)
  | serverRecvfrom (i : ι) (data : List UInt8)
  | serverRecvfromFails
  | serverSendto
  | serverSendtoFails
  | loseToServer (d : ι × List UInt8)
  | loseToClient (d : ι × List UInt8)
  | duplicateToServer (d : ι × List UInt8)
  | duplicateToClient (d : ι × List UInt8)

def State.setClient (s : State ι) (i : ι) (c : Client) : State ι :=
  { s with client := Function.update s.client i c }

/-- A datagram that is longer than the buffer is cut. -/
def received (size : ℕ) (data : List UInt8) : Block UInt8 :=
  (clearedBuf size).overlay (data.take size)

def State.take (s : State ι) : Event ι → Option (State ι)
  | .clientSendto i =>
      let c := s.client i
      match c.pc, c.fill.1.cstr 0 with
      | .fgets, some text =>
          let (sendBuf, stdin) := c.fill
          some { s.setClient i { c with
              pc := if isQuit sendBuf then .done else .recv
              stdin := stdin
              asked := c.asked ++ [text] } with
            toServer := s.toServer ++ [(i, text)] }
      | _, _ => none
  | .clientSendtoFails i =>
      if (s.client i).pc = .fgets then some (s.setClient i { s.client i with pc := .done })
      else none
  | .clientRecvfrom i data =>
      let c := s.client i
      if c.pc = .recv ∧ (i, data) ∈ s.toClient then
        some { s.setClient i { c with
            pc := .fgets
            shown := c.shown ++ [((data.take 64).length, (received 64 data).cstr 0)] } with
          toClient := s.toClient.erase (i, data) }
      else none
  | .clientRecvfromFails i =>
      if (s.client i).pc = .recv then some (s.setClient i { s.client i with pc := .done })
      else none
  | .serverRecvfrom i data =>
      if s.server = .recvfrom ∧ (i, data) ∈ s.toServer then
        let buf := received 1024 data
        some { s with
          buf := buf
          printed := s.printed ++ [(i, buf.cstr 0)]
          server := if isQuitAll buf then .done else .sendto i
          toServer := s.toServer.erase (i, data) }
      else none
  | .serverRecvfromFails => if s.server = .recvfrom then some s else none
  | .serverSendto =>
      match s.server, s.buf.cstr 0 with
      | .sendto clientaddr, some text =>
          some { s with server := .recvfrom, toClient := s.toClient ++ [(clientaddr, text)] }
      | _, _ => none
  | .serverSendtoFails =>
      match s.server with
      | .sendto _ => some { s with server := .done }
      | _ => none
  | .loseToServer d =>
      if d ∈ s.toServer then some { s with toServer := s.toServer.erase d } else none
  | .loseToClient d =>
      if d ∈ s.toClient then some { s with toClient := s.toClient.erase d } else none
  | .duplicateToServer d =>
      if d ∈ s.toServer then some { s with toServer := s.toServer ++ [d] } else none
  | .duplicateToClient d =>
      if d ∈ s.toClient then some { s with toClient := s.toClient ++ [d] } else none

def newState (stdin : ι → List UInt8) : State ι where
  client := fun i => ⟨.fgets, stdin i, [], []⟩
  server := .recvfrom
  buf := clearedBuf 1024
  printed := []
  toServer := []
  toClient := []

end UdpEcho

open UdpEcho

/-- The clients with their input, and the server in front of its loop. -/
def udpEcho (stdin : ι → List UInt8) : EventSystem (State ι) (UdpEcho.Event ι) where
  init := fun s => s = newState stdin
  take := State.take

namespace UdpEcho

/-! ### Texts -/

/-- The text starts with "quit" or "exit". -/
def Quits (text : List UInt8) : Prop := bytes "quit" <+: text ∨ bytes "exit" <+: text

theorem cells_four_iff {b : Block UInt8} {text word : List UInt8} (h : b.Spells 0 text)
    (hword : word.length = 4) (hnoNul : 0 ∉ word) : b.cells 0 4 = word ↔ word <+: text := by
  constructor
  · intro hcells
    have hlen : 4 ≤ text.length := by
      by_contra hshort
      have hmem : b.cell (0 + text.length) ∈ b.cells 0 4 :=
        List.mem_map.mpr ⟨text.length, List.mem_range.mpr (not_le.mp hshort), rfl⟩
      rw [h.nul, hcells] at hmem
      exact hnoNul hmem
    rw [← hcells, ← h.cells, ← Block.cells_take b 0 hlen]
    exact List.take_prefix 4 _
  · rintro ⟨rest, rfl⟩
    have hlen : 4 ≤ (word ++ rest).length := by
      rw [List.length_append]
      omega
    rw [← Block.cells_take b 0 hlen, h.cells, ← hword, List.take_left]

theorem isQuit_iff {b : Block UInt8} {text : List UInt8} (h : b.Spells 0 text) :
    isQuit b = true ↔ Quits text := by
  rw [isQuit, Bool.or_eq_true, beq_iff_eq, beq_iff_eq,
    cells_four_iff h (by decide) (by decide), cells_four_iff h (by decide) (by decide), Quits]

/-- Only the first four characters are compared. -/
theorem isQuitAll_eq (b : Block UInt8) : isQuitAll b = isQuit b := rfl

theorem spells_received {size : ℕ} {data : List UInt8} (hlen : data.length < size)
    (hnoNul : 0 ∉ data) : (received size data).Spells 0 data := by
  rw [received, List.take_of_length_le hlen.le]
  exact Block.spells_overlay_iff.mpr ⟨hnoNul, hlen⟩

/-- A client has sent the lines of its input, and empty texts when there are no
more. -/
def Asks (stdin : List UInt8) (c : Client) : Prop :=
  ∃ j, c.asked ++ echoLines c.stdin = echoLines stdin ++ List.replicate j [] ∧
    (0 < j → c.stdin = [])

theorem Asks.fill {stdin : List UInt8} {c : Client} (h : Asks stdin c) {text : List UInt8}
    (htext : c.fill.1.cstr 0 = some text) (pc : EchoPc) :
    text.length < 64 ∧ 0 ∉ text ∧
      Asks stdin { c with pc := pc, stdin := c.fill.2, asked := c.asked ++ [text] } := by
  have hspells : c.fill.1.Spells 0 text := Block.cstr_eq_some_iff.mp htext
  obtain ⟨j, hlines, hj⟩ := h
  rcases hstdin : c.stdin with _ | ⟨d, rest⟩
  · have hfill : c.fill = (clearedBuf 64, []) := by rw [Client.fill, hstdin]; rfl
    rw [hfill] at hspells ⊢
    have hnone : (clearedBuf 64).Spells 0 [] := ⟨rfl, (by decide : 0 < 64), rfl, nofun⟩
    obtain rfl : text = [] := hspells.unique hnone
    rw [hstdin, show echoLines [] = [] from rfl, List.append_nil] at hlines
    refine ⟨by decide, nofun, j + 1, ?_, fun _ => rfl⟩
    show c.asked ++ [[]] ++ [] = _
    rw [List.append_nil, hlines, List.replicate_succ', List.append_assoc]
  · have hne : c.stdin ≠ [] := by rw [hstdin]; exact List.cons_ne_nil d rest
    obtain ⟨b, rest', line, hfgets, hsize, hline, hlines'⟩ :=
      fgets_echoLines (show (clearedBuf 64).size = 64 from rfl) hne
    have hfill : c.fill = (b, rest') := by rw [Client.fill, hfgets, Option.getD_some]
    rw [hfill] at hspells ⊢
    have hsame : text = line := hspells.unique hline
    have hroom := hspells.room
    rw [Nat.zero_add, hsize] at hroom
    have hzero : j = 0 := by
      by_contra hpos
      exact hne (hj (Nat.pos_of_ne_zero hpos))
    subst hzero
    refine ⟨hroom, hspells.noNul, 0, ?_, fun hpos => absurd hpos (lt_irrefl 0)⟩
    rw [← hlines, hlines', hsame, List.append_assoc]
    rfl

/-! ### Whatever happens to the datagrams -/

/-- What a client has sent and printed. -/
structure Client.Sound (stdin : List UInt8) (c : Client) : Prop where
  asks : Asks stdin c
  texts : ∀ text ∈ c.asked, text.length < 64 ∧ 0 ∉ text
  shown : ∀ a ∈ c.shown, ∃ text ∈ c.asked, ¬ Quits text ∧ a = (text.length, some text)
  ready : c.pc = .fgets → c.shown.length = c.asked.length
  waits : c.pc = .recv → c.shown.length + 1 = c.asked.length
  le : c.shown.length ≤ c.asked.length
  ge : c.asked.length ≤ c.shown.length + 1

/-- Everything on its way, and in the buffer of the server, has been sent by a
client. -/
structure State.Carries (s : State ι) (asked : ι → List (List UInt8)) : Prop where
  up : ∀ d ∈ s.toServer, d.2 ∈ asked d.1
  sending : ∀ i, s.server = .sendto i → ∃ text ∈ asked i, s.buf.Spells 0 text ∧ ¬ Quits text
  down : ∀ d ∈ s.toClient, d.2 ∈ asked d.1 ∧ ¬ Quits d.2
  printed : ∀ a ∈ s.printed, ∃ text ∈ asked a.1, a.2 = some text ∧
    (Quits text → s.server = .done)

structure State.Sound (stdin : ι → List UInt8) (s : State ι) : Prop where
  client : ∀ i, (s.client i).Sound (stdin i)
  carries : s.Carries fun i => (s.client i).asked

section Steps

variable {stdin : ι → List UInt8} {s s' : State ι}

omit [DecidableEq ι] in
theorem State.Carries.mono {asked asked' : ι → List (List UInt8)} (h : s.Carries asked)
    (hsub : ∀ i, asked i ⊆ asked' i) : s.Carries asked' where
  up := fun d hd => hsub _ (h.up d hd)
  sending := fun i hi => by
    obtain ⟨text, hmem, hrest⟩ := h.sending i hi
    exact ⟨text, hsub _ hmem, hrest⟩
  down := fun d hd => ⟨hsub _ (h.down d hd).1, (h.down d hd).2⟩
  printed := fun a ha => by
    obtain ⟨text, hmem, hrest⟩ := h.printed a ha
    exact ⟨text, hsub _ hmem, hrest⟩

/-- A step of one client, which sends what it is asked for. -/
theorem State.Sound.setClient (h : s.Sound stdin) {i : ι} {c : Client} (hc : c.Sound (stdin i))
    (hsub : (s.client i).asked ⊆ c.asked) : (s.setClient i c).Sound stdin := by
  have hclient : ∀ j, (s.setClient i c).client j = if j = i then c else s.client j :=
    fun j => Function.update_apply ..
  refine ⟨fun j => ?_, ?_⟩
  · rw [hclient]
    split
    · rename_i hj
      rw [hj]
      exact hc
    · exact h.client j
  · have hasked : ∀ j, (s.client j).asked ⊆ ((s.setClient i c).client j).asked := by
      intro j
      rw [hclient]
      split
      · rename_i hj
        rw [hj]
        exact hsub
      · exact List.Subset.refl _
    obtain ⟨hup, hsending, hdown, hprinted⟩ := h.carries.mono hasked
    exact ⟨hup, hsending, hdown, hprinted⟩

theorem Client.Sound.sends {input : List UInt8} {c : Client} (hc : c.Sound input)
    (hpc : c.pc = .fgets) {text : List UInt8} (htext : c.fill.1.cstr 0 = some text) :
    Client.Sound input { c with
      pc := if isQuit c.fill.1 then .done else .recv
      stdin := c.fill.2
      asked := c.asked ++ [text] } := by
  obtain ⟨hlt, hnoNul, hasks⟩ := hc.asks.fill htext (if isQuit c.fill.1 then .done else .recv)
  have hcount := hc.ready hpc
  refine ⟨hasks, fun t ht => ?_, fun a ha => ?_, fun hf => ?_, fun _ => ?_, ?_, ?_⟩
  · rcases List.mem_append.mp ht with ht | ht
    · exact hc.texts t ht
    · rw [List.mem_singleton.mp ht]
      exact ⟨hlt, hnoNul⟩
  · obtain ⟨t, ht, hrest⟩ := hc.shown a ha
    exact ⟨t, List.mem_append_left _ ht, hrest⟩
  · -- whatever was sent, the client is not back at `fgets`
    have hf' : (if isQuit c.fill.1 = true then EchoPc.done else .recv) = .fgets := hf
    split at hf' <;> cases hf'
  · show c.shown.length + 1 = (c.asked ++ [text]).length
    rw [hcount, List.length_append, List.length_singleton]
  · show c.shown.length ≤ (c.asked ++ [text]).length
    rw [hcount, List.length_append]
    exact Nat.le_add_right _ _
  · show (c.asked ++ [text]).length ≤ c.shown.length + 1
    rw [hcount, List.length_append, List.length_singleton]

theorem Client.Sound.prints {input data : List UInt8} {c : Client} (hc : c.Sound input)
    (hpc : c.pc = .recv) (hasked : data ∈ c.asked) (hquits : ¬ Quits data) :
    Client.Sound input { c with
      pc := .fgets
      shown := c.shown ++ [((data.take 64).length, (received 64 data).cstr 0)] } := by
  obtain ⟨hlt, hnoNul⟩ := hc.texts data hasked
  have hcount := hc.waits hpc
  have hanswer : ((data.take 64).length, (received 64 data).cstr 0) =
      (data.length, some data) := by
    rw [List.take_of_length_le hlt.le,
      Block.cstr_eq_some_iff.mpr (spells_received hlt hnoNul)]
  refine ⟨hc.asks, hc.texts, fun a ha => ?_, fun _ => ?_, nofun, ?_, ?_⟩
  · rcases List.mem_append.mp ha with ha | ha
    · exact hc.shown a ha
    · rw [List.mem_singleton.mp ha, hanswer]
      exact ⟨data, hasked, hquits, rfl⟩
  · show (c.shown ++ [_]).length = c.asked.length
    rw [List.length_append, List.length_singleton, hcount]
  · show (c.shown ++ [_]).length ≤ c.asked.length
    rw [List.length_append, List.length_singleton, hcount]
  · show c.asked.length ≤ (c.shown ++ [_]).length + 1
    rw [List.length_append, List.length_singleton, hcount]
    exact Nat.le_succ _

/-- A call that fails ends the client. -/
theorem State.Sound.clientStops (h : s.Sound stdin) (i : ι) :
    (s.setClient i { s.client i with pc := .done }).Sound stdin := by
  have hc := h.client i
  exact h.setClient ⟨hc.asks, hc.texts, hc.shown, nofun, nofun, hc.le, hc.ge⟩
    (List.Subset.refl _)

theorem State.Sound.serverReceives (h : s.Sound stdin) (hserver : s.server = .recvfrom) {i : ι}
    {data : List UInt8} (hmem : (i, data) ∈ s.toServer) :
    State.Sound stdin { s with
      buf := received 1024 data
      printed := s.printed ++ [(i, (received 1024 data).cstr 0)]
      server := if isQuitAll (received 1024 data) then .done else .sendto i
      toServer := s.toServer.erase (i, data) } := by
  obtain ⟨hup, hsending, hdown, hprinted⟩ := h.carries
  have hasked : data ∈ (s.client i).asked := hup (i, data) hmem
  obtain ⟨hlt, hnoNul⟩ := (h.client i).texts data hasked
  have hspells : (received 1024 data).Spells 0 data := spells_received (by omega) hnoNul
  generalize received 1024 data = b at hspells ⊢
  have hquit : isQuitAll b = true ↔ Quits data := by
    rw [isQuitAll_eq]
    exact isQuit_iff hspells
  refine ⟨h.client, fun d hd => hup d (List.mem_of_mem_erase hd), fun j hj => ?_, hdown,
    fun a ha => ?_⟩
  · have hj' : (if isQuitAll b = true then ServerPc.done else .sendto i) = .sendto j := hj
    split at hj'
    · cases hj'
    · rename_i hnot
      cases hj'
      exact ⟨data, hasked, hspells, fun hq => hnot (hquit.mpr hq)⟩
  · rcases List.mem_append.mp ha with ha | ha
    · -- the server would have stopped at an earlier text that quits
      obtain ⟨text, htext, hsome, hquits⟩ := hprinted a ha
      refine ⟨text, htext, hsome, fun hq => ?_⟩
      rw [hserver] at hquits
      cases hquits hq
    · rw [List.mem_singleton.mp ha]
      exact ⟨data, hasked, Block.cstr_eq_some_iff.mpr hspells, fun hq => if_pos (hquit.mpr hq)⟩

omit [DecidableEq ι] in
theorem State.Sound.serverAnswers (h : s.Sound stdin) {i : ι} (hserver : s.server = .sendto i)
    {text : List UInt8} (htext : s.buf.cstr 0 = some text) :
    State.Sound stdin
      { s with server := .recvfrom, toClient := s.toClient ++ [(i, text)] } := by
  obtain ⟨hup, hsending, hdown, hprinted⟩ := h.carries
  obtain ⟨text', hasked, hspells, hquits⟩ := hsending i hserver
  obtain rfl := hspells.unique (Block.cstr_eq_some_iff.mp htext)
  refine ⟨h.client, hup, nofun, fun d hd => ?_, fun a ha => ?_⟩
  · rcases List.mem_append.mp hd with hd | hd
    · exact hdown d hd
    · rw [List.mem_singleton.mp hd]
      exact ⟨hasked, hquits⟩
  · obtain ⟨t, ht, hsome, hq⟩ := hprinted a ha
    refine ⟨t, ht, hsome, fun hquit => ?_⟩
    rw [hserver] at hq
    cases hq hquit

omit [DecidableEq ι] in
/-- Datagrams on their way that are lost or copied. -/
theorem State.Sound.inFlight (h : s.Sound stdin) {up down : List (ι × List UInt8)}
    (hup : up ⊆ s.toServer) (hdown : down ⊆ s.toClient) :
    State.Sound stdin { s with toServer := up, toClient := down } :=
  ⟨h.client, fun d hd => h.carries.up d (hup hd), h.carries.sending,
    fun d hd => h.carries.down d (hdown hd), h.carries.printed⟩

/-- **Every step keeps it**, whether datagrams are lost, copied or delivered. -/
theorem State.Sound.take (h : s.Sound stdin) {e : UdpEcho.Event ι} (htake : s.take e = some s') :
    s'.Sound stdin := by
  have hcopied : ∀ {l : List (ι × List UInt8)} {d}, d ∈ l → l ++ [d] ⊆ l := fun hmem =>
    List.append_subset.mpr ⟨List.Subset.refl _, List.cons_subset.mpr ⟨hmem, List.nil_subset _⟩⟩
  cases e with
  | clientSendto i =>
      rw [State.take] at htake
      simp only at htake
      split at htake
      · rename_i text hpc htext
        cases htake
        obtain ⟨hclient, hup, hsending, hdown, hprinted⟩ :=
          h.setClient ((h.client i).sends hpc htext) (List.subset_append_left _ _)
        -- the new datagram is the last text of the client
        refine ⟨hclient, fun d hd => ?_, hsending, hdown, hprinted⟩
        rcases List.mem_append.mp hd with hd | hd
        · exact hup d hd
        · rw [List.mem_singleton.mp hd]
          simp [State.setClient]
      · cases htake
  | clientRecvfrom i data =>
      obtain ⟨⟨hpc, hmem⟩, hret⟩ := Option.ite_none_right_eq_some.mp htake
      cases hret
      obtain ⟨hasked, hquits⟩ := h.carries.down (i, data) hmem
      obtain ⟨hclient, hup, hsending, hdown, hprinted⟩ :=
        h.setClient ((h.client i).prints hpc hasked hquits) (List.Subset.refl _)
      exact ⟨hclient, hup, hsending, fun d hd => hdown d (List.mem_of_mem_erase hd), hprinted⟩
  | clientSendtoFails i | clientRecvfromFails i =>
      obtain ⟨-, hret⟩ := Option.ite_none_right_eq_some.mp htake
      cases hret
      exact h.clientStops i
  | serverRecvfrom i data =>
      obtain ⟨⟨hserver, hmem⟩, hret⟩ := Option.ite_none_right_eq_some.mp htake
      cases hret
      exact h.serverReceives hserver hmem
  | serverRecvfromFails =>
      obtain ⟨-, hret⟩ := Option.ite_none_right_eq_some.mp htake
      cases hret
      exact h
  | serverSendto =>
      rw [State.take] at htake
      split at htake
      · rename_i i text hserver htext
        cases htake
        exact h.serverAnswers hserver htext
      · cases htake
  | serverSendtoFails =>
      rw [State.take] at htake
      split at htake
      · cases htake
        obtain ⟨hup, hsending, hdown, hprinted⟩ := h.carries
        refine ⟨h.client, hup, nofun, hdown, fun a ha => ?_⟩
        obtain ⟨t, ht, hsome, -⟩ := hprinted a ha
        exact ⟨t, ht, hsome, fun _ => rfl⟩
      · cases htake
  | loseToServer d =>
      obtain ⟨-, hret⟩ := Option.ite_none_right_eq_some.mp htake
      cases hret
      exact h.inFlight List.erase_subset (List.Subset.refl _)
  | loseToClient d =>
      obtain ⟨-, hret⟩ := Option.ite_none_right_eq_some.mp htake
      cases hret
      exact h.inFlight (List.Subset.refl _) List.erase_subset
  | duplicateToServer d =>
      obtain ⟨hmem, hret⟩ := Option.ite_none_right_eq_some.mp htake
      cases hret
      exact h.inFlight (hcopied hmem) (List.Subset.refl _)
  | duplicateToClient d =>
      obtain ⟨hmem, hret⟩ := Option.ite_none_right_eq_some.mp htake
      cases hret
      exact h.inFlight (List.Subset.refl _) (hcopied hmem)

theorem reachable_sound (h : Reachable (udpEcho stdin).system s) : s.Sound stdin := by
  refine EventSystem.invariant (P := fun s => s.Sound stdin) ?_ ?_ h
  · rintro _ rfl
    exact ⟨fun i => ⟨⟨0, by simp [newState], nofun⟩, nofun, nofun, fun _ => rfl, nofun, le_rfl,
      Nat.zero_le _⟩,
      nofun, nofun, nofun, nofun⟩
  · intro s e s' hs _ htake
    exact hs.take htake

end Steps

/-- **Nothing is made up.**  Whatever happens to the datagrams, a client sends the
lines of its input and then empty texts, and every answer that it prints is one of
the texts that it has sent, which does not start with "quit" or "exit".  What the
server prints has been sent by the client that it names, and when it starts with
"quit" or "exit" the server has stopped. -/
theorem udp_integrity {stdin : ι → List UInt8} {s : State ι}
    (h : Reachable (udpEcho stdin).system s) :
    (∀ i, (∃ j, (s.client i).asked <+: echoLines (stdin i) ++ List.replicate j []) ∧
      (s.client i).shown.length ≤ (s.client i).asked.length ∧
      ∀ a ∈ (s.client i).shown, ∃ text ∈ (s.client i).asked, ¬ Quits text ∧
        a = (text.length, some text)) ∧
    ∀ a ∈ s.printed, ∃ text ∈ (s.client a.1).asked, a.2 = some text ∧
      (Quits text → s.server = .done) := by
  have hs := reachable_sound h
  refine ⟨fun i => ⟨?_, (hs.client i).le, (hs.client i).shown⟩, hs.carries.printed⟩
  obtain ⟨j, hlines, -⟩ := (hs.client i).asks
  exact ⟨j, _, hlines⟩

/-- An answer that arrives twice. -/
def copiedRun : List (UdpEcho.Event Bool) :=
  [.clientSendto true, .clientSendto false, .serverRecvfrom true (bytes "hi\n"), .serverSendto,
    .duplicateToClient (true, bytes "hi\n"), .clientRecvfrom true (bytes "hi\n"),
    .clientSendto true, .clientRecvfrom true (bytes "hi\n"), .loseToServer (false, bytes "ab")]

/-- `udp_integrity` after that run. -/
theorem udp_integrity_copied : ∃ s : State Bool,
    (udpEcho twoLines).run (newState twoLines) copiedRun = some s ∧
      ∀ a ∈ s.printed, ∃ text ∈ (s.client a.1).asked, a.2 = some text ∧
        (Quits text → s.server = .done) := by
  obtain ⟨s, hs⟩ := Option.isSome_iff_exists.mp
    (by decide +kernel : ((udpEcho twoLines).run (newState twoLines) copiedRun).isSome = true)
  exact ⟨s, hs, (udp_integrity
    (EventSystem.reachable_run (.init rfl) (fun _ _ _ => trivial) hs)).2⟩

/-! ### Without copies -/

/-- The datagrams of a client that are on their way, or in the buffer of the
server. -/
def State.copies (s : State ι) (i : ι) : ℕ :=
  s.toServer.countP (fun d => d.1 = i) + (if s.server = .sendto i then 1 else 0) +
    s.toClient.countP (fun d => d.1 = i)

/-- A client has at most one datagram on its way, the one with its last text, and
none when it reads its next line. -/
structure State.InStep (s : State ι) : Prop where
  copies : ∀ i, s.copies i ≤ if (s.client i).pc = .fgets then 0 else 1
  up : ∀ d ∈ s.toServer, (s.client d.1).asked.getLast? = some d.2
  sending : ∀ i text, s.server = .sendto i → s.buf.Spells 0 text →
    (s.client i).asked.getLast? = some text
  down : ∀ d ∈ s.toClient, (s.client d.1).asked.getLast? = some d.2
  shown : ∀ i, (s.client i).shown = ((s.client i).asked.take (s.client i).shown.length).map
    fun text => (text.length, some text)

/-- A datagram that arrives, or is lost, is not on its way any more. -/
theorem countP_erase {l : List (ι × List UInt8)} {d : ι × List UInt8} (h : d ∈ l) (i : ι) :
    (l.erase d).countP (fun d => d.1 = i) + (if d.1 = i then 1 else 0) =
      l.countP fun d => d.1 = i := by
  rw [(List.perm_cons_erase h).countP_eq, List.countP_cons]
  simp

/-- No datagram is copied. -/
def Event.Single : UdpEcho.Event ι → Prop
  | .duplicateToServer _ | .duplicateToClient _ => False
  | _ => True

section InStep

variable {stdin : ι → List UInt8} {s s' : State ι}

theorem client_self (s : State ι) (i : ι) (c : Client) : (s.setClient i c).client i = c :=
  Function.update_self ..

theorem client_ne {i j : ι} (hj : j ≠ i) (s : State ι) (c : Client) :
    (s.setClient i c).client j = s.client j :=
  Function.update_of_ne hj ..

/-- A step of a client that has not sent anything. -/
theorem State.InStep.setClient (h : s.InStep) {i : ι} {c : Client}
    (hasked : c.asked = (s.client i).asked)
    (hcopies : s.copies i ≤ if c.pc = .fgets then 0 else 1)
    (hshown : c.shown = (c.asked.take c.shown.length).map fun text => (text.length, some text)) :
    (s.setClient i c).InStep := by
  have hsame : ∀ j, ((s.setClient i c).client j).asked = (s.client j).asked := by
    intro j
    by_cases hj : j = i
    · subst hj
      rw [client_self, hasked]
    · rw [client_ne hj]
  refine ⟨fun j => ?_, fun d hd => ?_, fun j text hj htext => ?_, fun d hd => ?_, fun j => ?_⟩
  · show s.copies j ≤ _
    by_cases hj : j = i
    · subst hj
      rw [client_self]
      exact hcopies
    · rw [client_ne hj]
      exact h.copies j
  · rw [hsame]
    exact h.up d hd
  · rw [hsame]
    exact h.sending j text hj htext
  · rw [hsame]
    exact h.down d hd
  · by_cases hj : j = i
    · subst hj
      rw [client_self]
      exact hshown
    · rw [client_ne hj]
      exact h.shown j

theorem State.InStep.copies_le (h : s.InStep) (i : ι) : s.copies i ≤ 1 := by
  have hle := h.copies i
  split at hle
  · omega
  · exact hle

/-- A client sends its next line when nothing is on its way. -/
theorem State.InStep.send (h : s.InStep) {i : ι} {c : Client} {text : List UInt8}
    (hpc : (s.client i).pc = .fgets) (hnext : c.pc ≠ .fgets)
    (hasked : c.asked = (s.client i).asked ++ [text]) (hshown : c.shown = (s.client i).shown)
    (hcount : (s.client i).shown.length = (s.client i).asked.length) :
    { s.setClient i c with toServer := s.toServer ++ [(i, text)] }.InStep := by
  have hzero : s.copies i = 0 := by
    have hle := h.copies i
    rw [if_pos hpc] at hle
    exact Nat.le_zero.mp hle
  rw [State.copies] at hzero
  have hup : ∀ d ∈ s.toServer, d.1 ≠ i := by
    intro d hd e
    have hpos := List.countP_eq_zero.mp (show s.toServer.countP (fun d => d.1 = i) = 0 by omega)
    exact hpos d hd (decide_eq_true e)
  have hdown : ∀ d ∈ s.toClient, d.1 ≠ i := by
    intro d hd e
    have hpos := List.countP_eq_zero.mp (show s.toClient.countP (fun d => d.1 = i) = 0 by omega)
    exact hpos d hd (decide_eq_true e)
  have hserver : s.server ≠ .sendto i := by
    intro e
    rw [if_pos e] at hzero
    omega
  refine ⟨fun j => ?_, fun d hd => ?_, fun j t hj ht => ?_, fun d hd => ?_, fun j => ?_⟩
  · show (s.toServer ++ [(i, text)]).countP (fun d => d.1 = j) + _ + _ ≤ _
    rw [List.countP_append, List.countP_singleton]
    by_cases hj : j = i
    · subst hj
      show _ ≤ if ((s.setClient j c).client j).pc = .fgets then 0 else 1
      rw [client_self, if_neg hnext]
      simp only [decide_true, if_true]
      show s.toServer.countP (fun d => d.1 = j) + 1 + (if s.server = .sendto j then 1 else 0) +
        s.toClient.countP (fun d => d.1 = j) ≤ 1
      omega
    · show _ ≤ if ((s.setClient i c).client j).pc = .fgets then 0 else 1
      rw [client_ne hj]
      have hle := h.copies j
      rw [State.copies] at hle
      rw [if_neg (show ¬ decide (i = j) = true from fun e => hj (of_decide_eq_true e).symm),
        Nat.add_zero]
      exact hle
  · rcases List.mem_append.mp hd with hd | hd
    · show ((s.setClient i c).client d.1).asked.getLast? = _
      rw [client_ne (hup d hd)]
      exact h.up d hd
    · rw [List.mem_singleton.mp hd]
      show ((s.setClient i c).client i).asked.getLast? = _
      rw [client_self, hasked, List.getLast?_concat]
  · have hne : j ≠ i := by
      rintro rfl
      exact hserver hj
    show ((s.setClient i c).client j).asked.getLast? = _
    rw [client_ne hne]
    exact h.sending j t hj ht
  · show ((s.setClient i c).client d.1).asked.getLast? = _
    rw [client_ne (hdown d hd)]
    exact h.down d hd
  · show ((s.setClient i c).client j).shown = (((s.setClient i c).client j).asked.take _).map _
    by_cases hj : j = i
    · subst hj
      have hsame := h.shown j
      rw [client_self, hasked, hshown, List.take_append_of_le_length hcount.le]
      exact hsame
    · rw [client_ne hj]
      exact h.shown j

/-- The datagrams to the server, those to the clients and the server change, and
no client does. -/
theorem State.InStep.network (h : s.InStep) (hclient : s'.client = s.client)
    (hcopies : ∀ i, s'.copies i ≤ s.copies i) (hup : ∀ d ∈ s'.toServer, d ∈ s.toServer)
    (hsending : ∀ i text, s'.server = .sendto i → s'.buf.Spells 0 text →
      (s.client i).asked.getLast? = some text)
    (hdown : ∀ d ∈ s'.toClient, (s.client d.1).asked.getLast? = some d.2) : s'.InStep where
  copies := fun i => by
    rw [hclient]
    exact (hcopies i).trans (h.copies i)
  up := fun d hd => by
    rw [hclient]
    exact h.up d (hup d hd)
  sending := by
    rw [hclient]
    exact hsending
  down := by
    rw [hclient]
    exact hdown
  shown := by
    rw [hclient]
    exact h.shown

/-- A datagram to a client is off its way, lost or received. -/
theorem State.InStep.loseToClient (h : s.InStep) {d : ι × List UInt8} (hmem : d ∈ s.toClient) :
    { s with toClient := s.toClient.erase d }.InStep := by
  refine h.network rfl (fun j => ?_) (fun _ hd => hd) h.sending
    fun d hd => h.down d (List.mem_of_mem_erase hd)
  have hj := countP_erase hmem j
  rw [State.copies, State.copies]
  simp only
  omega

/-- A client prints the answer to its last line, the last datagram that it has on
its way. -/
theorem State.InStep.clientReceives (hs : s.Sound stdin) (h : s.InStep) {i : ι}
    {data : List UInt8} (hpc : (s.client i).pc = .recv) (hmem : (i, data) ∈ s.toClient) :
    { s.setClient i { s.client i with
        pc := .fgets
        shown := (s.client i).shown ++
          [((data.take 64).length, (received 64 data).cstr 0)] } with
      toClient := s.toClient.erase (i, data) }.InStep := by
  have hc := hs.client i
  obtain ⟨hasked, -⟩ := hs.carries.down (i, data) hmem
  obtain ⟨hlt, hnoNul⟩ := hc.texts data hasked
  have hcount := hc.waits hpc
  have hone := h.copies_le i
  have herase := countP_erase hmem i
  rw [if_pos rfl] at herase
  rw [State.copies] at hone
  refine (h.loseToClient hmem).setClient (i := i) rfl ?_ ?_
  · -- it was the only one of this client
    rw [State.copies, if_pos rfl]
    simp only
    omega
  · -- and it answers the text that was asked last
    have hlast : (s.client i).asked = (s.client i).asked.take (s.client i).shown.length ++
        [data] := by
      obtain ⟨l, hl⟩ := List.getLast?_eq_some_iff.mp (h.down (i, data) hmem)
      have hlen : l.length = (s.client i).shown.length := by
        rw [hl, List.length_append, List.length_singleton] at hcount
        omega
      rw [hl, List.take_left' hlen]
    show (s.client i).shown ++ [_] = ((s.client i).asked.take _).map _
    rw [List.length_append, List.length_singleton, hcount, List.take_length, hlast,
      List.map_append, ← h.shown i, List.take_of_length_le hlt.le,
      Block.cstr_eq_some_iff.mpr (spells_received hlt hnoNul)]
    rfl

/-- The datagram goes from its way into the buffer. -/
theorem State.InStep.serverReceives (hs : s.Sound stdin) (h : s.InStep)
    (hserver : s.server = .recvfrom) {i : ι} {data : List UInt8} (hmem : (i, data) ∈ s.toServer) :
    State.InStep { s with
      buf := received 1024 data
      printed := s.printed ++ [(i, (received 1024 data).cstr 0)]
      server := if isQuitAll (received 1024 data) then .done else .sendto i
      toServer := s.toServer.erase (i, data) } := by
  have hasked := hs.carries.up (i, data) hmem
  obtain ⟨hlt, hnoNul⟩ := (hs.client i).texts data hasked
  have hspells : (received 1024 data).Spells 0 data := spells_received (by omega) hnoNul
  generalize received 1024 data = b at hspells ⊢
  have hnext : ∀ j, (if isQuitAll b = true then ServerPc.done else .sendto i) = .sendto j →
      i = j := by
    intro j hj
    split at hj
    · cases hj
    · exact ServerPc.sendto.inj hj
  refine h.network rfl (fun j => ?_) (fun d hd => List.mem_of_mem_erase hd)
    (fun j text hj htext => ?_) h.down
  · have hj := countP_erase hmem j
    rw [State.copies, State.copies, hserver, if_neg (show ServerPc.recvfrom ≠ .sendto j from
      nofun)]
    simp only at hj ⊢
    by_cases hij : i = j
    · -- one less on its way, and at most one in the buffer
      have hone : ∀ pc : ServerPc ι, (if pc = .sendto j then 1 else 0) ≤ 1 := by
        intro pc
        split <;> omega
      have hpc := hone (if isQuitAll b = true then .done else .sendto i)
      rw [if_pos hij] at hj
      omega
    · rw [if_neg (fun e => hij (hnext j e))]
      omega
  · obtain rfl := hnext j hj
    obtain rfl := hspells.unique htext
    exact h.up (i, data) hmem

/-- The text goes from the buffer on its way. -/
theorem State.InStep.serverAnswers (h : s.InStep) {i : ι} (hserver : s.server = .sendto i)
    {text : List UInt8} (htext : s.buf.cstr 0 = some text) :
    State.InStep { s with server := .recvfrom, toClient := s.toClient ++ [(i, text)] } := by
  have hlast := h.sending i text hserver (Block.cstr_eq_some_iff.mp htext)
  refine h.network rfl (fun j => ?_) (fun _ hd => hd) (fun _ _ hj => by cases hj)
    fun d hd => ?_
  · rw [State.copies, State.copies, hserver]
    simp only [List.countP_append, List.countP_singleton, ServerPc.sendto.injEq,
      decide_eq_true_eq, reduceCtorEq, if_false]
    omega
  · rcases List.mem_append.mp hd with hd | hd
    · exact h.down d hd
    · rw [List.mem_singleton.mp hd]
      exact hlast

/-- **A line is on its way once.** -/
theorem State.InStep.take (hs : s.Sound stdin) (h : s.InStep) {e : UdpEcho.Event ι}
    (hsingle : e.Single) (htake : s.take e = some s') : s'.InStep := by
  cases e with
  | clientSendto i =>
      rw [State.take] at htake
      simp only at htake
      split at htake
      · rename_i text hpc htext
        cases htake
        refine h.send hpc ?_ rfl rfl ((hs.client i).ready hpc)
        show (if isQuit (s.client i).fill.1 = true then EchoPc.done else .recv) ≠ .fgets
        split <;> nofun
      · cases htake
  | clientRecvfrom i data =>
      obtain ⟨⟨hpc, hmem⟩, hret⟩ := Option.ite_none_right_eq_some.mp htake
      cases hret
      exact h.clientReceives hs hpc hmem
  | clientSendtoFails i | clientRecvfromFails i =>
      obtain ⟨-, hret⟩ := Option.ite_none_right_eq_some.mp htake
      cases hret
      exact h.setClient rfl (h.copies_le i) (h.shown i)
  | serverRecvfrom i data =>
      obtain ⟨⟨hserver, hmem⟩, hret⟩ := Option.ite_none_right_eq_some.mp htake
      cases hret
      exact h.serverReceives hs hserver hmem
  | serverRecvfromFails =>
      obtain ⟨-, hret⟩ := Option.ite_none_right_eq_some.mp htake
      cases hret
      exact h
  | serverSendto =>
      rw [State.take] at htake
      split at htake
      · rename_i i text hserver htext
        cases htake
        exact h.serverAnswers hserver htext
      · cases htake
  | serverSendtoFails =>
      rw [State.take] at htake
      split at htake
      · cases htake
        refine h.network rfl (fun j => ?_) (fun _ hd => hd) (fun _ _ hj => by cases hj) h.down
        rw [State.copies, State.copies]
        simp only [reduceCtorEq, if_false]
        omega
      · cases htake
  | loseToServer d =>
      obtain ⟨hmem, hret⟩ := Option.ite_none_right_eq_some.mp htake
      cases hret
      refine h.network rfl (fun j => ?_) (fun _ hd => List.mem_of_mem_erase hd) h.sending h.down
      have hj := countP_erase hmem j
      rw [State.copies, State.copies]
      simp only
      omega
  | loseToClient d =>
      obtain ⟨hmem, hret⟩ := Option.ite_none_right_eq_some.mp htake
      cases hret
      exact h.loseToClient hmem
  | duplicateToServer d => exact hsingle.elim
  | duplicateToClient d => exact hsingle.elim

end InStep

/-- **Line by line.**  As long as no datagram is copied, the k-th answer that a
client prints is the k-th text that it has sent, and it has sent at most one text
more; what gets lost is never made up for. -/
theorem udp_lockstep {stdin : ι → List UInt8} {s : State ι}
    (h : Reachable ((udpEcho stdin).under fun _ e => e.Single) s) (i : ι) :
    ∃ n, (s.client i).shown =
        ((s.client i).asked.take n).map (fun text => (text.length, some text)) ∧
      n ≤ (s.client i).asked.length ∧ (s.client i).asked.length ≤ n + 1 := by
  have hboth : s.Sound stdin ∧ s.InStep := by
    refine EventSystem.invariant (P := fun s => s.Sound stdin ∧ s.InStep) ?_ ?_ h
    · rintro _ rfl
      exact ⟨reachable_sound (.init rfl), fun _ => le_rfl, nofun, nofun, nofun, fun _ => rfl⟩
    · rintro s e s' ⟨hs, hstep⟩ hsingle htake
      exact ⟨hs.take htake, hstep.take hs hsingle htake⟩
  exact ⟨_, hboth.2.shown i, (hboth.1.client i).le, (hboth.1.client i).ge⟩

/-- Two clients, and a datagram that is lost. -/
def singleRun : List (UdpEcho.Event Bool) :=
  [.clientSendto true, .clientSendto false, .serverRecvfrom true (bytes "hi\n"), .serverSendto,
    .clientRecvfrom true (bytes "hi\n"), .loseToServer (false, bytes "ab"), .clientSendto true]

/-- `udp_lockstep` after that run. -/
theorem udp_lockstep_single : ∃ s : State Bool,
    (udpEcho twoLines).run (newState twoLines) singleRun = some s ∧
      ∃ n, (s.client true).shown =
          ((s.client true).asked.take n).map (fun text => (text.length, some text)) ∧
        n ≤ (s.client true).asked.length ∧ (s.client true).asked.length ≤ n + 1 := by
  obtain ⟨s, hs⟩ := Option.isSome_iff_exists.mp
    (by decide +kernel : ((udpEcho twoLines).run (newState twoLines) singleRun).isSome = true)
  have hsingle : ∀ e ∈ singleRun, ∀ _ : State Bool, e.Single := by
    simp [singleRun, Event.Single]
  exact ⟨s, hs, udp_lockstep (EventSystem.reachable_run (.init rfl) hsingle hs) true⟩

end UdpEcho

end CodeSnippet
