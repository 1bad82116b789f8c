/-
CodeSnippet/Netlink.lean

Printing hotplug events, as src/socket/netlink.c does.  An event is a datagram of
strings that end in NUL bytes; the program receives it into a buffer of 512 bytes
that it has cleared, and prints the strings one after the other.

Main results:
  * `printLoop_eq` — the loop over one datagram.
  * `netlink_eq` — the program prints the strings of all datagrams, and leaves its
    buffer exactly where a datagram fills the buffer and does not end in NUL.
  * `netlink_events` — events that fit the buffer are printed as they are.
-/
import CodeSnippet.CharStream
import CodeSnippet.CString

namespace CodeSnippet

open Memory

namespace Netlink

/-! ### The program -/

def bufSize : ℕ := 512

/-- What a pass of the loop over `poll` meets. -/
inductive Call
  | pollFails
  | recvFails
  | datagram (data : List UInt8)

/-- `while (i < len)`, for what was printed so far.  The last string may end
behind `len`. -/
def printLoop : ℕ → Block UInt8 → ℕ → ℕ → List (List UInt8) → Option (List (List UInt8))
  | 0, _, _, _, _ => none
  | fuel + 1, buf, len, i, printed =>
      if i < len then do
        let string ← buf.cstr i
        let n ← buf.strlen i
        printLoop fuel buf len (i + (n + 1)) (printed ++ [string])
      else some printed

/-- What is printed and, when the program ends, what `die` writes.  `recv` cuts a
datagram that is longer than the buffer. -/
def pollLoop : List Call → List (List UInt8) → Option (List (List UInt8) × Option (List UInt8))
  | [], printed => some (printed, none)
  | .pollFails :: _, printed => some (printed, some (bytes "Poll\n"))
  | .recvFails :: _, printed => some (printed, some (bytes "Recv\n"))
  | .datagram data :: calls, printed => do
      let received := data.take bufSize
      let buf := (⟨bufSize, fun _ => 0⟩ : Block UInt8).overlay received
      let printed ← printLoop (bufSize + 1) buf received.length 0 printed
      pollLoop calls printed

/-- The program, from the results of `socket` and `bind`. -/
def main (fd ret : ℤ) (calls : List Call) :
    Option (List (List UInt8) × Option (List UInt8)) :=
  if fd = -1 then some ([], some (bytes "Not root\n"))
  else if ret ≠ 0 then some ([], some (bytes "Bind failed\n"))
  else pollLoop calls []

/-! ### One datagram -/

/-- The strings of a datagram; the last one may lack its NUL byte. -/
def strings (data : List UInt8) : List (List UInt8) :=
  if data = [] ∨ data.getLast? = some 0 then (data.splitOn 0).dropLast else data.splitOn 0

theorem strings_nil : strings [] = [] := rfl

theorem strings_append {word : List UInt8} (hword : 0 ∉ word) (rest : List UInt8) :
    strings (word ++ 0 :: rest) = word :: strings rest := by
  have hne : word ++ 0 :: rest ≠ [] := by simp
  have hsplit : (word ++ 0 :: rest).splitOn 0 = word :: rest.splitOn 0 :=
    List.splitOn_append_cons_self_of_not_mem hword rest
  rcases List.eq_nil_or_concat' rest with rfl | ⟨init, last, rfl⟩
  · rw [strings, if_pos (.inr List.getLast?_concat), hsplit]
    rfl
  · have hlast : (word ++ 0 :: (init ++ [last])).getLast? = (init ++ [last]).getLast? := by
      rw [← List.cons_append, ← List.append_assoc, List.getLast?_concat, List.getLast?_concat]
    rw [strings, strings, hsplit, hlast]
    simp only [hne, false_or, List.append_eq_nil_iff, List.cons_ne_self, and_false]
    split
    · rw [List.dropLast_cons_of_ne_nil (List.splitOn_ne_nil _ _)]
    · rfl

theorem strings_word {word : List UInt8} (hword : 0 ∉ word) (hne : word ≠ []) :
    strings word = [word] := by
  have hlast : word.getLast? ≠ some 0 := fun h => hword (List.mem_of_getLast? h)
  rw [strings, if_neg (not_or.mpr ⟨hne, hlast⟩), List.splitOn_eq_singleton hword]

theorem cells_overlay (b : Block UInt8) (pre word post : List UInt8) :
    (b.overlay (pre ++ (word ++ post))).cells pre.length word.length = word := by
  have hcells := Block.overlay_cells b (pre ++ (word ++ post))
  rw [List.length_append, List.length_append, Block.cells_add, Block.cells_add, Nat.zero_add]
    at hcells
  obtain ⟨-, hrest⟩ := List.append_inj hcells (Block.cells_length ..)
  exact (List.append_inj hrest (Block.cells_length ..)).1

/-- **The loop over one datagram** prints the strings that are left of it, unless
it fills the buffer and does not end in NUL. -/
theorem printLoop_eq {fuel : ℕ} {pre rest : List UInt8} {b : Block UInt8}
    (hsize : b.size = bufSize) (hnul : ∀ k, b.cell k = 0) (hfuel : rest.length < fuel)
    (hlen : (pre ++ rest).length ≤ bufSize) (printed : List (List UInt8)) :
    printLoop fuel (b.overlay (pre ++ rest)) (pre ++ rest).length pre.length printed =
      if rest = [] ∨ (pre ++ rest).length < bufSize ∨ (pre ++ rest).getLast? = some 0 then
        some (printed ++ strings rest)
      else none := by
  induction fuel generalizing pre rest printed with
  | zero => omega
  | succ fuel ih =>
      rw [printLoop]
      by_cases hrest : rest = []
      · subst hrest
        rw [if_neg (by simp), if_pos (.inl rfl), strings_nil, List.append_nil]
      rw [if_pos (by
        rw [List.length_append]
        have hpos := List.length_pos_of_ne_nil hrest
        omega)]
      simp only [hrest, false_or]
      by_cases hmem : 0 ∈ rest
      · obtain ⟨word, post, rfl, hword⟩ := List.eq_append_cons_of_mem hmem
        have hassoc : pre ++ (word ++ 0 :: post) = (pre ++ (word ++ [0])) ++ post := by simp
        have hspells : (b.overlay (pre ++ (word ++ 0 :: post))).Spells pre.length word := by
          refine ⟨cells_overlay b pre word (0 :: post), ?_, ?_, hword⟩
          · rw [Block.overlay_size, hsize]
            simp only [List.length_append, List.length_cons] at hlen
            omega
          · have hnext := cells_overlay b (pre ++ word) [0] post
            rw [List.append_assoc, List.singleton_append, List.length_append,
              List.length_singleton, Block.cells_succ] at hnext
            simpa using hnext
        rw [Block.cstr_eq_some_iff.mpr hspells, Option.bind_eq_bind, Option.bind_some,
          hspells.strlen_eq, Option.bind_eq_bind, Option.bind_some]
        have hfuel' : post.length < fuel := by
          simp only [List.length_append, List.length_cons] at hfuel
          omega
        have hlen' : ((pre ++ (word ++ [0])) ++ post).length ≤ bufSize := by rwa [← hassoc]
        have hnext := ih hfuel' hlen' (printed ++ [word])
        rw [← hassoc] at hnext
        have hpos : (pre ++ (word ++ [0])).length = pre.length + (word.length + 1) := by simp
        rw [hpos] at hnext
        rw [hnext, strings_append hword, List.append_assoc, List.singleton_append]
        by_cases hpost : post = []
        · subst hpost
          have hlast : (pre ++ (word ++ [0])).getLast? = some 0 := by
            rw [← List.append_assoc, List.getLast?_concat]
          rw [if_pos (.inl rfl), if_pos (.inr hlast)]
        · simp only [hpost, false_or]
      · by_cases hfull : (pre ++ rest).length < bufSize
        · -- the buffer was cleared, so that there is a NUL byte behind the last string
          have hspells : (b.overlay (pre ++ rest)).Spells pre.length rest := by
            have hcells := cells_overlay b pre rest []
            rw [List.append_nil] at hcells
            refine ⟨hcells, ?_, ?_, hmem⟩
            · rw [Block.overlay_size, hsize, ← List.length_append]
              exact hfull
            · rw [← List.length_append, Block.overlay_cell_of_le b le_rfl]
              exact hnul _
          obtain ⟨fuel, rfl⟩ : ∃ k, fuel = k + 1 :=
            Nat.exists_eq_succ_of_ne_zero (by
              have hpos := List.length_pos_of_ne_nil hrest
              omega)
          rw [Block.cstr_eq_some_iff.mpr hspells, Option.bind_eq_bind, Option.bind_some,
            hspells.strlen_eq, Option.bind_eq_bind, Option.bind_some, printLoop,
            if_neg (by rw [List.length_append]; omega), if_pos (.inl hfull),
            strings_word hmem hrest]
        · have hlast : (pre ++ rest).getLast? ≠ some 0 := by
            intro h
            rw [List.getLast?_append_of_ne_nil _ hrest] at h
            exact hmem (List.mem_of_getLast? h)
          rw [if_neg (not_or.mpr ⟨hfull, hlast⟩)]
          rcases hcstr : (b.overlay (pre ++ rest)).cstr pre.length with _ | string
          · rfl
          · -- the NUL byte would be one of the bytes that are left
            exfalso
            have hspells := Block.cstr_eq_some_iff.mp hcstr
            have hroom := hspells.room
            rw [Block.overlay_size, hsize] at hroom
            rw [List.length_append] at hfull hlen
            have hlt : string.length < rest.length := by omega
            have hcell := Block.cell_eq_getD (cells_overlay b pre rest []) hlt 0
            rw [List.append_nil, hspells.nul, List.getD_eq_getElem _ _ hlt] at hcell
            exact hmem (hcell ▸ List.getElem_mem hlt)

/-! ### All datagrams -/

/-- The buffer holds a NUL byte behind the last string. -/
def Ends (data : List UInt8) : Prop :=
  data.length < bufSize ∨ (data.take bufSize).getLast? = some 0

instance (data : List UInt8) : Decidable (Ends data) := inferInstanceAs (Decidable (_ ∨ _))

/-- The datagrams that are received before a call fails, and what is written
then. -/
def handled : List Call → List (List UInt8) × Option (List UInt8)
  | [] => ([], none)
  | .pollFails :: _ => ([], some (bytes "Poll\n"))
  | .recvFails :: _ => ([], some (bytes "Recv\n"))
  | .datagram data :: calls => (data :: (handled calls).1, (handled calls).2)

theorem pollLoop_eq (calls : List Call) (printed : List (List UInt8)) :
    pollLoop calls printed =
      if ∀ data ∈ (handled calls).1, Ends data then
        some (printed ++ (handled calls).1.flatMap (fun data => strings (data.take bufSize)),
          (handled calls).2)
      else none := by
  induction calls generalizing printed with
  | nil => simp [pollLoop, handled]
  | cons call calls ih =>
      cases call with
      | pollFails => simp [pollLoop, handled]
      | recvFails => simp [pollLoop, handled]
      | datagram data =>
          have hlt : (data.take bufSize).length < bufSize + 1 :=
            Nat.lt_succ_of_le (List.length_take_le _ _)
          have hle : ([] ++ data.take bufSize).length ≤ bufSize := List.length_take_le _ _
          have hloop := printLoop_eq (b := ⟨bufSize, fun _ => 0⟩) rfl (fun _ => rfl) hlt hle printed
          have hends : (data.take bufSize = [] ∨ (data.take bufSize).length < bufSize ∨
              (data.take bufSize).getLast? = some 0) ↔ Ends data := by
            have hshort : (data.take bufSize).length < bufSize ↔ data.length < bufSize := by
              rw [List.length_take]
              omega
            rw [hshort]
            refine ⟨fun h => h.elim (fun hnil => .inl ?_) id, .inr⟩
            rw [← hshort, hnil]
            decide
          rw [List.nil_append, List.length_nil] at hloop
          simp only [hends] at hloop
          rw [pollLoop, handled]
          simp only [hloop, List.forall_mem_cons]
          by_cases h : Ends data
          · rw [if_pos h, Option.bind_eq_bind, Option.bind_some, ih]
            simp only [h, true_and, List.flatMap_cons, List.append_assoc]
          · rw [if_neg h, if_neg (fun hall => h hall.1)]
            rfl

/-- **What the program prints**: the strings of all datagrams, in order; it leaves
its buffer exactly where a datagram fills the buffer and does not end in NUL. -/
theorem netlink_eq {fd : ℤ} (hfd : fd ≠ -1) (calls : List Call) :
    main fd 0 calls = if ∀ data ∈ (handled calls).1, Ends data then
        some ((handled calls).1.flatMap fun data => strings (data.take bufSize), (handled calls).2)
      else none := by
  rw [main, if_neg hfd, if_neg (not_not.mpr rfl), pollLoop_eq]
  rfl

/-- `netlink_eq` for three datagrams, one without a NUL byte at its end, before
`poll` fails. -/
theorem netlink_eq_threeDatagrams :
    main 3 0 [.datagram [97, 0, 98, 0], .datagram [], .datagram [99], .pollFails,
        .datagram [100]] =
      some ([[97], [98], [99]], some (bytes "Poll\n")) := by
  rw [netlink_eq (by decide)]
  decide +kernel

/-- An event as the kernel sends it. -/
def encode (texts : List (List UInt8)) : List UInt8 := texts.flatMap fun text => text ++ [0]

theorem strings_encode {texts : List (List UInt8)} (h : ∀ text ∈ texts, 0 ∉ text) :
    strings (encode texts) = texts := by
  induction texts with
  | nil => rfl
  | cons text texts ih =>
      rw [List.forall_mem_cons] at h
      have hcons : encode (text :: texts) = text ++ 0 :: encode texts := by
        simp [encode]
      rw [hcons, strings_append h.1, ih h.2]

theorem ends_encode {texts : List (List UInt8)} (h : (encode texts).length ≤ bufSize) :
    Ends (encode texts) := by
  rw [Ends, List.take_of_length_le h]
  rcases List.eq_nil_or_concat' texts with rfl | ⟨init, last, rfl⟩
  · exact .inl (by decide)
  · refine .inr ?_
    have hlast : encode (init ++ [last]) = encode init ++ last ++ [0] := by
      simp [encode]
    rw [hlast, List.getLast?_concat]

theorem handled_datagrams (l : List (List UInt8)) : handled (l.map .datagram) = (l, none) := by
  induction l with
  | nil => rfl
  | cons data l ih => rw [List.map_cons, handled, ih]

/-- **Events that fit the buffer are printed as they are**, string by string. -/
theorem netlink_events {fd : ℤ} (hfd : fd ≠ -1) {events : List (List (List UInt8))}
    (h : ∀ texts ∈ events, (∀ text ∈ texts, 0 ∉ text) ∧ (encode texts).length ≤ bufSize) :
    main fd 0 ((events.map encode).map .datagram) = some (events.flatten, none) := by
  rw [netlink_eq hfd, handled_datagrams, if_pos]
  · congr 2
    rw [List.flatMap_map, ← List.flatMap_id]
    refine List.flatMap_congr fun texts hmem => ?_
    obtain ⟨hnoNul, hle⟩ := h texts hmem
    rw [List.take_of_length_le hle, strings_encode hnoNul]
    rfl
  · intro data hdata
    obtain ⟨texts, hmem, rfl⟩ := List.mem_map.mp hdata
    exact ends_encode (h texts hmem).2

/-- `netlink_events` for an event of two strings and one of none. -/
theorem netlink_events_two :
    main 3 0 (([[[97, 64], [98]], []].map encode).map .datagram) =
      some ([[97, 64], [98]], none) :=
  netlink_events (by decide) (by decide +kernel)

end Netlink

end CodeSnippet
