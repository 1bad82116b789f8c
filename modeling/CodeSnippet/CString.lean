/-
CodeSnippet/CString.lean

C strings in blocks of bytes.  A string starts at an index of a block and ends
before the first NUL byte; the functions of `string.h` are undefined when they
run out of the block before they find what they look for.

`Spells b off l` says that `b` holds the string `l` at `off`.

Main results:
  * `scan_eq_some_iff` — where a loop that walks up a block stops.
  * `cstr_eq_some_iff` — the bytes before the first NUL are the string that the
    block spells.
  * `Spells.cut` — a NUL byte stored in a string leaves two strings.
-/
import CodeSnippet.Block

namespace Memory

namespace Block

/-! ### Walking up a block -/

section

variable {α : Type*} {p : α → Bool} {b : Block α} {off n : ℕ}

/-- `while (p(b[off + n])) n++;`, with `n` starting at 0: where it stops. -/
def scan (p : α → Bool) (b : Block α) (off : ℕ) : Option ℕ :=
  (List.range (b.size - off)).find? fun n => !p (b.cell (off + n))

theorem scan_eq_some_iff : b.scan p off = some n ↔
    off + n < b.size ∧ p (b.cell (off + n)) = false ∧ ∀ k < n, p (b.cell (off + k)) = true := by
  rw [scan, List.find?_range_eq_some, List.mem_range]
  simp only [Bool.not_eq_true', Bool.not_not]
  constructor
  · rintro ⟨hstop, hn, hbefore⟩
    exact ⟨by omega, hstop, hbefore⟩
  · rintro ⟨hn, hstop, hbefore⟩
    exact ⟨hstop, by omega, hbefore⟩

end

/-! ### Strings -/

variable {b : Block UInt8} {off n : ℕ} {c : UInt8} {l l₁ l₂ : List UInt8}

/-- `strlen(&b[off])`. -/
def strlen (b : Block UInt8) (off : ℕ) : Option ℕ := b.scan (fun c => c != 0) off

/-- The `strlen(&b[off])` bytes from `off` on. -/
def cstr (b : Block UInt8) (off : ℕ) : Option (List UInt8) :=
  (b.strlen off).bind fun n => b.read off n

/-- `strchr(&b[off], c)`: the index of the byte, or `NULL`. -/
def strchr (b : Block UInt8) (off : ℕ) (c : UInt8) : Option (Option ℕ) :=
  (b.scan (fun d => d != c && d != 0) off).map fun n =>
    if b.cell (off + n) = c then some (off + n) else none

/-- `strsep(&p, d)`, where `p` is `&b[off]` and `d` has the one byte `c`: `p` and
the block afterwards.  It returns what `p` was before. -/
def strsep (b : Block UInt8) (off : ℕ) (c : UInt8) : Option (Option ℕ × Block UInt8) := do
  let n ← b.scan (fun d => d != c && d != 0) off
  if b.cell (off + n) = c then
    let b ← b.store (off + n) 0
    return (some (off + n + 1), b)
  else return (none, b)

/-- `b` holds the C string `l` at `off`. -/
structure Spells (b : Block UInt8) (off : ℕ) (l : List UInt8) : Prop where
  cells : b.cells off l.length = l
  room : off + l.length < b.size
  nul : b.cell (off + l.length) = 0
  noNul : 0 ∉ l

theorem strlen_eq_some_iff : b.strlen off = some n ↔
    off + n < b.size ∧ b.cell (off + n) = 0 ∧ ∀ k < n, b.cell (off + k) ≠ 0 := by
  simp [strlen, scan_eq_some_iff]

theorem Spells.cell (h : b.Spells off l) {k : ℕ} (hk : k ≤ l.length) :
    b.cell (off + k) = l.getD k 0 := by
  rcases hk.lt_or_eq with hlt | rfl
  · exact cell_eq_getD h.cells hlt 0
  · rw [h.nul, List.getD_eq_default _ _ le_rfl]

theorem Spells.load_eq (h : b.Spells off l) : b.load off = some (l.headD 0) := by
  have hcell := h.cell (Nat.zero_le _)
  rw [Nat.add_zero] at hcell
  rw [Block.load_eq (by have := h.room; omega), hcell]
  cases l <;> rfl

/-- A loop walks over the part of a string that it does not stop at. -/
theorem Spells.scan_eq {p : UInt8 → Bool} (h : b.Spells off (l₁ ++ l₂)) (h₁ : ∀ c ∈ l₁, p c = true)
    (h₂ : p (l₂.headD 0) = false) : b.scan p off = some l₁.length := by
  have hroom := h.room
  rw [List.length_append] at hroom
  refine scan_eq_some_iff.mpr ⟨by omega, ?_, fun k hk => h₁ _ ?_⟩
  · rw [h.cell (by simp), List.getD_append_right _ _ _ _ le_rfl, Nat.sub_self]
    cases l₂ <;> exact h₂
  · rw [h.cell (by simp; omega), List.getD_append _ _ _ _ hk, List.getD_eq_getElem _ _ hk]
    exact List.getElem_mem hk

theorem Spells.strlen_eq (h : b.Spells off l) : b.strlen off = some l.length := by
  have happend : b.Spells off (l ++ []) := by rwa [List.append_nil]
  refine happend.scan_eq (fun c hmem => ?_) rfl
  have hne : c ≠ 0 := fun e => h.noNul (e ▸ hmem)
  simpa using hne

/-- The bytes before the first NUL byte. -/
theorem spells_cells (h : b.strlen off = some n) : b.Spells off (b.cells off n) := by
  obtain ⟨hn, hnul, hbefore⟩ := strlen_eq_some_iff.mp h
  refine ⟨by rw [cells_length], by rwa [cells_length], by rwa [cells_length], fun hmem => ?_⟩
  obtain ⟨k, hk, hzero⟩ := List.mem_map.mp hmem
  exact hbefore k (List.mem_range.mp hk) hzero

theorem cstr_eq_some_iff : b.cstr off = some l ↔ b.Spells off l := by
  constructor
  · intro h
    obtain ⟨n, hn, hread⟩ := Option.bind_eq_some_iff.mp h
    have hspells := spells_cells hn
    obtain ⟨hroom, -⟩ := strlen_eq_some_iff.mp hn
    rw [read_eq hroom.le] at hread
    rwa [← Option.some_inj.mp hread]
  · intro h
    rw [cstr, h.strlen_eq, Option.bind_some, read_eq h.room.le, h.cells]

theorem Spells.unique (h₁ : b.Spells off l₁) (h₂ : b.Spells off l₂) : l₁ = l₂ :=
  Option.some.inj ((cstr_eq_some_iff.mpr h₁).symm.trans (cstr_eq_some_iff.mpr h₂))

/-- There is a string where there is a NUL byte. -/
theorem exists_cstr (hn : off + n < b.size) (hnul : b.cell (off + n) = 0) :
    ∃ l, b.cstr off = some l := by
  have hex : ∃ k, b.cell (off + k) = 0 := ⟨n, hnul⟩
  have hle : Nat.find hex ≤ n := Nat.find_min' hex hnul
  have hlen : b.strlen off = some (Nat.find hex) :=
    strlen_eq_some_iff.mpr ⟨by omega, Nat.find_spec hex, fun k hk => Nat.find_min hex hk⟩
  exact ⟨_, cstr_eq_some_iff.mpr (spells_cells hlen)⟩

/-- The rest of a string. -/
theorem Spells.drop (h : b.Spells off (l₁ ++ l₂)) : b.Spells (off + l₁.length) l₂ := by
  obtain ⟨hcells, hroom, hnul, hnoNul⟩ := h
  rw [List.length_append] at hcells hroom hnul
  rw [cells_add] at hcells
  refine ⟨?_, by omega, by rwa [Nat.add_assoc], fun hmem => ?_⟩
  · exact (List.append_inj hcells (cells_length ..)).2
  · exact hnoNul (List.mem_append_right _ hmem)

/-- Cells that a store does not reach. -/
theorem set_cells {i : ℕ} (hi : i < off ∨ off + n ≤ i) :
    (b.set i c).cells off n = b.cells off n := by
  apply cells_congr
  intro k hk
  rw [set_cell, if_neg (by omega)]

theorem Spells.set (h : b.Spells off l) {i : ℕ} (hi : i < off ∨ off + l.length < i) :
    (b.set i c).Spells off l := by
  refine ⟨?_, h.room, ?_, h.noNul⟩
  · rw [set_cells (by omega), h.cells]
  · rw [set_cell, if_neg (by omega), h.nul]

/-- A NUL byte stored in a string leaves two strings. -/
theorem Spells.cut (h : b.Spells off (l₁ ++ c :: l₂)) :
    (b.set (off + l₁.length) 0).Spells off l₁ ∧
      (b.set (off + l₁.length) 0).Spells (off + l₁.length + 1) l₂ := by
  have hroom := h.room
  simp only [List.length_append, List.length_cons] at hroom
  constructor
  · -- before the NUL byte
    refine ⟨?_, by simp; omega, by simp, fun hmem => h.noNul (List.mem_append_left _ hmem)⟩
    have hcells := h.cells
    rw [List.length_append, cells_add] at hcells
    rw [set_cells (.inr le_rfl)]
    exact (List.append_inj hcells (cells_length ..)).1
  · -- behind it, where the store does not reach
    rw [List.append_cons] at h
    have hrest := h.drop
    rw [List.length_append, List.length_singleton, ← Nat.add_assoc] at hrest
    exact hrest.set (.inl (Nat.lt_succ_self _))

/-- A loop that looks for a byte of a string. -/
theorem Spells.scan_mem (h : b.Spells off (l₁ ++ c :: l₂)) (hc : c ∉ l₁) :
    b.scan (fun d => d != c && d != 0) off = some l₁.length ∧ b.cell (off + l₁.length) = c := by
  constructor
  · refine h.scan_eq (fun d hmem => ?_) (by simp)
    have hne : d ≠ c := fun e => hc (e ▸ hmem)
    have hnul : d ≠ 0 := fun e => h.noNul (e ▸ List.mem_append_left _ hmem)
    simp [hne, hnul]
  · have hcell := h.cell (k := l₁.length) (by simp)
    rwa [List.getD_append_right _ _ _ _ le_rfl, Nat.sub_self] at hcell

/-- A loop that looks for a byte that a string does not have. -/
theorem Spells.scan_notMem (h : b.Spells off l) (hc : c ∉ l) :
    b.scan (fun d => d != c && d != 0) off = some l.length ∧ b.cell (off + l.length) = 0 := by
  have happend : b.Spells off (l ++ []) := by rwa [List.append_nil]
  refine ⟨happend.scan_eq (fun d hmem => ?_) (by simp), h.nul⟩
  have hne : d ≠ c := fun e => hc (e ▸ hmem)
  have hnul : d ≠ 0 := fun e => h.noNul (e ▸ hmem)
  simp [hne, hnul]

/-- The string before a byte that `strchr` looks for. -/
theorem Spells.strchr_mem (h : b.Spells off (l₁ ++ c :: l₂)) (hc : c ∉ l₁) :
    b.strchr off c = some (some (off + l₁.length)) := by
  obtain ⟨hscan, hcell⟩ := h.scan_mem hc
  rw [strchr, hscan, Option.map_some, hcell, if_pos rfl]

theorem Spells.strchr_notMem (h : b.Spells off l) (hc : c ∉ l) (hne : c ≠ 0) :
    b.strchr off c = some none := by
  obtain ⟨hscan, hcell⟩ := h.scan_notMem hc
  rw [strchr, hscan, Option.map_some, hcell, if_neg hne.symm]

/-- The string before a byte that `strsep` looks for, and the one behind it. -/
theorem Spells.strsep_mem (h : b.Spells off (l₁ ++ c :: l₂)) (hc : c ∉ l₁) :
    ∃ b', b.strsep off c = some (some (off + l₁.length + 1), b') ∧ b'.size = b.size ∧
      b'.Spells off l₁ ∧ b'.Spells (off + l₁.length + 1) l₂ := by
  obtain ⟨hscan, hcell⟩ := h.scan_mem hc
  have hroom := h.room
  rw [List.length_append, List.length_cons] at hroom
  refine ⟨b.set (off + l₁.length) 0, ?_, rfl, h.cut.1, h.cut.2⟩
  rw [strsep, hscan, Option.bind_eq_bind, Option.bind_some, hcell, if_pos rfl,
    store_eq (by omega)]
  rfl

theorem Spells.strsep_notMem (h : b.Spells off l) (hc : c ∉ l) (hne : c ≠ 0) :
    b.strsep off c = some (none, b) := by
  obtain ⟨hscan, hcell⟩ := h.scan_notMem hc
  rw [strsep, hscan, Option.bind_eq_bind, Option.bind_some, hcell, if_neg hne.symm]
  rfl

/-! ### Strings that were written to a block -/

/-- The string in bytes that are followed by a NUL byte. -/
def untilNul (l : List UInt8) : List UInt8 := l.takeWhile (· != 0)

theorem untilNul_eq_self (h : 0 ∉ l) : untilNul l = l := by
  apply List.takeWhile_eq_self_iff.mpr
  intro c hmem
  have hne : c ≠ 0 := fun e => h (e ▸ hmem)
  simpa using hne

theorem notMem_untilNul (l : List UInt8) : 0 ∉ untilNul l := by
  intro hmem
  have hne := List.mem_takeWhile_imp hmem
  simp at hne

/-- What follows the string is a NUL byte. -/
theorem exists_untilNul_append (l : List UInt8) :
    ∃ rest, l ++ [0] = untilNul l ++ 0 :: rest := by
  induction l with
  | nil => exact ⟨[], rfl⟩
  | cons c l ih =>
      by_cases hc : c = 0
      · exact ⟨l ++ [0], by simp [untilNul, hc]⟩
      · obtain ⟨rest, hrest⟩ := ih
        refine ⟨rest, ?_⟩
        rw [untilNul, List.takeWhile_cons_of_pos (by simpa using hc), List.cons_append, hrest]
        rfl

/-- Bytes that lie in a block with a NUL byte behind them. -/
theorem spells_untilNul (h : b.cells off (l.length + 1) = l ++ [0])
    (hroom : off + l.length < b.size) : b.Spells off (untilNul l) := by
  obtain ⟨rest, hrest⟩ := exists_untilNul_append l
  have hlength := congrArg List.length hrest
  simp only [List.length_append, List.length_cons, List.length_nil] at hlength
  have hsplit : l.length + 1 = (untilNul l).length + (1 + rest.length) := by omega
  rw [hsplit, cells_add, cells_add, hrest] at h
  obtain ⟨hcells, htail⟩ := List.append_inj h (cells_length ..)
  refine ⟨hcells, by omega, ?_, notMem_untilNul l⟩
  exact List.head_eq_of_cons_eq htail

/-- A string written to a block with its NUL byte. -/
theorem spells_overlay_nul (hl : 0 ∉ l) (hsize : l.length < b.size) :
    (b.overlay (l ++ [0])).Spells 0 l := by
  have hcells := overlay_cells b (l ++ [0])
  rw [List.length_append, List.length_singleton, cells_succ] at hcells
  obtain ⟨hinit, hlast⟩ := List.append_inj hcells (cells_length ..)
  refine ⟨hinit, by simpa using hsize, ?_, hl⟩
  exact List.head_eq_of_cons_eq hlast

/-- A string written over a block of NUL bytes. -/
theorem spells_overlay_iff {size : ℕ} :
    (overlay ⟨size, fun _ => 0⟩ l).Spells 0 l ↔ 0 ∉ l ∧ l.length < size := by
  constructor
  · intro h
    have hroom := h.room
    rw [Nat.zero_add] at hroom
    exact ⟨h.noNul, hroom⟩
  · rintro ⟨hnoNul, hlength⟩
    refine ⟨overlay_cells _ l, ?_, ?_, hnoNul⟩
    · rwa [Nat.zero_add]
    · rw [Nat.zero_add, overlay_cell_of_le _ le_rfl]

end Block

end Memory
