/-
CodeSnippet/CharStream.lean

Reading from stdin as the token readers of src/algorithm do: one character at
a time through `getchar`, into a small array of `char`, with at most one
character put back by `ungetc`.  `char` is signed and the locale is "C", so a
byte from 128 on is neither a letter nor a digit, and byte 255, stored in a
`char`, equals `EOF`.

Main results:
  * `skipBlanks_spec`, `readRun_spec` — the two loops every reader is made of.
  * `readOperand_spec` — reading an operand, which must fit the array.
-/
import CodeSnippet.Block

namespace CodeSnippet

open Memory

/-! ### Characters -/

/-- The byte of an ASCII character. -/
abbrev chr (c : Char) : UInt8 := c.toUInt8

/-- The value of a `char` as `int`. -/
def charInt (c : UInt8) : ℤ := c.toInt8.toInt

def eof : ℤ := -1

/-- What `EOF` becomes when it is stored in a `char`. -/
def eofByte : UInt8 := 0xFF

def isalpha (c : UInt8) : Bool := (chr 'a' ≤ c && c ≤ chr 'z') || (chr 'A' ≤ c && c ≤ chr 'Z')

def isdigit (c : UInt8) : Bool := chr '0' ≤ c && c ≤ chr '9'

def isblank (c : UInt8) : Bool := c == chr ' ' || c == chr '\t'

/-- `putchar`: the byte that is written. -/
def putchar (c : ℤ) : UInt8 := UInt8.ofInt c

/-- The code of an ASCII character as a stack holds it. -/
def code (c : Char) : ℤ := charInt (chr c)

/-- The bytes of a string constant. -/
def bytes (s : String) : List UInt8 := s.toList.map Char.toUInt8

/-! ### The loops of a reader -/

/-- `while ((s[0] = getchar()) == ' ' || s[0] == '\t') ;`: the array, the last
result of `getchar` and the rest of the input. -/
def skipBlanks (s : Block UInt8) : List UInt8 → Option (Block UInt8 × ℤ × List UInt8)
  | [] => do
      let s ← s.store 0 eofByte
      return (s, eof, [])
  | c :: cs => do
      let s ← s.store 0 c
      if isblank c then skipBlanks s cs else return (s, c.toNat, cs)

/-- `while (isx(s[++i] = getchar())) ;`: the array, `i`, the last result of
`getchar` and the rest of the input.  `EOF` is in none of the classes. -/
def readRun (isx : UInt8 → Bool) (s : Block UInt8) (i : ℕ) :
    List UInt8 → Option (Block UInt8 × ℕ × ℤ × List UInt8)
  | [] => do
      let s ← s.store (i + 1) eofByte
      return (s, i + 1, eof, [])
  | c :: cs => do
      let s ← s.store (i + 1) c
      if isx c then readRun isx s (i + 1) cs else return (s, i + 1, c.toNat, cs)

/-- What a call of `getchar` returns and leaves. -/
def getchar : List UInt8 → ℤ × List UInt8
  | [] => (eof, [])
  | c :: cs => (c.toNat, cs)

/-- The byte that a result of `getchar` is stored as. -/
def storedByte (c : ℤ) : UInt8 := UInt8.ofInt c

theorem storedByte_toNat (c : UInt8) : storedByte (c.toNat : ℤ) = c := by
  have hlt := c.toNat_lt
  rw [storedByte, UInt8.ofInt, Int.emod_eq_of_lt (by omega) (by omega), Int.toNat_natCast]
  exact UInt8.ofNat_toNat

/-- A character that is put back is there again. -/
theorem ungetc_eq (l : List UInt8) :
    (if (getchar l).1 ≠ eof then storedByte (getchar l).1 :: (getchar l).2
      else (getchar l).2) = l := by
  cases l with
  | nil => rfl
  | cons c cs =>
      have heof : (c.toNat : ℤ) ≠ eof := by
        have hnonneg : (0 : ℤ) ≤ (c.toNat : ℤ) := Int.natCast_nonneg _
        rw [eof]
        omega
      show (if (c.toNat : ℤ) ≠ eof then storedByte (c.toNat : ℤ) :: cs else cs) = _
      rw [if_pos heof, storedByte_toNat]

/-- The blanks are skipped; the next character is in `s[0]`. -/
theorem skipBlanks_spec {s : Block UInt8} (hs : 0 < s.size) (inp : List UInt8) :
    ∃ s', skipBlanks s inp = some (s', getchar (inp.dropWhile isblank)) ∧ s'.size = s.size ∧
      s'.cell 0 = storedByte (getchar (inp.dropWhile isblank)).1 := by
  induction inp generalizing s with
  | nil =>
      refine ⟨s.set 0 eofByte, ?_, rfl, rfl⟩
      rw [skipBlanks, Block.store_eq hs]
      rfl
  | cons c cs ih =>
      rw [skipBlanks, Block.store_eq hs]
      rcases e : isblank c with _ | _
      · refine ⟨s.set 0 c, ?_, rfl, ?_⟩
        · rw [List.dropWhile_cons_of_neg (ne_true_of_eq_false e)]
          rfl
        · rw [List.dropWhile_cons_of_neg (ne_true_of_eq_false e)]
          exact (storedByte_toNat c).symm
      · obtain ⟨s', hskip, hsize, hcell⟩ := ih (show 0 < (s.set 0 c).size from hs)
        rw [List.dropWhile_cons_of_pos e]
        exact ⟨s', hskip, hsize, hcell⟩

/-- What is left behind blanks. -/
theorem skipBlanks_text {s : Block UInt8} (hs : 0 < s.size) {b : List UInt8} {c : UInt8}
    (hb : ∀ d ∈ b, isblank d = true) (hc : isblank c = false) (rest : List UInt8) :
    ∃ s', skipBlanks s (b ++ c :: rest) = some (s', (c.toNat : ℤ), rest) ∧ s'.size = s.size ∧
      s'.cell 0 = c := by
  obtain ⟨s', hskip, hsize, hcell⟩ := skipBlanks_spec hs (b ++ c :: rest)
  rw [List.dropWhile_append_of_pos hb, List.dropWhile_cons_of_neg (ne_true_of_eq_false hc)]
    at hskip hcell
  exact ⟨s', hskip, hsize, hcell.trans (storedByte_toNat c)⟩

/-- A run of characters of a class lies in `s` from `s[i + 1]` on, followed by
the character that ended it; all of them must fit. -/
theorem readRun_spec {isx : UInt8 → Bool} {s : Block UInt8} {i : ℕ} (inp : List UInt8)
    (hfit : i + (inp.takeWhile isx).length + 1 < s.size) :
    ∃ s', readRun isx s i inp = some (s', i + (inp.takeWhile isx).length + 1,
        getchar (inp.dropWhile isx)) ∧
      s'.size = s.size ∧ (∀ j ≤ i, s'.cell j = s.cell j) ∧
      s'.cells (i + 1) (inp.takeWhile isx).length = inp.takeWhile isx ∧
      s'.cell (i + (inp.takeWhile isx).length + 1) = storedByte (getchar (inp.dropWhile isx)).1 := by
  induction inp generalizing s i with
  | nil =>
      have hfit' : i + 1 < s.size := hfit
      refine ⟨s.set (i + 1) eofByte, ?_, rfl, ?_, rfl, ?_⟩
      · rw [readRun, Block.store_eq hfit']
        rfl
      · intro j hj
        rw [Block.set_cell, if_neg (by omega)]
      · rw [Block.set_cell]
        exact if_pos rfl
  | cons c cs ih =>
      rcases e : isx c with _ | _
      · rw [List.takeWhile_cons_of_neg (ne_true_of_eq_false e)] at hfit ⊢
        rw [List.dropWhile_cons_of_neg (ne_true_of_eq_false e)]
        have hfit' : i + 1 < s.size := hfit
        refine ⟨s.set (i + 1) c, ?_, rfl, ?_, rfl, ?_⟩
        · rw [readRun, Block.store_eq hfit']
          simp only [Option.bind_eq_bind, Option.bind_some, e]
          rfl
        · intro j hj
          rw [Block.set_cell, if_neg (by omega)]
        · rw [Block.set_cell]
          exact (if_pos rfl).trans (storedByte_toNat c).symm
      · rw [List.takeWhile_cons_of_pos e, List.length_cons] at hfit ⊢
        rw [List.dropWhile_cons_of_pos e]
        obtain ⟨s', hrun, hsize, hkeep, hcells, hlast⟩ :=
          ih (show i + 1 + (cs.takeWhile isx).length + 1 < (s.set (i + 1) c).size by
            rw [Block.set_size]; omega)
        have hindex : i + 1 + (cs.takeWhile isx).length + 1
            = i + ((cs.takeWhile isx).length + 1) + 1 := by omega
        refine ⟨s', ?_, hsize, ?_, ?_, ?_⟩
        · rw [readRun, Block.store_eq (by omega), ← hindex]
          simp only [Option.bind_eq_bind, Option.bind_some, e, if_true]
          exact hrun
        · intro j hj
          rw [hkeep j (by omega), Block.set_cell, if_neg (by omega)]
        · have hhead : s'.cell (i + 1) = c := by
            rw [hkeep (i + 1) le_rfl, Block.set_cell, if_pos rfl]
          rw [Nat.add_comm (cs.takeWhile isx).length 1, Block.cells_add, hcells, Block.cells_succ,
            Block.cells_zero, Nat.add_zero, hhead]
          rfl
        · rw [← hindex]
          exact hlast

/-- A run that does not fit is written past the end of the array. -/
theorem readRun_overrun {isx : UInt8 → Bool} {s : Block UInt8} {i : ℕ} (inp : List UInt8)
    (hi : i < s.size) (hfit : s.size ≤ i + (inp.takeWhile isx).length + 1) :
    readRun isx s i inp = none := by
  induction inp generalizing s i with
  | nil =>
      have hfit' : s.size ≤ i + 1 := hfit
      rw [readRun, Block.store, if_neg (by omega)]
      rfl
  | cons c cs ih =>
      rw [readRun]
      by_cases hlt : i + 1 < s.size
      · rw [Block.store_eq hlt]
        rcases e : isx c with _ | _
        · rw [List.takeWhile_cons_of_neg (ne_true_of_eq_false e)] at hfit
          have hfit' : s.size ≤ i + 1 := hfit
          omega
        · rw [List.takeWhile_cons_of_pos e, List.length_cons] at hfit
          simp only [Option.bind_eq_bind, Option.bind_some, if_true]
          exact ih (show i + 1 < (s.set (i + 1) c).size from hlt)
            (show (s.set (i + 1) c).size ≤ _ by rw [Block.set_size]; omega)
      · rw [Block.store, if_neg hlt]
        rfl

/-! ### Operands -/

/-- The branch of `getop` for an operand: the run, the character put back, and
the terminating NUL. -/
def readOperand (isx : UInt8 → Bool) (s : Block UInt8) (inp : List UInt8) :
    Option (Block UInt8 × List UInt8) := do
  let (s, i, _, inp) ← readRun isx s 0 inp
  let last ← s.load i
  let inp := if last ≠ eofByte then last :: inp else inp
  let s ← s.store i 0
  return (s, inp)

/-- The character behind an operand is put back, unless it looks like `EOF`. -/
def afterRun : List UInt8 → List UInt8
  | [] => []
  | c :: cs => if c = eofByte then cs else c :: cs

theorem length_afterRun_le (l : List UInt8) : (afterRun l).length ≤ l.length := by
  cases l with
  | nil => exact le_rfl
  | cons c cs =>
      rw [afterRun]
      split
      · exact Nat.le_succ _
      · exact le_rfl

/-- The string in `s`, as `%s` prints it. -/
def cString (s : Block UInt8) : List UInt8 := (s.cells 0 s.size).takeWhile (· ≠ 0)

/-- A run ends where what follows it starts. -/
theorem run_eq {isx : UInt8 → Bool} {w rest : List UInt8} (hw : ∀ c ∈ w, isx c = true)
    (hrest : ∀ c ∈ rest.head?, isx c = false) :
    (w ++ rest).takeWhile isx = w ∧ (w ++ rest).dropWhile isx = rest := by
  rw [List.takeWhile_append_of_pos hw, List.dropWhile_append_of_pos hw]
  cases rest with
  | nil => exact ⟨List.append_nil w, rfl⟩
  | cons c rest =>
      have hc := ne_true_of_eq_false (hrest c rfl)
      rw [List.takeWhile_cons_of_neg hc, List.dropWhile_cons_of_neg hc]
      exact ⟨List.append_nil w, rfl⟩

/-- The character that ended the run is put back. -/
theorem unread_eq (l : List UInt8) :
    (if storedByte (getchar l).1 ≠ eofByte then storedByte (getchar l).1 :: (getchar l).2
      else (getchar l).2) = afterRun l := by
  cases l with
  | nil => rfl
  | cons c cs =>
      show (if storedByte (c.toNat : ℤ) ≠ eofByte then storedByte (c.toNat : ℤ) :: cs else cs) = _
      rw [storedByte_toNat, afterRun, ite_not]

/-- The string that starts in `s[0]` and ends at the first NUL. -/
theorem cString_eq {s : Block UInt8} {l : List UInt8} (hfit : l.length < s.size)
    (hcells : s.cells 0 l.length = l) (hnul : s.cell l.length = 0) (hl : ∀ c ∈ l, c ≠ 0) :
    cString s = l := by
  obtain ⟨n, hn⟩ := Nat.exists_eq_add_of_lt hfit
  have hsplit : s.cells 0 s.size = l ++ (0 :: s.cells (l.length + 1) n) := by
    rw [hn, Nat.add_assoc, Nat.add_comm n 1, Block.cells_add, hcells, Block.cells_add,
      Block.cells_succ, Nat.zero_add]
    show l ++ ([s.cell (l.length + 0)] ++ _) = _
    rw [Nat.add_zero, hnul]
    rfl
  rw [cString, hsplit, List.takeWhile_append_of_pos, List.takeWhile_cons_of_neg, List.append_nil]
  · simp
  · intro c hc
    exact decide_eq_true (hl c hc)

/-- A character with a NUL behind it; a NUL by itself is no character. -/
theorem cString_char {s : Block UInt8} (hs : s.size = 8) (hnul : s.cell 1 = 0) :
    cString s = if s.cell 0 = 0 then [] else [s.cell 0] := by
  split
  · rename_i hzero
    refine cString_eq ?_ rfl hzero fun c hc => absurd hc List.not_mem_nil
    rw [hs]
    decide
  · rename_i hchar
    refine cString_eq ?_ rfl hnul (List.forall_mem_singleton.mpr hchar)
    rw [hs, List.length_singleton]
    decide

/-- A run that fits, with the NUL behind it, is the string in `s`. -/
theorem readRun_cString {isx : UInt8 → Bool} (hzero : isx 0 = false) {s : Block UInt8}
    (hs : s.size = 8) (hc : isx (s.cell 0) = true) (inp : List UInt8)
    (hle : (s.cell 0 :: inp.takeWhile isx).length ≤ 7) :
    ∃ s', readRun isx s 0 inp = some (s', (inp.takeWhile isx).length + 1,
        getchar (inp.dropWhile isx)) ∧
      s'.size = 8 ∧
      s'.cell ((inp.takeWhile isx).length + 1) = storedByte (getchar (inp.dropWhile isx)).1 ∧
      cString (s'.set ((inp.takeWhile isx).length + 1) 0) = s.cell 0 :: inp.takeWhile isx := by
  rw [List.length_cons] at hle
  obtain ⟨s', hrun, hsize, hkeep, hcells, hlast⟩ :=
    readRun_spec inp (show 0 + (inp.takeWhile isx).length + 1 < s.size by omega)
  rw [Nat.zero_add] at hrun hlast
  refine ⟨s', hrun, hsize.trans hs, hlast, ?_⟩
  apply cString_eq
  · rw [Block.set_size, hsize, hs, List.length_cons]
    omega
  · rw [List.length_cons, Nat.add_comm, Block.cells_add, Block.cells_succ, Block.cells_zero,
      Block.set_cell, if_neg (by omega), hkeep 0 le_rfl]
    refine congrArg (s.cell 0 :: ·) (Eq.trans (Block.cells_congr fun k hk => ?_) hcells)
    rw [Block.set_cell, if_neg (by omega)]
  · rw [List.length_cons, Block.set_cell, if_pos rfl]
  · -- NUL is not of the class
    have hall : ∀ c ∈ s.cell 0 :: inp.takeWhile isx, isx c = true :=
      List.forall_mem_cons.mpr ⟨hc, fun c => List.mem_takeWhile_imp⟩
    rintro c hmem rfl
    rw [hall 0 hmem] at hzero
    cases hzero

theorem readOperand_spec {isx : UInt8 → Bool} (hzero : isx 0 = false) {s : Block UInt8}
    (hs : s.size = 8) (hc : isx (s.cell 0) = true) (inp : List UInt8) :
    if (s.cell 0 :: inp.takeWhile isx).length ≤ 7 then
      ∃ s', readOperand isx s inp = some (s', afterRun (inp.dropWhile isx)) ∧ s'.size = 8 ∧
        cString s' = s.cell 0 :: inp.takeWhile isx
    else readOperand isx s inp = none := by
  split
  · rename_i hle
    obtain ⟨s', hrun, hsize, hlast, hstring⟩ := readRun_cString hzero hs hc inp hle
    rw [List.length_cons] at hle
    refine ⟨s'.set ((inp.takeWhile isx).length + 1) 0, ?_, hsize, hstring⟩
    rw [readOperand, hrun]
    simp only [Option.bind_eq_bind, Option.bind_some]
    rw [Block.load_eq (by omega), hlast, Option.bind_some, Block.store_eq (by omega),
      Option.bind_some, unread_eq]
    rfl
  · rename_i hgt
    rw [List.length_cons] at hgt
    rw [readOperand, readRun_overrun inp (by omega) (by omega)]
    rfl

end CodeSnippet
