/-
CodeSnippet/ReadConfig.lean

The column reader `read_config` of src/config_file/config2.c.  It strips a line
as `parse_config` does, with the column separator among the blanks at the end,
and prints the columns that `strsep` cuts the rest into.  config2.h has the
macros of config1.h for the start of a line.

Main results:
  * `columnLoop_spec` — the columns that are printed for a string.
  * `readLine_piece` — what the loop does with a piece of a file.
-/
import CodeSnippet.ConfigFile

namespace CodeSnippet

open Memory TextFile

namespace ReadConfig

/-! ### The program -/

def lineLengthMax : ℕ := 256

def columnSepChar : UInt8 := chr ';'

def isEndBlankChar (c : UInt8) : Bool :=
  c == chr ' ' || c == chr '\t' || c == cr || c == lf || c == columnSepChar

/-- What is printed for a column: its number, the word and the word's first
byte. -/
structure Column where
  columnno : ℕ
  word : List UInt8
  first : ℤ
  deriving DecidableEq

/-- What is printed for a line. -/
structure Row where
  lineno : ℕ
  string : List UInt8
  columns : List Column
  deriving DecidableEq

/-- `while ((wordp = strsep(&linep, COLUMN_SEP)) != NULL)`: `strsep` returns
`NULL` when it has left `NULL` in `linep`.  Each iteration but the last takes a
byte of the buffer. -/
def columnLoop : ℕ → Block UInt8 → ℕ → ℕ → List Column → Option (List Column × Block UInt8)
  | 0, _, _, _, _ => none
  | fuel + 1, linebuf, linep, columnno, columns => do
      let wordp := linep
      let (linep, linebuf) ← linebuf.strsep linep columnSepChar
      let column : Column := ⟨columnno, ← linebuf.cstr wordp, charInt (← linebuf.load wordp)⟩
      let columns := columns ++ [column]
      match linep with
      | none => return (columns, linebuf)
      | some linep => columnLoop fuel linebuf linep (columnno + 1) columns

/-- The body of the loop, for the rows that were printed so far; `lineno` is
their number. -/
def readLine (rows : List Row) (linebuf : Block UInt8) : Option (List Row × Block UInt8) := do
  let linep ← linebuf.scan isStartBlankChar 0
  let c ← linebuf.load linep
  if isBlankLine c then return (rows, linebuf)
  else
    let length ← linebuf.strlen linep
    let linebuf ← stripEnd isEndBlankChar linebuf (linep + length)
    let string ← linebuf.cstr linep
    let (columns, linebuf) ← columnLoop lineLengthMax linebuf linep 0 []
    let linebuf ← linebuf.memset 0 0 lineLengthMax
    return (rows ++ [⟨rows.length, string, columns⟩], linebuf)

/-- The return value and the rows, for the contents of the file if it can be
opened. -/
def readConfig (config : Option (List UInt8)) : Option (ℤ × List Row) :=
  match config with
  | none => some (-1, [])
  | some file => do
      let rows ← fgetsLoop readLine (file.length + 1) [] ⟨lineLengthMax, fun _ => 0⟩ file
      some (rows.length, rows)

/-! ### Columns -/

/-- The columns of a string, numbered from `k` on. -/
def columnsFrom (k : ℕ) (t : List UInt8) : List Column :=
  (t.splitOn columnSepChar).mapIdx fun i word => ⟨k + i, word, charInt (word.headD 0)⟩

theorem columnsFrom_append {word : List UInt8} (hword : columnSepChar ∉ word) (k : ℕ)
    (t : List UInt8) : columnsFrom k (word ++ columnSepChar :: t) =
      ⟨k, word, charInt (word.headD 0)⟩ :: columnsFrom (k + 1) t := by
  rw [columnsFrom, List.splitOn_append_cons_self_of_not_mem hword, List.mapIdx_cons, columnsFrom]
  simp only [Nat.add_zero, Nat.add_assoc, Nat.add_comm 1]

theorem columnsFrom_word {word : List UInt8} (hword : columnSepChar ∉ word) (k : ℕ) :
    columnsFrom k word = [⟨k, word, charInt (word.headD 0)⟩] := by
  rw [columnsFrom, List.splitOn_eq_singleton hword]
  rfl

/-- **The columns of a string are printed**, one after the other. -/
theorem columnLoop_spec {fuel : ℕ} {linebuf : Block UInt8} {linep : ℕ} {t : List UInt8}
    (h : linebuf.Spells linep t) (hfuel : t.length < fuel) (columnno : ℕ)
    (columns : List Column) :
    ∃ b, columnLoop fuel linebuf linep columnno columns =
      some (columns ++ columnsFrom columnno t, b) ∧ b.size = linebuf.size := by
  induction fuel generalizing linebuf linep t columnno columns with
  | zero => omega
  | succ fuel ih =>
      rw [columnLoop]
      by_cases hsep : columnSepChar ∈ t
      · obtain ⟨word, rest, rfl, hword⟩ := List.eq_append_cons_of_mem hsep
        obtain ⟨b, hstrsep, hsize, hwordString, hrest⟩ := h.strsep_mem hword
        have hlt : rest.length < fuel := by
          rw [List.length_append, List.length_cons] at hfuel
          omega
        obtain ⟨b', hloop, hsize'⟩ := ih hrest hlt (columnno + 1)
          (columns ++ [⟨columnno, word, charInt (word.headD 0)⟩])
        refine ⟨b', ?_, hsize'.trans hsize⟩
        simp only [hstrsep, Option.bind_eq_bind, Option.bind_some,
          Block.cstr_eq_some_iff.mpr hwordString, hwordString.load_eq, hloop,
          columnsFrom_append hword, List.append_assoc, List.singleton_append]
      · refine ⟨linebuf, ?_, rfl⟩
        simp only [h.strsep_notMem hsep (by decide), Option.bind_eq_bind, Option.bind_some,
          Block.cstr_eq_some_iff.mpr h, h.load_eq, columnsFrom_word hsep]
        rfl

/-! ### One piece -/

theorem isEndBlankChar_of_start {c : UInt8} (h : isStartBlankChar c = true) :
    isEndBlankChar c = true := by
  rw [isStartBlankChar, Bool.or_eq_true] at h
  simp only [isEndBlankChar, Bool.or_eq_true]
  tauto

/-- What is left of a piece without the blanks at both ends. -/
def stripped (t : List UInt8) : List UInt8 :=
  (t.dropWhile isStartBlankChar).rdropWhile isEndBlankChar

/-- The rows after a piece. -/
def rowsAfter (rows : List Row) (t : List UInt8) : List Row :=
  if isBlankLine ((t.dropWhile isStartBlankChar).headD 0) then rows
  else rows ++ [⟨rows.length, stripped t, columnsFrom 0 (stripped t)⟩]

/-- **One piece.**  The loop prints a row for a piece that is not blank, and
leaves a buffer of the same size, if something stops the walk over the
blanks. -/
theorem readLine_piece (rows : List Row) {t : List UInt8} {linebuf : Block UInt8}
    (hsize : linebuf.size = lineLengthMax) (h : linebuf.Spells 0 t) :
    if Anchored isEndBlankChar t then
      ∃ b, readLine rows linebuf = some (rowsAfter rows t, b) ∧ b.size = lineLengthMax
    else readLine rows linebuf = none := by
  obtain ⟨hlinep, hload, hstrlen, -⟩ := piece_start h
  have hend := piece_end (fun c => isEndBlankChar_of_start) h
  rw [readLine, hlinep, Option.bind_eq_bind, Option.bind_some, hload, Option.bind_eq_bind,
    Option.bind_some, rowsAfter]
  by_cases hblank : isBlankLine ((t.dropWhile isStartBlankChar).headD 0) = true
  · have hanchored : Anchored isEndBlankChar t := .inl hblank
    rw [if_pos hanchored, if_pos hblank, if_pos hblank]
    exact ⟨linebuf, rfl, hsize⟩
  · rw [if_neg hblank, if_neg hblank, hstrlen, Option.bind_eq_bind, Option.bind_some]
    by_cases hstop : ∃ c ∈ t.dropWhile isStartBlankChar, isEndBlankChar c = false
    · have hanchored : Anchored isEndBlankChar t := .inr hstop
      rw [if_pos hstop] at hend
      obtain ⟨b, hb, hbsize, hspells⟩ := hend
      have hroom := hspells.room
      rw [hbsize, hsize] at hroom
      have hlength : (stripped t).length < lineLengthMax := lt_of_le_of_lt (Nat.le_add_left ..) hroom
      obtain ⟨b', hcolumns, hbsize'⟩ := columnLoop_spec hspells hlength 0 []
      have hmemset : b'.memset 0 0 lineLengthMax = some (b'.fillIn 0 0 lineLengthMax) := by
        apply Block.memset_eq
        rw [hbsize', hbsize, hsize, Nat.zero_add]
      rw [if_pos hanchored, hb]
      refine ⟨b'.fillIn 0 0 lineLengthMax, ?_, hbsize'.trans (hbsize.trans hsize)⟩
      simp only [Option.bind_eq_bind, Option.bind_some, Block.cstr_eq_some_iff.mpr hspells,
        hcolumns, hmemset, List.nil_append]
      rfl
    · have hnot : ¬ Anchored isEndBlankChar t := not_or.mpr ⟨hblank, hstop⟩
      rw [if_neg hstop] at hend
      rw [if_neg hnot, hend]
      rfl

end ReadConfig

end CodeSnippet
