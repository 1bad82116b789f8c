/-
CodeSnippet/ConfigBounds.lean

The two readers of src/config_file on files of any contents.  `fgets` cuts a
file into pieces, of which a reader sees the bytes before the first NUL byte.
The walk over the blanks at the end of a piece has no lower bound: it leaves the
buffer at its front when no byte of the piece stops it.

Main results:
  * `parseConfig_pieces`, `readConfig_pieces` — the runs of the readers, in terms
    of the pieces of the file.
  * `staysInside_iff` — the files for which no access leaves the buffer.
-/
import CodeSnippet.ReadConfig

namespace CodeSnippet

open Memory Memory.Block TextFile

/-- Something stops the walk in every piece of a file, where `p` holds for the
blanks and there is room for `n` bytes. -/
def AllAnchored (p : UInt8 → Bool) (n : ℕ) (file : List UInt8) : Prop :=
  ∀ piece ∈ pieces n file, Anchored p (untilNul piece)

instance (p : UInt8 → Bool) (n : ℕ) : DecidablePred (AllAnchored p n) :=
  fun file => inferInstanceAs (Decidable (∀ piece ∈ pieces n file, Anchored p (untilNul piece)))

/-- A piece that `fgets` has stored is a string in the buffer. -/
theorem spells_piece {n : ℕ} {piece : List UInt8} {b : Block UInt8} (hsize : b.size = n + 1)
    (hlength : piece.length ≤ n) (hcells : b.cells 0 (piece.length + 1) = piece ++ [0]) :
    b.Spells 0 (untilNul piece) := by
  apply spells_untilNul hcells
  omega

/-- **The calls are made, for any file.** -/
theorem parseConfig_pieces (handler : KeyValueHandler) (file : List UInt8) :
    parseConfig handler (some file) =
      if AllAnchored isEndBlankChar (lineBufSize - 1) file then
        some (0, (pieces (lineBufSize - 1) file).flatMap fun piece =>
          settingOfPiece (untilNul piece))
      else none := by
  have hloop := fgetsLoop_pieces (parseLine handler) (n := lineBufSize - 1) (by decide)
    (fun piece => Anchored isEndBlankChar (untilNul piece))
    (fun calls piece => calls ++ settingOfPiece (untilNul piece))
    (fun calls piece b hsize hlength hcells =>
      parseLine_piece handler calls hsize (spells_piece hsize hlength hcells))
    file (Nat.lt_succ_self _) [] (b := ⟨lineBufSize, fun _ => 0⟩) rfl
  rw [List.foldl_append_eq_append, List.nil_append, ← List.flatMap_def] at hloop
  by_cases hall : AllAnchored isEndBlankChar (lineBufSize - 1) file
  · rw [if_pos (show ∀ piece ∈ pieces _ file, _ from hall)] at hloop
    rw [if_pos hall, parseConfig, hloop]
    rfl
  · rw [if_neg (show ¬ ∀ piece ∈ pieces _ file, _ from hall)] at hloop
    rw [if_neg hall, parseConfig, hloop]
    rfl

/-- The rows for a file. -/
def rowsOf (file : List UInt8) : List ReadConfig.Row :=
  (pieces (ReadConfig.lineLengthMax - 1) file).foldl
    (fun rows piece => ReadConfig.rowsAfter rows (untilNul piece)) []

/-- **The rows are printed, for any file.** -/
theorem readConfig_pieces (file : List UInt8) :
    ReadConfig.readConfig (some file) =
      if AllAnchored ReadConfig.isEndBlankChar (ReadConfig.lineLengthMax - 1) file then
        some (((rowsOf file).length : ℤ), rowsOf file)
      else none := by
  have hloop := fgetsLoop_pieces ReadConfig.readLine (n := ReadConfig.lineLengthMax - 1)
    (by decide) (fun piece => Anchored ReadConfig.isEndBlankChar (untilNul piece))
    (fun rows piece => ReadConfig.rowsAfter rows (untilNul piece))
    (fun rows piece b hsize hlength hcells =>
      ReadConfig.readLine_piece rows hsize (spells_piece hsize hlength hcells))
    file (Nat.lt_succ_self _) [] (b := ⟨ReadConfig.lineLengthMax, fun _ => 0⟩) rfl
  by_cases hall : AllAnchored ReadConfig.isEndBlankChar (ReadConfig.lineLengthMax - 1) file
  · rw [if_pos (show ∀ piece ∈ pieces _ file, _ from hall)] at hloop
    rw [if_pos hall, ReadConfig.readConfig, hloop]
    rfl
  · rw [if_neg (show ¬ ∀ piece ∈ pieces _ file, _ from hall)] at hloop
    rw [if_neg hall, ReadConfig.readConfig, hloop]
    rfl

/-- No access of either reader leaves the buffer; there is no run otherwise. -/
def StaysInside (handler : KeyValueHandler) (file : List UInt8) : Prop :=
  (parseConfig handler (some file)).isSome ∧ (ReadConfig.readConfig (some file)).isSome

/-- **Where the readers stay inside the buffer**: where each piece that `fgets`
stores starts, after blanks, like a blank line or a comment, or has a byte that
is none of the blanks at its end. -/
theorem staysInside_iff (handler : KeyValueHandler) (file : List UInt8) :
    StaysInside handler file ↔
      AllAnchored isEndBlankChar (lineBufSize - 1) file ∧
        AllAnchored ReadConfig.isEndBlankChar (ReadConfig.lineLengthMax - 1) file := by
  rw [StaysInside, parseConfig_pieces, readConfig_pieces]
  constructor
  · rintro ⟨hparse, hread⟩
    constructor
    · by_contra hnot
      rw [if_neg hnot] at hparse
      cases hparse
    · by_contra hnot
      rw [if_neg hnot] at hread
      cases hread
  · rintro ⟨hparse, hread⟩
    rw [if_pos hparse, if_pos hread]
    exact ⟨rfl, rfl⟩

/-- Two blanks at the end of a file, and a line of separators. -/
theorem not_staysInside :
    ¬ (∀ (handler : KeyValueHandler) (file : List UInt8), StaysInside handler file) ∧
    parseConfig (fun _ _ b => b.cell) (some (bytes "a=b\n  ")) = none ∧
    ReadConfig.readConfig (some (bytes "a\n;;\n")) = none := by
  have hread : ReadConfig.readConfig (some (bytes "a\n;;\n")) = none := by decide +kernel
  refine ⟨fun hevery => ?_, by decide +kernel, hread⟩
  have hinside := (hevery (fun _ _ b => b.cell) (bytes "a\n;;\n")).2
  rw [hread] at hinside
  cases hinside

end CodeSnippet
