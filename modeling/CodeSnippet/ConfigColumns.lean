/-
CodeSnippet/ConfigColumns.lean

The columns that `read_config` of src/config_file/config2.c prints for a text
file.  The separator is one of the characters that are stripped at the end of a
line, so the columns at its end that are empty are not printed; the others are,
and the separators between them are all that is lost.

Main results:
  * `rowsAfter_shows` — what one line adds to the rows.
  * `readConfig_shows` — the rows for a file.
-/
import CodeSnippet.ConfigBounds

namespace CodeSnippet

open Memory Memory.Block TextFile

namespace ReadConfig

variable {n : ℕ}

/-! ### Lines -/

/-- After its leading blanks and tabs the line is at its terminator, or starts
with `#`. -/
def Skipped (line : TextLine n) : Prop :=
  line.bytes.dropWhile isStartBlankChar = terminator line.crlf ∨
    (line.bytes.dropWhile isStartBlankChar).head? = some commentChar

instance : DecidablePred (Skipped (n := n)) := fun _ => instDecidableOr

/-- Some byte in front of the terminator is neither a blank nor a tab nor a
semicolon. -/
def HasText (line : TextLine n) : Prop :=
  ∃ c ∈ line.body, c ≠ chr ' ' ∧ c ≠ chr '\t' ∧ c ≠ columnSepChar

instance : DecidablePred (HasText (n := n)) :=
  fun line => inferInstanceAs (Decidable (∃ c ∈ line.body, _))

/-- The lines that are not skipped. -/
def dataLines (lines : List (TextLine n)) : List (TextLine n) :=
  lines.filter fun line => ¬ Skipped line

/-- The columns are the line without the blanks at both ends, cut at its
semicolons. -/
structure Shows (line : TextLine n) (row : Row) : Prop where
  cut : ∀ column ∈ row.columns, columnSepChar ∉ column.word
  joined : [columnSepChar].intercalate (row.columns.map Column.word) = stripped line.bytes

/-- The reader takes for a blank line or a comment what is one. -/
theorem isBlankLine_iff (line : TextLine n) :
    isBlankLine ((line.bytes.dropWhile isStartBlankChar).headD 0) = true ↔ Skipped line := by
  rw [Skipped]
  rcases dropWhile_bytes line with hline | ⟨c, rest, hline, hc⟩
  · rw [hline]
    exact ⟨fun _ => .inl rfl, fun _ => (terminator_blank line.crlf).2.1⟩
  · have hterminator : c :: rest ≠ terminator line.crlf := by
      intro h
      have hstrip := (terminator_blank line.crlf).2.2
      rw [← h, List.rdropWhile_eq_nil_iff] at hstrip
      have hblank := hstrip c List.mem_cons_self
      rw [hc] at hblank
      cases hblank
    simp only [CodeSnippet.isEndBlankChar, Bool.or_eq_false_iff] at hc
    rw [hline]
    simp [isBlankLine, hc, hterminator]

theorem HasText.anchored {line : TextLine n} (h : HasText line) :
    Anchored isEndBlankChar line.bytes := by
  obtain ⟨c, hmem, hblank, htab, hsep⟩ := h
  obtain ⟨-, hlf, hcr⟩ := line.text c hmem
  refine .inr ⟨c, ?_, by simp [isEndBlankChar, hblank, htab, hsep, hlf, hcr]⟩
  have hsplit : c ∈ line.bytes.takeWhile isStartBlankChar ++
      line.bytes.dropWhile isStartBlankChar := by
    rw [List.takeWhile_append_dropWhile]
    exact List.mem_append_left _ hmem
  rcases List.mem_append.mp hsplit with hstart | hrest
  · have hc := List.mem_takeWhile_imp hstart
    simp [isStartBlankChar, hblank, htab] at hc
  · exact hrest

/-! ### Rows -/

theorem columnsFrom_words (k : ℕ) (t : List UInt8) :
    (columnsFrom k t).map Column.word = t.splitOn columnSepChar := by
  apply List.ext_getElem?
  intro i
  simp [columnsFrom, Function.comp_def]

/-- What a list is cut into does not have the separator. -/
theorem notMem_of_mem_splitOn {c : UInt8} {t word : List UInt8} (h : word ∈ t.splitOn c) :
    c ∉ word := by
  induction t generalizing word with
  | nil =>
      rw [List.mem_singleton.mp h]
      exact List.not_mem_nil
  | cons d t ih =>
      rw [List.splitOn_cons_eq_if_modifyHead] at h
      obtain ⟨first, others, hcons⟩ := List.exists_cons_of_ne_nil (List.splitOn_ne_nil c t)
      rw [hcons] at h ih
      by_cases hd : d = c
      · rw [if_pos (beq_iff_eq.mpr hd)] at h
        rcases List.mem_cons.mp h with rfl | h
        · exact List.not_mem_nil
        · exact ih h
      · rw [if_neg (fun e => hd (beq_iff_eq.mp e)), List.modifyHead_cons] at h
        rcases List.mem_cons.mp h with rfl | h
        · exact List.not_mem_cons_of_ne_of_not_mem (Ne.symm hd) (ih List.mem_cons_self)
        · exact ih (List.mem_cons_of_mem _ h)

theorem notMem_of_mem_columnsFrom {k : ℕ} {t : List UInt8} {column : Column}
    (h : column ∈ columnsFrom k t) : columnSepChar ∉ column.word := by
  have hword := List.mem_map_of_mem (f := Column.word) h
  rw [columnsFrom_words] at hword
  exact notMem_of_mem_splitOn hword

/-- **One line** adds no row if it is skipped, and else one that shows it. -/
theorem rowsAfter_shows (rows : List Row) (line : TextLine n) :
    ∃ more, rowsAfter rows line.bytes = rows ++ more ∧
      List.Forall₂ Shows (dataLines [line]) more := by
  rw [rowsAfter, dataLines]
  by_cases hskipped : Skipped line
  · rw [if_pos ((isBlankLine_iff line).mpr hskipped),
      List.filter_cons_of_neg (by simpa using hskipped)]
    exact ⟨[], (List.append_nil rows).symm, .nil⟩
  · rw [if_neg fun h => hskipped ((isBlankLine_iff line).mp h),
      List.filter_cons_of_pos (by simpa using hskipped)]
    refine ⟨_, rfl, .cons ⟨fun column h => notMem_of_mem_columnsFrom h, ?_⟩ .nil⟩
    rw [columnsFrom_words]
    exact List.intercalate_splitOn _

/-- **The lines**, by induction. -/
theorem foldl_rowsAfter (lines : List (TextLine n)) (rows : List Row) :
    ∃ more, (lines.map TextLine.bytes).foldl rowsAfter rows = rows ++ more ∧
      List.Forall₂ Shows (dataLines lines) more := by
  induction lines generalizing rows with
  | nil => exact ⟨[], (List.append_nil rows).symm, .nil⟩
  | cons line lines ih =>
      obtain ⟨first, hfirst, hshows⟩ := rowsAfter_shows rows line
      obtain ⟨more, hmore, hrest⟩ := ih (rows ++ first)
      refine ⟨first ++ more, ?_, ?_⟩
      · rw [List.map_cons, List.foldl_cons, hfirst, hmore, List.append_assoc]
      · have hsplit : dataLines (line :: lines) = dataLines [line] ++ dataLines lines := by
          rw [dataLines, dataLines, dataLines, ← List.filter_append]
          rfl
        rw [hsplit]
        exact List.rel_append hshows hrest

/-- **Column splitting loses nothing**: where every line that is not skipped has
a byte that is neither a blank nor a tab nor a semicolon, the reader returns the
number of these lines and prints a row for each of them, in order. -/
theorem readConfig_shows (lines : List (TextLine (lineLengthMax - 1)))
    (h : ∀ line ∈ dataLines lines, HasText line) :
    ∃ rows, readConfig (some (textOf lines)) = some (((dataLines lines).length : ℤ), rows) ∧
      List.Forall₂ Shows (dataLines lines) rows := by
  have hnul : ∀ line ∈ lines, untilNul line.bytes = line.bytes :=
    fun line _ => untilNul_eq_self line.noNul
  have hanchored : AllAnchored isEndBlankChar (lineLengthMax - 1) (textOf lines) := by
    intro piece hpiece
    rw [pieces_textOf] at hpiece
    obtain ⟨line, hmem, rfl⟩ := List.mem_map.mp hpiece
    rw [hnul line hmem]
    by_cases hskipped : Skipped line
    · exact .inl ((isBlankLine_iff line).mpr hskipped)
    · exact (h line (List.mem_filter.mpr ⟨hmem, by simpa using hskipped⟩)).anchored
  have hrows : rowsOf (textOf lines) = (lines.map TextLine.bytes).foldl rowsAfter [] := by
    rw [rowsOf, pieces_textOf]
    apply List.foldl_ext
    intro rows piece hpiece
    obtain ⟨line, hmem, rfl⟩ := List.mem_map.mp hpiece
    rw [hnul line hmem]
  obtain ⟨more, hmore, hshows⟩ := foldl_rowsAfter lines []
  rw [readConfig_pieces, if_pos hanchored, hrows, hmore, List.nil_append, ← hshows.length_eq]
  exact ⟨more, rfl, hshows⟩

/-- A line that ends in an empty column, a comment, and a line that starts with
one. -/
def sampleLines : List (TextLine (lineLengthMax - 1)) :=
  [⟨bytes "a;b;", false, by decide +kernel, by decide +kernel⟩,
    ⟨bytes "#c", false, by decide +kernel, by decide +kernel⟩,
    ⟨bytes " ;d", true, by decide +kernel, by decide +kernel⟩]

theorem readConfig_shows_sampleLines :
    ∃ rows, readConfig (some (textOf sampleLines)) =
        some (((dataLines sampleLines).length : ℤ), rows) ∧
      List.Forall₂ Shows (dataLines sampleLines) rows :=
  readConfig_shows sampleLines (by decide +kernel)

end ReadConfig

end CodeSnippet
