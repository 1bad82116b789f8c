/-
CodeSnippet/ConfigFile.lean

The key and value reader `parse_config` of src/config_file/config1.c.  All lines
pass through one buffer: the reader walks over the blanks at the start of a
line, overwrites those at its end with NUL bytes, and cuts the rest in two at
the separator.

The buffer is a checked block, and every access through one of the pointers of
the source goes through it.  `lineendp` is given by the index of the byte behind
it, so that it may stand before the buffer.

Main results:
  * `stripEnd_spells` — what is left of a string after the blanks at its end
    have been overwritten.
  * `parseLine_piece` — what the loop does with a piece of a file, whatever else
    is in the buffer.
  * `parseConfig_lines` — the calls of the handler for a file.
-/
import CodeSnippet.CharStream
import CodeSnippet.TextFile

namespace CodeSnippet

open Memory TextFile

/-! ### The program -/

def lineBufSize : ℕ := 512

def commentChar : UInt8 := chr '#'

def seperatorChar : UInt8 := chr '='

def isStartBlankChar (c : UInt8) : Bool := c == chr ' ' || c == chr '\t'

def isEndBlankChar (c : UInt8) : Bool := c == chr ' ' || c == chr '\t' || c == cr || c == lf

def isBlankLine (c : UInt8) : Bool := c == cr || c == lf || c == commentChar

/-- `handler(key, value, arg)` may write through its arguments: what the two
pointers and the buffer turn the cells of the buffer into. -/
abbrev KeyValueHandler := ℕ → ℕ → Block UInt8 → ℕ → UInt8

/-- The buffer after a call of the handler. -/
def handled (handler : KeyValueHandler) (linebuf : Block UInt8) (key value : ℕ) : Block UInt8 :=
  { linebuf with cell := handler key value linebuf }

/-- The strings that a call of the handler gets. -/
abbrev KeyValue := List UInt8 × List UInt8

/-- `while (p(*lineendp)) { *lineendp = '\0'; lineendp--; }`, where `lineendp` is
`&linebuf[e] - 1`. -/
def stripEnd (p : UInt8 → Bool) (linebuf : Block UInt8) : ℕ → Option (Block UInt8)
  | 0 => none
  | e + 1 => do
      let c ← linebuf.load e
      if p c then
        -- a line of blanks would be left at its front
        let linebuf ← linebuf.store e 0
        stripEnd p linebuf e
      else some linebuf

/-- The body of the loop from `strchr` on, for the calls that were made so
far. -/
def callHandler (handler : KeyValueHandler) (calls : List KeyValue) (linebuf : Block UInt8)
    (linep : ℕ) : Option (List KeyValue × Block UInt8) := do
  match ← linebuf.strchr linep seperatorChar with
  | none => some (calls, linebuf)
  | some value =>
      let linebuf ← linebuf.store value 0
      let value := value + 1
      let key := linep
      let call : KeyValue := (← linebuf.cstr key, ← linebuf.cstr value)
      let linebuf := handled handler linebuf key value
      let linebuf ← linebuf.memset 0 0 lineBufSize
      some (calls ++ [call], linebuf)

/-- The body of the loop. -/
def parseLine (handler : KeyValueHandler) (calls : List KeyValue) (linebuf : Block UInt8) :
    Option (List KeyValue × Block UInt8) := do
  let linep ← linebuf.scan isStartBlankChar 0
  let c ← linebuf.load linep
  if isBlankLine c then some (calls, linebuf)
  else
    let length ← linebuf.strlen linep
    let linebuf ← stripEnd isEndBlankChar linebuf (linep + length)
    callHandler handler calls linebuf linep

/-- The return value and the calls of the handler, for the contents of the file
if it can be opened.  Each iteration takes at least one byte of it. -/
def parseConfig (handler : KeyValueHandler) (cfg : Option (List UInt8)) :
    Option (ℤ × List KeyValue) :=
  match cfg with
  | none => some (-1, [])
  | some file => do
      let calls ← fgetsLoop (parseLine handler) (file.length + 1) [] ⟨lineBufSize, fun _ => 0⟩ file
      some (0, calls)

/-! ### Trimmed lines -/

/-- A line without its leading blanks and tabs, and without its trailing blanks,
tabs, CR and LF. -/
def trimmed (line : List UInt8) : List UInt8 :=
  (line.dropWhile isStartBlankChar).rdropWhile isEndBlankChar

/-- A trimmed line that is a setting. -/
def IsSetting (t : List UInt8) : Prop := t ≠ [] ∧ t.head? ≠ some commentChar ∧ seperatorChar ∈ t

instance (t : List UInt8) : Decidable (IsSetting t) := instDecidableAnd

/-- A call gets the two parts of a setting. -/
structure Splits (t : List UInt8) (call : KeyValue) : Prop where
  key : seperatorChar ∉ call.1
  spelled : call.1 ++ seperatorChar :: call.2 = t

/-- The call for a trimmed line, if it is a setting. -/
def settingOf (t : List UInt8) : List KeyValue :=
  if IsSetting t then
    [(t.takeWhile (· != seperatorChar), (t.dropWhile (· != seperatorChar)).tail)]
  else []

theorem settingOf_append {key value : List UInt8} (hkey : seperatorChar ∉ key)
    (h : IsSetting (key ++ seperatorChar :: value)) :
    settingOf (key ++ seperatorChar :: value) = [(key, value)] := by
  have hbefore : ∀ c ∈ key, (c != seperatorChar) = true := by
    intro c hmem
    have hne : c ≠ seperatorChar := fun e => hkey (e ▸ hmem)
    simpa using hne
  rw [settingOf, if_pos h, List.takeWhile_append_of_pos hbefore,
    List.dropWhile_append_of_pos hbefore]
  simp

theorem settingOf_splits {t : List UInt8} (h : IsSetting t) :
    ∃ call, settingOf t = [call] ∧ Splits t call := by
  obtain ⟨key, value, rfl, hkey⟩ := List.eq_append_cons_of_mem h.2.2
  exact ⟨(key, value), settingOf_append hkey h, hkey, rfl⟩

/-- The calls of `settingOf` are for the settings, in order. -/
theorem flatMap_settingOf (ts : List (List UInt8)) :
    List.Forall₂ Splits (ts.filter fun t => decide (IsSetting t)) (ts.flatMap settingOf) := by
  induction ts with
  | nil => exact .nil
  | cons t ts ih =>
      by_cases h : IsSetting t
      · obtain ⟨call, hcall, hsplits⟩ := settingOf_splits h
        rw [List.filter_cons_of_pos (by simpa using h), List.flatMap_cons, hcall]
        exact .cons hsplits ih
      · have hnone : settingOf t = [] := if_neg h
        rw [List.filter_cons_of_neg (by simpa using h), List.flatMap_cons, hnone]
        exact ih

theorem rdropWhile_ne_nil {p : UInt8 → Bool} {l : List UInt8} (h : ∃ c ∈ l, p c = false) :
    l.rdropWhile p ≠ [] := by
  intro hnil
  obtain ⟨c, hmem, hc⟩ := h
  have hall := List.rdropWhile_eq_nil_iff.mp hnil c hmem
  rw [hc] at hall
  cases hall

/-- What is dropped at the end of a list leaves its head. -/
theorem head?_rdropWhile {p : UInt8 → Bool} {l : List UInt8} (h : l.rdropWhile p ≠ []) :
    (l.rdropWhile p).head? = l.head? := by
  obtain ⟨c, cs, hcons⟩ := List.exists_cons_of_ne_nil h
  obtain ⟨dropped, happend⟩ := List.rdropWhile_prefix p l
  rw [hcons] at happend ⊢
  rw [← happend]
  rfl

/-! ### Pieces -/

/-- The walk over the blanks at the end of a piece meets a byte that stops it,
or it is not made. -/
def Anchored (p : UInt8 → Bool) (t : List UInt8) : Prop :=
  isBlankLine ((t.dropWhile isStartBlankChar).headD 0) = true ∨
    ∃ c ∈ t.dropWhile isStartBlankChar, p c = false

instance (p : UInt8 → Bool) : DecidablePred (Anchored p) := fun _ => instDecidableOr

/-- The call for a piece, if it is a setting. -/
def settingOfPiece (t : List UInt8) : List KeyValue :=
  if isBlankLine ((t.dropWhile isStartBlankChar).headD 0) then [] else settingOf (trimmed t)

/-! ### One piece -/

/-- The blanks at the end of a string are overwritten, up to a byte that is not
blank. -/
theorem stripEnd_spells {p : UInt8 → Bool} {off : ℕ} {l : List UInt8} {linebuf : Block UInt8}
    (h : linebuf.Spells off l) (hl : l.rdropWhile p ≠ []) :
    ∃ b, stripEnd p linebuf (off + l.length) = some b ∧ b.size = linebuf.size ∧
      b.Spells off (l.rdropWhile p) := by
  induction l using List.reverseRecOn generalizing linebuf with
  | nil => exact absurd rfl hl
  | append_singleton l c ih =>
      have hload := h.drop.load_eq
      rw [List.headD_cons] at hload
      have hindex : off + (l ++ [c]).length = off + l.length + 1 := by simp [Nat.add_assoc]
      rw [hindex, stripEnd, hload]
      rcases hc : p c with _ | _
      · -- the walk stops at `c`
        have hkeep : (l ++ [c]).rdropWhile p = l ++ [c] :=
          List.rdropWhile_concat_neg _ _ _ (by simp [hc])
        refine ⟨linebuf, by simp [hc], rfl, ?_⟩
        rwa [hkeep]
      · -- `c` is overwritten, and the walk goes on in front of it
        have hdrop : (l ++ [c]).rdropWhile p = l.rdropWhile p :=
          List.rdropWhile_concat_pos _ _ _ hc
        rw [hdrop] at hl ⊢
        have hroom := h.room
        rw [hindex] at hroom
        obtain ⟨b, hb, hsize, hspells⟩ := ih h.cut.1 hl
        refine ⟨b, ?_, hsize, hspells⟩
        simp [hc, Block.store_eq (show off + l.length < linebuf.size by omega), hb]

/-- A walk that nothing stops leaves the buffer at its front. -/
theorem stripEnd_none {p : UInt8 → Bool} {l : List UInt8} {linebuf : Block UInt8}
    (h : linebuf.Spells 0 l) (hl : ∀ c ∈ l, p c = true) : stripEnd p linebuf l.length = none := by
  induction l using List.reverseRecOn generalizing linebuf with
  | nil => rfl
  | append_singleton l c ih =>
      have hload := h.drop.load_eq
      rw [List.headD_cons, Nat.zero_add] at hload
      have hroom := h.room
      have hcut := h.cut.1
      rw [List.length_append, List.length_singleton, Nat.zero_add] at hroom
      rw [Nat.zero_add] at hcut
      rw [List.length_append, List.length_singleton, stripEnd, hload]
      have hc := hl c (List.mem_append_right _ (List.mem_singleton_self c))
      have hnone := ih hcut fun d hmem => hl d (List.mem_append_left _ hmem)
      simp [hc, Block.store_eq (show l.length < linebuf.size by omega), hnone]

theorem handled_memset (handler : KeyValueHandler) {linebuf : Block UInt8}
    (h : linebuf.size = lineBufSize) (key value : ℕ) :
    (handled handler linebuf key value).memset 0 0 lineBufSize =
      some ((handled handler linebuf key value).fillIn 0 0 lineBufSize) := by
  apply Block.memset_eq
  rw [Nat.zero_add]
  exact h.ge

/-- The handler is called for a string with a separator. -/
theorem callHandler_spec (handler : KeyValueHandler) (calls : List KeyValue)
    {linebuf : Block UInt8} {linep : ℕ} {t : List UInt8} (hsize : linebuf.size = lineBufSize)
    (h : linebuf.Spells linep t) (hne : t ≠ []) (hcomment : t.head? ≠ some commentChar) :
    ∃ b, callHandler handler calls linebuf linep = some (calls ++ settingOf t, b) ∧
      b.size = lineBufSize := by
  by_cases hsep : seperatorChar ∈ t
  · obtain ⟨key, value, rfl, hkey⟩ := List.eq_append_cons_of_mem hsep
    have hroom := h.room
    rw [List.length_append, List.length_cons] at hroom
    obtain ⟨hkeyString, hvalueString⟩ := h.cut
    rw [settingOf_append hkey ⟨hne, hcomment, hsep⟩, callHandler, h.strchr_mem hkey]
    refine ⟨(handled handler (linebuf.set (linep + key.length) 0) linep
      (linep + key.length + 1)).fillIn 0 0 lineBufSize, ?_, hsize⟩
    simp only [Option.bind_eq_bind, Option.bind_some,
      Block.store_eq (show linep + key.length < linebuf.size by omega),
      Block.cstr_eq_some_iff.mpr hkeyString, Block.cstr_eq_some_iff.mpr hvalueString]
    rw [handled_memset handler (show (linebuf.set _ 0).size = lineBufSize from hsize)]
    rfl
  · have hnone : settingOf t = [] := if_neg fun hsetting => hsep hsetting.2.2
    rw [hnone, List.append_nil, callHandler, h.strchr_notMem hsep (by decide)]
    exact ⟨linebuf, rfl, hsize⟩

/-- **The start of a piece**: where the pointers stand before the walk over the
blanks at its end. -/
theorem piece_start {linebuf : Block UInt8} {t : List UInt8} (h : linebuf.Spells 0 t) :
    let linep := (t.takeWhile isStartBlankChar).length
    let rest := t.dropWhile isStartBlankChar
    linebuf.scan isStartBlankChar 0 = some linep ∧ linebuf.load linep = some (rest.headD 0) ∧
      linebuf.strlen linep = some rest.length ∧ linebuf.Spells linep rest := by
  intro linep rest
  have happend : t.takeWhile isStartBlankChar ++ rest = t := List.takeWhile_append_dropWhile
  rw [← happend] at h
  have hrest := h.drop
  rw [Nat.zero_add] at hrest
  refine ⟨h.scan_eq (fun c hmem => List.mem_takeWhile_imp hmem) ?_, hrest.load_eq,
    hrest.strlen_eq, hrest⟩
  rcases hcons : rest with _ | ⟨c, cs⟩
  · rfl
  · have hhead := List.head_dropWhile_not isStartBlankChar (l := t) (by
      rw [show t.dropWhile isStartBlankChar = c :: cs from hcons]
      exact List.cons_ne_nil c cs)
    simpa [show t.dropWhile isStartBlankChar = c :: cs from hcons] using hhead

/-- **The end of a piece**: the blanks there are overwritten if some byte stops
the walk, and else it leaves the buffer. -/
theorem piece_end {p : UInt8 → Bool} (hp : ∀ c, isStartBlankChar c = true → p c = true)
    {linebuf : Block UInt8} {t : List UInt8} (h : linebuf.Spells 0 t) :
    let linep := (t.takeWhile isStartBlankChar).length
    let rest := t.dropWhile isStartBlankChar
    if ∃ c ∈ rest, p c = false then
      ∃ b, stripEnd p linebuf (linep + rest.length) = some b ∧ b.size = linebuf.size ∧
        b.Spells linep (rest.rdropWhile p)
    else stripEnd p linebuf (linep + rest.length) = none := by
  intro linep rest
  obtain ⟨-, -, -, hrest⟩ := piece_start h
  split
  · rename_i hstop
    exact stripEnd_spells hrest (rdropWhile_ne_nil hstop)
  · rename_i hnone
    have happend : t.takeWhile isStartBlankChar ++ rest = t := List.takeWhile_append_dropWhile
    have hlength : linep + rest.length = t.length := by
      rw [← List.length_append, happend]
    rw [hlength]
    apply stripEnd_none h
    intro c hmem
    rw [← happend] at hmem
    rcases List.mem_append.mp hmem with hblank | hmem
    · exact hp c (List.mem_takeWhile_imp hblank)
    · by_contra hc
      exact hnone ⟨c, hmem, Bool.of_not_eq_true hc⟩

theorem isEndBlankChar_of_start {c : UInt8} (h : isStartBlankChar c = true) :
    isEndBlankChar c = true := by
  rw [isStartBlankChar, Bool.or_eq_true] at h
  rw [isEndBlankChar, Bool.or_assoc, Bool.or_eq_true, Bool.or_eq_true, Bool.or_eq_true]
  tauto

/-- **One piece.**  The loop calls the handler for a setting, and leaves a buffer
of the same size, if something stops the walk over the blanks. -/
theorem parseLine_piece (handler : KeyValueHandler) (calls : List KeyValue) {t : List UInt8}
    {linebuf : Block UInt8} (hsize : linebuf.size = lineBufSize) (h : linebuf.Spells 0 t) :
    if Anchored isEndBlankChar t then
      ∃ b, parseLine handler calls linebuf = some (calls ++ settingOfPiece t, b) ∧
        b.size = lineBufSize
    else parseLine handler calls linebuf = none := by
  obtain ⟨hlinep, hload, hstrlen, -⟩ := piece_start h
  have hend := piece_end (fun c => isEndBlankChar_of_start) h
  rw [parseLine, hlinep, Option.bind_eq_bind, Option.bind_some, hload, Option.bind_eq_bind,
    Option.bind_some, settingOfPiece]
  by_cases hblank : isBlankLine ((t.dropWhile isStartBlankChar).headD 0) = true
  · rw [if_pos (.inl hblank), if_pos hblank, if_pos hblank, List.append_nil]
    exact ⟨linebuf, rfl, hsize⟩
  · rw [if_neg hblank, if_neg hblank, hstrlen, Option.bind_eq_bind, Option.bind_some]
    by_cases hstop : ∃ c ∈ t.dropWhile isStartBlankChar, isEndBlankChar c = false
    · have hanchored : Anchored isEndBlankChar t := .inr hstop
      rw [if_pos hstop] at hend
      obtain ⟨b, hb, hbsize, hspells⟩ := hend
      rw [if_pos hanchored, hb]
      apply callHandler_spec handler calls (hbsize.trans hsize) hspells (rdropWhile_ne_nil hstop)
      -- the first byte that is left was tested
      intro hcomment
      rw [head?_rdropWhile (rdropWhile_ne_nil hstop)] at hcomment
      rw [List.headD_eq_head?_getD, hcomment] at hblank
      exact hblank rfl
    · have hnot : ¬ Anchored isEndBlankChar t := not_or.mpr ⟨hblank, hstop⟩
      rw [if_neg hstop] at hend
      rw [if_neg hnot, hend]
      rfl

/-! ### Lines -/

theorem terminator_blank (crlf : Bool) : isStartBlankChar ((terminator crlf).headD 0) = false ∧
    isBlankLine ((terminator crlf).headD 0) = true ∧
    (terminator crlf).rdropWhile isEndBlankChar = [] := by
  cases crlf <;> decide

/-- What is left of a line after its leading blanks: the terminator, or a byte
that is no blank and the rest. -/
theorem dropWhile_bytes {n : ℕ} (line : TextLine n) :
    line.bytes.dropWhile isStartBlankChar = terminator line.crlf ∨
      ∃ c rest, line.bytes.dropWhile isStartBlankChar = c :: rest ∧ isEndBlankChar c = false := by
  rw [TextLine.bytes, List.dropWhile_append]
  rcases hbody : line.body.dropWhile isStartBlankChar with _ | ⟨c, rest⟩
  · rcases line.crlf with _ | _
    · exact .inl rfl
    · exact .inl rfl
  · refine .inr ⟨c, rest ++ terminator line.crlf, rfl, ?_⟩
    obtain ⟨-, hlf, hcr⟩ := line.text c (List.dropWhile_subset _ (hbody ▸ List.mem_cons_self))
    have hblank : isStartBlankChar c = false := by
      have hhead := List.head_dropWhile_not isStartBlankChar (l := line.body) (by simp [hbody])
      simpa [hbody] using hhead
    simp only [isStartBlankChar, Bool.or_eq_false_iff] at hblank
    simp [isEndBlankChar, hblank, hlf, hcr]

/-- The pieces of a file of lines that fit the buffer are the lines: their start
or their end stops the walk. -/
theorem line_anchored {n : ℕ} (line : TextLine n) : Anchored isEndBlankChar line.bytes := by
  rcases dropWhile_bytes line with hline | ⟨c, rest, hline, hc⟩
  · left
    rw [hline]
    exact (terminator_blank line.crlf).2.1
  · right
    rw [hline]
    exact ⟨c, List.mem_cons_self .., hc⟩

theorem settingOfPiece_line {n : ℕ} (line : TextLine n) :
    settingOfPiece line.bytes = settingOf (trimmed line.bytes) := by
  rw [settingOfPiece]
  split
  · rename_i hblank
    symm
    apply if_neg
    rintro ⟨hne, hcomment, -⟩
    rw [trimmed] at hne hcomment
    rcases dropWhile_bytes line with hline | ⟨c, rest, hline, hc⟩
    · rw [hline] at hne
      exact hne (terminator_blank line.crlf).2.2
    · -- the only byte that starts a blank line and no blank is `#`
      rw [head?_rdropWhile hne, hline] at hcomment
      rw [hline] at hblank
      simp only [isEndBlankChar, Bool.or_eq_false_iff] at hc
      have hsharp : c = commentChar := by simpa [isBlankLine, hc] using hblank
      exact hcomment (congrArg some hsharp)
  · rfl

/-- **One line.**  The loop calls the handler for a setting, and leaves a buffer
of the same size. -/
theorem parseLine_spec (handler : KeyValueHandler) (calls : List KeyValue)
    (line : TextLine (lineBufSize - 1)) (linebuf : Block UInt8)
    (hsize : linebuf.size = lineBufSize) (h : linebuf.Spells 0 line.bytes) :
    ∃ b, parseLine handler calls linebuf = some (calls ++ settingOf (trimmed line.bytes), b) ∧
      b.size = lineBufSize := by
  have hpiece := parseLine_piece handler calls hsize h
  rwa [if_pos (line_anchored line), settingOfPiece_line] at hpiece

/-- **The calls for a file** of lines that fit the buffer are for the trimmed
lines that are settings, in order. -/
theorem parseConfig_lines (handler : KeyValueHandler) (lines : List (TextLine (lineBufSize - 1))) :
    ∃ calls, parseConfig handler (some (textOf lines)) = some (0, calls) ∧
      List.Forall₂ Splits
        ((lines.map fun line => trimmed line.bytes).filter fun t => decide (IsSetting t)) calls := by
  have hloop := fgetsLoop_lines (fun calls line => calls ++ settingOf (trimmed line))
    (fun calls line b hsize h => parseLine_spec handler calls line b hsize h) lines
    (Nat.lt_succ_of_le (length_le_textOf lines)) [] (b := ⟨lineBufSize, fun _ => 0⟩) rfl
  have hcalls : ((lines.map TextLine.bytes).foldl
      (fun calls line => calls ++ settingOf (trimmed line)) []) =
        (lines.map fun line => trimmed line.bytes).flatMap settingOf := by
    rw [List.foldl_append_eq_append, List.nil_append, List.map_map, List.flatMap_def, List.map_map]
    rfl
  rw [hcalls] at hloop
  refine ⟨_, ?_, flatMap_settingOf _⟩
  rw [parseConfig, hloop]
  rfl

end CodeSnippet
