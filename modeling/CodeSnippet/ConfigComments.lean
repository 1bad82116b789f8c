/-
CodeSnippet/ConfigComments.lean

Which line of a file a call of `parse_config`'s handler comes from.  A line that
does not fit the buffer comes in several pieces, and the loop takes each of them
for a line of its own.

`parseConfigAt` is the loop of `parse_config` with a ghost variable, the number
of bytes that were read; with each call it notes where in the file the key
starts.

Main results:
  * `parseConfigAt_erase` — without the ghost variable it is `parse_config`.
  * `commentsStay_iff` — the files in which no comment becomes a setting.
-/
import CodeSnippet.ConfigBounds

namespace CodeSnippet

open Memory Memory.Block TextFile

/-! ### Where a key starts -/

/-- Calls of the handler, each with the offset of its key in the file. -/
abbrev Trace := List (ℕ × KeyValue)

/-- The body of the loop, when `s.1` bytes were read before this piece. -/
def parseLineAt (handler : KeyValueHandler) (s : ℕ × Trace) (linebuf : Block UInt8) :
    Option ((ℕ × Trace) × Block UInt8) := do
  let length ← linebuf.strlen 0
  let linep ← linebuf.scan isStartBlankChar 0
  let (calls, linebuf) ← parseLine handler [] linebuf
  return ((s.1 + length, s.2 ++ calls.map fun call => (s.1 + linep, call)), linebuf)

/-- The calls for the contents of a file, each with the offset of its key. -/
def parseConfigAt (handler : KeyValueHandler) (file : List UInt8) : Option Trace :=
  (fgetsLoop (parseLineAt handler) (file.length + 1) (0, []) ⟨lineBufSize, fun _ => 0⟩ file).map
    Prod.snd

/-- The trace of some pieces, when `pos` bytes were read before. -/
def traceFrom : ℕ → List (List UInt8) → Trace
  | _, [] => []
  | pos, piece :: rest =>
      (settingOfPiece piece).map
        (fun call => (pos + (piece.takeWhile isStartBlankChar).length, call)) ++
          traceFrom (pos + piece.length) rest

theorem traceFrom_append (pos : ℕ) (ps qs : List (List UInt8)) :
    traceFrom pos (ps ++ qs) = traceFrom pos ps ++ traceFrom (pos + ps.flatten.length) qs := by
  induction ps generalizing pos with
  | nil => rfl
  | cons piece ps ih =>
      rw [List.cons_append, traceFrom, traceFrom, ih, List.append_assoc, List.flatten_cons,
        List.length_append, Nat.add_assoc]

/-- Without the offsets it is the calls. -/
theorem traceFrom_map_snd (pos : ℕ) (ps : List (List UInt8)) :
    (traceFrom pos ps).map Prod.snd = ps.flatMap settingOfPiece := by
  induction ps generalizing pos with
  | nil => rfl
  | cons piece ps ih =>
      rw [traceFrom, List.map_append, ih, List.map_map, List.flatMap_cons]
      congr 1
      exact List.map_id _

theorem parseLineAt_piece (handler : KeyValueHandler) (s : ℕ × Trace) {t : List UInt8}
    {linebuf : Block UInt8} (hsize : linebuf.size = lineBufSize) (h : linebuf.Spells 0 t) :
    if Anchored isEndBlankChar t then
      ∃ b, parseLineAt handler s linebuf =
          some ((s.1 + t.length, s.2 ++ traceFrom s.1 [t]), b) ∧ b.size = lineBufSize
    else parseLineAt handler s linebuf = none := by
  obtain ⟨hlinep, -, -, -⟩ := piece_start h
  have hpiece := parseLine_piece handler [] hsize h
  rw [parseLineAt, h.strlen_eq, hlinep]
  simp only [Option.bind_eq_bind, Option.bind_some]
  split
  · rename_i hanchored
    rw [if_pos hanchored] at hpiece
    obtain ⟨b, hb, hbsize⟩ := hpiece
    refine ⟨b, ?_, hbsize⟩
    rw [hb, List.nil_append, traceFrom, traceFrom, List.append_nil]
    rfl
  · rename_i hnot
    rw [if_neg hnot] at hpiece
    rw [hpiece]
    rfl

/-- **The trace of any file.** -/
theorem parseConfigAt_pieces (handler : KeyValueHandler) (file : List UInt8) :
    parseConfigAt handler file =
      if AllAnchored isEndBlankChar (lineBufSize - 1) file then
        some (traceFrom 0 ((pieces (lineBufSize - 1) file).map untilNul))
      else none := by
  have hloop := fgetsLoop_pieces (parseLineAt handler) (n := lineBufSize - 1) (by decide)
    (fun piece => Anchored isEndBlankChar (untilNul piece))
    (fun s piece => (s.1 + (untilNul piece).length, s.2 ++ traceFrom s.1 [untilNul piece]))
    (fun s piece b hsize hlength hcells =>
      parseLineAt_piece handler s hsize (spells_piece hsize hlength hcells))
    file (Nat.lt_succ_self _) (0, []) (b := ⟨lineBufSize, fun _ => 0⟩) rfl
  -- what the loop has gathered after some pieces
  have hfold : ∀ (ps : List (List UInt8)) (pos : ℕ) (trace : Trace),
      (ps.foldl (fun (s : ℕ × Trace) piece =>
        (s.1 + (untilNul piece).length, s.2 ++ traceFrom s.1 [untilNul piece])) (pos, trace)).2 =
          trace ++ traceFrom pos (ps.map untilNul) := by
    intro ps
    induction ps with
    | nil =>
        intro pos trace
        exact (List.append_nil trace).symm
    | cons piece ps ih =>
        intro pos trace
        rw [List.foldl_cons, ih, List.map_cons, traceFrom, traceFrom, traceFrom, List.append_nil,
          List.append_assoc]
  rw [parseConfigAt, Nat.add_one, hloop]
  by_cases hall : AllAnchored isEndBlankChar (lineBufSize - 1) file
  · rw [if_pos hall, if_pos (show ∀ piece ∈ pieces _ file, _ from hall), Option.map_some, hfold]
    rfl
  · rw [if_neg hall, if_neg (show ¬ ∀ piece ∈ pieces _ file, _ from hall)]
    rfl

/-- **Without the ghost variable it is the program.** -/
theorem parseConfigAt_erase (handler : KeyValueHandler) (file : List UInt8) :
    parseConfig handler (some file) =
      (parseConfigAt handler file).map fun trace => (0, trace.map Prod.snd) := by
  rw [parseConfig_pieces, parseConfigAt_pieces]
  split
  · rw [Option.map_some, traceFrom_map_snd, List.flatMap_map]
  · rfl

/-! ### Calls and lines -/

/-- A call gets its key and value from a line that starts at the offset `start`
and is no comment, and its key starts at the first byte that is no blank. -/
def FromLine (start : ℕ) (line : List UInt8) (entry : ℕ × KeyValue) : Prop :=
  ∃ blanks rest, line = blanks ++ (entry.2.1 ++ seperatorChar :: (entry.2.2 ++ rest)) ∧
    (∀ c ∈ blanks, isStartBlankChar c = true) ∧
    (∀ c ∈ (entry.2.1 ++ [seperatorChar]).head?, isStartBlankChar c = false ∧ c ≠ commentChar) ∧
    entry.1 = start + blanks.length

/-- The calls whose key lies in a part of the file. -/
def callsIn (trace : Trace) (start length : ℕ) : Trace :=
  trace.filter fun entry => start ≤ entry.1 ∧ entry.1 < start + length

/-- The run is defined, every call gets its key and value from a line that is no
comment, and no line causes more than one call. -/
def CommentsStay (handler : KeyValueHandler) (file : List UInt8) : Prop :=
  ∃ trace, parseConfigAt handler file = some trace ∧
    parseConfig handler (some file) = some (0, trace.map Prod.snd) ∧
    (∀ entry ∈ trace, ∃ pre line post, file = pre ++ line ++ post ∧ IsLine pre line post ∧
      FromLine pre.length line entry) ∧
    ∀ pre line post, file = pre ++ line ++ post → IsLine pre line post →
      (callsIn trace pre.length line.length).length ≤ 1

/-- A piece that is no setting: it starts like a blank line or a comment, or has
no separator. -/
def Harmless (t : List UInt8) : Prop :=
  isBlankLine ((t.dropWhile isStartBlankChar).headD 0) = true ∨ seperatorChar ∉ t

instance : DecidablePred Harmless := fun _ => instDecidableOr

/-- Something stops the walk over the blanks in every piece of a line, and only
the first one may be a setting. -/
def OnePiece (line : List UInt8) : Prop :=
  (∀ piece ∈ pieces (lineBufSize - 1) line, Anchored isEndBlankChar piece) ∧
    ∀ piece ∈ (pieces (lineBufSize - 1) line).tail, Harmless piece

theorem mem_trimmed {t : List UInt8} (h : seperatorChar ∈ t) : seperatorChar ∈ trimmed t := by
  rw [← List.takeWhile_append_dropWhile (p := isStartBlankChar) (l := t)] at h
  rcases List.mem_append.mp h with hblank | hmem
  · exact absurd (List.mem_takeWhile_imp hblank) (by decide)
  · rw [← List.rdropWhile_append_rtakeWhile (p := isEndBlankChar)
      (l := t.dropWhile isStartBlankChar)] at hmem
    rcases List.mem_append.mp hmem with hmem | hblank
    · exact hmem
    · exact absurd (List.mem_rtakeWhile_imp hblank) (by decide)

theorem mem_of_mem_trimmed {t : List UInt8} {c : UInt8} (h : c ∈ trimmed t) : c ∈ t :=
  List.dropWhile_subset _ ((List.rdropWhile_prefix _ _).subset h)

/-- The first byte that is left of a piece is its first byte that is no blank. -/
theorem head?_trimmed {t : List UInt8} (h : trimmed t ≠ []) :
    (trimmed t).head? = (t.dropWhile isStartBlankChar).head? :=
  head?_rdropWhile h

theorem settingOfPiece_eq_nil_iff {t : List UInt8} : settingOfPiece t = [] ↔ Harmless t := by
  rw [settingOfPiece, Harmless]
  by_cases hblank : isBlankLine ((t.dropWhile isStartBlankChar).headD 0) = true
  · rw [if_pos hblank]
    exact ⟨fun _ => .inl hblank, fun _ => rfl⟩
  · rw [if_neg hblank, or_iff_right hblank]
    constructor
    · intro hnil hmem
      have hne : trimmed t ≠ [] := List.ne_nil_of_mem (mem_trimmed hmem)
      have hcomment : (trimmed t).head? ≠ some commentChar := by
        intro hhead
        rw [head?_trimmed hne] at hhead
        rw [List.headD_eq_head?_getD, hhead] at hblank
        exact hblank rfl
      obtain ⟨call, hcall, -⟩ := settingOf_splits ⟨hne, hcomment, mem_trimmed hmem⟩
      rw [hcall] at hnil
      exact List.cons_ne_nil _ _ hnil
    · intro hmem
      exact if_neg fun hsetting => hmem (mem_of_mem_trimmed hsetting.2.2)

/-- A call for a piece comes from it as from a line. -/
theorem fromLine_of_mem {pos : ℕ} {t : List UInt8} {entry : ℕ × KeyValue}
    (h : entry ∈ traceFrom pos [t]) : FromLine pos t entry := by
  rw [traceFrom, traceFrom, List.append_nil] at h
  obtain ⟨call, hcall, rfl⟩ := List.mem_map.mp h
  rw [settingOfPiece] at hcall
  split at hcall
  · cases hcall
  · have hsetting : IsSetting (trimmed t) := by
      by_contra hnot
      rw [settingOf, if_neg hnot] at hcall
      cases hcall
    obtain ⟨call', hcall', hsplits⟩ := settingOf_splits hsetting
    rw [hcall'] at hcall
    obtain rfl := List.mem_singleton.mp hcall
    have hhead := head?_trimmed hsetting.1
    refine ⟨t.takeWhile isStartBlankChar,
      (t.dropWhile isStartBlankChar).rtakeWhile isEndBlankChar, ?_,
      fun c => List.mem_takeWhile_imp, fun c hc => ?_, rfl⟩
    · have hrest : t.dropWhile isStartBlankChar = call.1 ++ seperatorChar :: (call.2 ++
          (t.dropWhile isStartBlankChar).rtakeWhile isEndBlankChar) := by
        rw [← List.cons_append, ← List.append_assoc, hsplits.spelled]
        exact List.rdropWhile_append_rtakeWhile.symm
      rw [← hrest]
      exact List.takeWhile_append_dropWhile.symm
    · have hc' : (trimmed t).head? = some c := by
        rw [← hsplits.spelled, ← hc]
        cases call.1 <;> rfl
      refine ⟨?_, fun hcomment => hsetting.2.1 (hcomment ▸ hc')⟩
      rw [hhead] at hc'
      obtain ⟨rest, hrest⟩ := List.head?_eq_some_iff.mp hc'
      have hnot := List.head_dropWhile_not isStartBlankChar (l := t) (by simp [hrest])
      simpa [hrest] using hnot

theorem FromLine.append {start : ℕ} {line : List UInt8} {entry : ℕ × KeyValue}
    (h : FromLine start line entry) (more : List UInt8) : FromLine start (line ++ more) entry := by
  obtain ⟨blanks, rest, rfl, hblanks, hhead, hstart⟩ := h
  exact ⟨blanks, rest ++ more, by simp, hblanks, hhead, hstart⟩

theorem FromLine.lt {start : ℕ} {line : List UInt8} {entry : ℕ × KeyValue}
    (h : FromLine start line entry) : entry.1 < start + line.length := by
  obtain ⟨blanks, rest, rfl, -, -, hstart⟩ := h
  rw [hstart, List.length_append, List.length_append, List.length_cons]
  omega

theorem FromLine.le {start : ℕ} {line : List UInt8} {entry : ℕ × KeyValue}
    (h : FromLine start line entry) : start ≤ entry.1 := by
  obtain ⟨blanks, rest, -, -, -, hstart⟩ := h
  omega

/-- The offsets of a trace lie in the pieces. -/
theorem traceFrom_bounds {pos : ℕ} {ps : List (List UInt8)} {entry : ℕ × KeyValue}
    (h : entry ∈ traceFrom pos ps) : pos ≤ entry.1 ∧ entry.1 < pos + ps.flatten.length := by
  induction ps generalizing pos with
  | nil => cases h
  | cons piece ps ih =>
      rw [← List.singleton_append, traceFrom_append] at h
      rw [List.flatten_cons, List.length_append]
      rcases List.mem_append.mp h with hhere | hlater
      · have hfrom := fromLine_of_mem hhere
        have hle := hfrom.le
        have hlt := hfrom.lt
        omega
      · rw [List.flatten_singleton] at hlater
        obtain ⟨hle, hlt⟩ := ih hlater
        omega

/-! ### Files without NUL bytes -/

theorem map_untilNul {n : ℕ} {file : List UInt8} (h : 0 ∉ file) :
    (pieces n file).map untilNul = pieces n file := by
  conv_rhs => rw [← List.map_id (pieces n file)]
  apply List.map_congr_left
  intro piece hpiece
  apply untilNul_eq_self
  intro hmem
  rw [← pieces_flatten n file] at h
  exact h (List.mem_flatten_of_mem hpiece hmem)

/-- In a piece that stops the walk there is a byte that is no blank. -/
theorem Anchored.blanks_lt {t : List UInt8} (h : Anchored isEndBlankChar t) :
    (t.takeWhile isStartBlankChar).length < t.length := by
  have hne : t.dropWhile isStartBlankChar ≠ [] := by
    rintro hnil
    rw [Anchored, hnil] at h
    rcases h with hblank | ⟨c, hmem, -⟩
    · exact absurd hblank (by decide)
    · exact List.not_mem_nil hmem
  have hpos := List.length_pos_of_ne_nil hne
  have hlength := congrArg List.length
    (List.takeWhile_append_dropWhile (p := isStartBlankChar) (l := t))
  rw [List.length_append] at hlength
  omega

/-- The trace of a file, cut at a line. -/
theorem traceFrom_line {pre line post : List UInt8} (h : IsLine pre line post) :
    traceFrom 0 (pieces (lineBufSize - 1) (pre ++ line ++ post)) =
      traceFrom 0 (pieces (lineBufSize - 1) pre) ++
        (traceFrom pre.length (pieces (lineBufSize - 1) line) ++
          traceFrom (pre.length + line.length) (pieces (lineBufSize - 1) post)) := by
  rw [h.pieces_append, traceFrom_append, traceFrom_append, pieces_flatten, pieces_flatten,
    Nat.zero_add]

/-- The calls whose key lies in a line are those for its pieces. -/
theorem callsIn_line {pre line post : List UInt8} (h : IsLine pre line post) :
    callsIn (traceFrom 0 (pieces (lineBufSize - 1) (pre ++ line ++ post))) pre.length line.length =
      traceFrom pre.length (pieces (lineBufSize - 1) line) := by
  rw [callsIn, traceFrom_line h, List.filter_append, List.filter_append,
    List.filter_eq_nil_iff.mpr, List.filter_eq_self.mpr, List.filter_eq_nil_iff.mpr,
    List.nil_append, List.append_nil]
  · intro entry hmem
    have hbounds := traceFrom_bounds hmem
    simp only [decide_eq_true_eq]
    omega
  · intro entry hmem
    have hbounds := traceFrom_bounds hmem
    rw [pieces_flatten] at hbounds
    simpa only [decide_eq_true_eq] using hbounds
  · intro entry hmem
    have hbounds := traceFrom_bounds hmem
    rw [pieces_flatten] at hbounds
    simp only [decide_eq_true_eq]
    omega

/-- A line of which only the first piece may be a setting. -/
theorem OnePiece.trace {line : List UInt8} (h : OnePiece line) (hne : line ≠ []) (pos : ℕ) :
    ∃ more, line = fgetsBytes (lineBufSize - 1) line ++ more ∧
      traceFrom pos (pieces (lineBufSize - 1) line) =
        traceFrom pos [fgetsBytes (lineBufSize - 1) line] := by
  have hcut : pieces (lineBufSize - 1) line = _ := cut_eq _ (by decide) hne
  have hflat := pieces_flatten (lineBufSize - 1) line
  have hstray := h.2
  rw [hcut, List.tail_cons] at hstray
  rw [hcut] at hflat ⊢
  refine ⟨_, hflat.symm, ?_⟩
  rw [← List.singleton_append, traceFrom_append]
  apply List.append_right_eq_self.mpr
  rw [← List.map_eq_nil_iff (f := Prod.snd), traceFrom_map_snd]
  exact List.flatMap_eq_nil_iff.mpr fun piece hmem => settingOfPiece_eq_nil_iff.mpr (hstray piece hmem)

/-! ### Comments -/

/-- The trace of a file without NUL bytes, if nothing goes wrong. -/
theorem parseConfigAt_eq_some_iff (handler : KeyValueHandler) {file : List UInt8} (hnul : 0 ∉ file)
    {trace : Trace} : parseConfigAt handler file = some trace ↔
      (∀ piece ∈ pieces (lineBufSize - 1) file, Anchored isEndBlankChar piece) ∧
        traceFrom 0 (pieces (lineBufSize - 1) file) = trace := by
  have hall : AllAnchored isEndBlankChar (lineBufSize - 1) file ↔
      ∀ piece ∈ pieces (lineBufSize - 1) file, Anchored isEndBlankChar piece := by
    conv_rhs => rw [← map_untilNul hnul]
    exact List.forall_mem_map.symm
  rw [parseConfigAt_pieces, map_untilNul hnul, ← hall]
  split
  · rename_i hanchored
    rw [Option.some_inj, and_iff_right hanchored]
  · rename_i hnot
    refine iff_of_false ?_ fun h => hnot h.1
    rintro ⟨⟩

/-- **Where only first pieces are settings, comments stay comments.** -/
theorem commentsStay_of_onePiece (handler : KeyValueHandler) {file : List UInt8} (hnul : 0 ∉ file)
    (h : ∀ pre line post, file = pre ++ line ++ post → IsLine pre line post → OnePiece line) :
    CommentsStay handler file := by
  have hanchored : ∀ piece ∈ pieces (lineBufSize - 1) file, Anchored isEndBlankChar piece := by
    apply lines_induction file fun _ rest =>
      ∀ piece ∈ pieces (lineBufSize - 1) rest, Anchored isEndBlankChar piece
    · intro _ piece hmem
      cases hmem
    · intro pre line post hfile hline ih piece hmem
      rw [pieces_append _ (.inr hline.ends)] at hmem
      rcases List.mem_append.mp hmem with hhere | hlater
      · exact (h pre line post hfile hline).1 piece hhere
      · exact ih piece hlater
  have hrun := (parseConfigAt_eq_some_iff handler hnul).mpr ⟨hanchored, rfl⟩
  refine ⟨_, hrun, ?_, ?_, ?_⟩
  · rw [parseConfigAt_erase, hrun]
    rfl
  · apply lines_induction file fun pre rest =>
      ∀ entry ∈ traceFrom pre.length (pieces (lineBufSize - 1) rest),
        ∃ pre line post, file = pre ++ line ++ post ∧ IsLine pre line post ∧
          FromLine pre.length line entry
    · intro _ entry hmem
      cases hmem
    · intro pre line post hfile hline ih entry hmem
      rw [pieces_append _ (.inr hline.ends), traceFrom_append, pieces_flatten] at hmem
      rcases List.mem_append.mp hmem with hhere | hlater
      · obtain ⟨more, happend, htrace⟩ :=
          (h pre line post hfile hline).trace hline.nonempty pre.length
        rw [htrace] at hhere
        refine ⟨pre, line, post, hfile, hline, ?_⟩
        rw [happend]
        exact (fromLine_of_mem hhere).append more
      · rw [← List.length_append] at hlater
        exact ih entry hlater
  · rintro pre line post rfl hline
    obtain ⟨more, -, htrace⟩ := (h pre line post rfl hline).trace hline.nonempty pre.length
    rw [callsIn_line hline, htrace, traceFrom, traceFrom, List.append_nil, List.length_map]
    -- a piece makes one call at most
    rw [settingOfPiece, settingOf]
    split
    · exact Nat.zero_le 1
    · split
      · exact le_rfl
      · exact Nat.zero_le 1

/-- A later piece that is a setting has its key behind the first byte of its
line that is no blank. -/
theorem CommentsStay.onePiece {handler : KeyValueHandler} {file : List UInt8} (hnul : 0 ∉ file)
    (h : CommentsStay handler file) {pre line post : List UInt8} (hfile : file = pre ++ line ++ post)
    (hline : IsLine pre line post) : OnePiece line := by
  obtain ⟨trace, hrun, -, hfrom, -⟩ := h
  obtain ⟨hanchored, rfl⟩ := (parseConfigAt_eq_some_iff handler hnul).mp hrun
  subst hfile
  have hmem : ∀ piece ∈ pieces (lineBufSize - 1) line,
      piece ∈ pieces (lineBufSize - 1) (pre ++ line ++ post) := by
    intro piece hpiece
    rw [hline.pieces_append]
    exact List.mem_append_right _ (List.mem_append_left _ hpiece)
  refine ⟨fun piece hpiece => hanchored piece (hmem piece hpiece), fun piece hpiece => ?_⟩
  by_contra hstray
  have hcut : pieces (lineBufSize - 1) line = _ := cut_eq _ (by decide) hline.nonempty
  set first := fgetsBytes (lineBufSize - 1) line with hfirst
  set later := pieces (lineBufSize - 1) (line.drop first.length) with hlater
  rw [hcut, List.tail_cons] at hpiece
  -- some call comes from a later piece
  obtain ⟨entry, hentry⟩ : ∃ entry, entry ∈ traceFrom (pre.length + first.length) later := by
    apply List.exists_mem_of_ne_nil
    intro hnil
    have hcalls := traceFrom_map_snd (pre.length + first.length) later
    rw [hnil] at hcalls
    exact hstray (settingOfPiece_eq_nil_iff.mp (List.flatMap_eq_nil_iff.mp hcalls.symm piece hpiece))
  have htrace : entry ∈ traceFrom pre.length (pieces (lineBufSize - 1) line) := by
    rw [hcut, ← List.singleton_append, traceFrom_append, List.flatten_singleton]
    exact List.mem_append_right _ hentry
  have hbounds := traceFrom_bounds htrace
  have hlow := (traceFrom_bounds hentry).1
  rw [pieces_flatten] at hbounds
  obtain ⟨pre', line', post', hfile', hline', hcall⟩ := hfrom entry (by
    rw [traceFrom_line hline]
    exact List.mem_append_right _ (List.mem_append_left _ htrace))
  obtain rfl := hline.start_unique hline' hfile' hbounds.1 hbounds.2 hcall.le hcall.lt
  -- then the first piece consists of blanks
  obtain ⟨blanks, rest, rfl, hblanks, -, hstart⟩ := hcall
  have hshort : first <+: blanks := by
    have hsame : line ++ post = blanks ++ (entry.2.1 ++ seperatorChar :: (entry.2.2 ++ rest) ++ post') := by
      rw [List.append_assoc, List.append_assoc, List.append_assoc] at hfile'
      simpa using List.append_cancel_left hfile'
    have hflat := pieces_flatten (lineBufSize - 1) line
    rw [hcut, List.flatten_cons] at hflat
    have hline : first <+: line ++ post := by
      rw [← hflat, List.append_assoc]
      exact List.prefix_append _ _
    have hblank : blanks <+: line ++ post := by
      rw [hsame]
      exact List.prefix_append _ _
    exact List.prefix_of_prefix_length_le hline hblank (by omega)
  have hall : first.takeWhile isStartBlankChar = first :=
    List.takeWhile_eq_self_iff.mpr fun c hc => hblanks c (hshort.subset hc)
  have hlt := (hanchored first (hmem first (hcut ▸ List.mem_cons_self ..))).blanks_lt
  rw [hall] at hlt
  exact lt_irrefl _ hlt

/-- **Where comments stay comments**: where in every line something stops the
walk over the blanks of each piece, and no piece but the first is a setting. -/
theorem commentsStay_iff (handler : KeyValueHandler) {file : List UInt8} (hnul : 0 ∉ file) :
    CommentsStay handler file ↔
      ∀ pre line post, file = pre ++ line ++ post → IsLine pre line post → OnePiece line :=
  ⟨fun h _ _ _ hfile hline => h.onePiece hnul hfile hline, commentsStay_of_onePiece handler hnul⟩

/-- A comment with `x=y` in it, which does not fit the buffer. -/
def longNote : List UInt8 := bytes "# x=y " ++ List.replicate 600 (chr '-')

/-- The line `a=b`, and the long comment. -/
theorem commentsStay_iff_setting :
    CommentsStay (fun _ _ b => b.cell) (bytes "a=b") ∧
      CommentsStay (fun _ _ b => b.cell) longNote := by
  constructor
  · refine (commentsStay_iff _ (by decide)).mpr fun pre line post hfile hline => ?_
    obtain ⟨rfl, rfl⟩ := hline.eq_nil (hfile ▸ by decide)
    rw [List.nil_append, List.append_nil] at hfile
    rw [← hfile, OnePiece]
    decide
  · refine (commentsStay_iff _ (by decide +kernel)).mpr fun pre line post hfile hline => ?_
    obtain ⟨rfl, rfl⟩ := hline.eq_nil (hfile ▸ by decide +kernel)
    rw [List.nil_append, List.append_nil] at hfile
    rw [← hfile, OnePiece]
    decide +kernel

/-- A comment of 511 bytes with `a=b` behind them in the same line. -/
def longComment : List UInt8 := commentChar :: List.replicate 510 (chr '-') ++ bytes "a=b\n"

/-- Its second piece is a setting. -/
theorem not_commentsStay :
    ¬ (∀ (handler : KeyValueHandler) (file : List UInt8), 0 ∉ file → CommentsStay handler file) ∧
    parseConfig (fun _ _ b => b.cell) (some longComment) = some (0, [(bytes "a", bytes "b")]) := by
  refine ⟨fun hevery => ?_, by decide +kernel⟩
  have hnul : 0 ∉ longComment := by decide +kernel
  have hline : IsLine [] longComment [] :=
    ⟨.inl rfl, .inl rfl, by decide +kernel, List.cons_ne_nil _ _⟩
  have hfile : longComment = [] ++ longComment ++ [] := (List.append_nil longComment).symm
  have hone := (hevery (fun _ _ b => b.cell) longComment hnul).onePiece hnul hfile hline
  have hpieces : (pieces (lineBufSize - 1) longComment).tail = [bytes "a=b\n"] := by decide +kernel
  have hharmless := hone.2 (bytes "a=b\n") (hpieces ▸ List.mem_singleton_self _)
  exact absurd hharmless (by decide +kernel)

end CodeSnippet
