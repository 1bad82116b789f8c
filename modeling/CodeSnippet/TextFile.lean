/-
CodeSnippet/TextFile.lean

Text files that are read line by line with `fgets` into a block.  `fgets` stores
the bytes up to the end of the line, or as many as there is room for, and a NUL
byte; what the block held behind them stays.

A line ends in LF or in CR and LF.

Main results:
  * `fgetsLoop_pieces` — what a loop over the pieces of any file computes.
  * `lines_induction` — induction over the lines of a file.
  * `TextLine.fgets_eq` — a line that fits the block is read as a whole.
  * `fgetsLoop_lines` — what a loop over the lines of a file computes, when its
    body computes something of the line alone.
-/
import CodeSnippet.CString

namespace TextFile

open Memory

def lf : UInt8 := 10

def cr : UInt8 := 13

/-! ### Reading -/

/-- What `fgets` takes from a file when it has room for `n` bytes. -/
def fgetsBytes : ℕ → List UInt8 → List UInt8
  | 0, _ => []
  | _ + 1, [] => []
  | n + 1, c :: rest => if c = lf then [c] else c :: fgetsBytes n rest

/-- `fgets(b, sizeof(b), fp)`: the block and the rest of the file, or `NULL` at
the end of the file. -/
def fgets (b : Block UInt8) (file : List UInt8) : Option (Block UInt8 × List UInt8) :=
  match file with
  | [] => none
  | _ =>
      let line := fgetsBytes (b.size - 1) file
      some (b.overlay (line ++ [0]), file.drop line.length)

/-- `while (fgets(b, sizeof(b), fp) != NULL) body`, for a body that works on a
state and on the block. -/
def fgetsLoop {σ : Type*} (body : σ → Block UInt8 → Option (σ × Block UInt8)) :
    ℕ → σ → Block UInt8 → List UInt8 → Option σ
  | 0, _, _, _ => none
  | fuel + 1, s, b, file =>
      match fgets b file with
      | none => some s
      | some (b, file) => do
          let (s, b) ← body s b
          fgetsLoop body fuel s b file

/-! ### Pieces -/

/-- The pieces that a loop over `fgets` gets from a file, with room for `k` more
bytes in the first of them and for `n` bytes in the others. -/
def cut (n : ℕ) : ℕ → List UInt8 → List (List UInt8)
  | _, [] => []
  | k, c :: rest =>
      if c = lf ∨ k ≤ 1 then [c] :: cut n n rest
      else
        match cut n (k - 1) rest with
        | [] => [[c]]
        | piece :: pieces => (c :: piece) :: pieces

/-- The pieces into which a loop over `fgets` cuts a file, with room for `n`
bytes. -/
def pieces (n : ℕ) (file : List UInt8) : List (List UInt8) := cut n n file

theorem cut_eq (n : ℕ) {k : ℕ} (hk : 0 < k) {file : List UInt8} (hfile : file ≠ []) :
    cut n k file = fgetsBytes k file :: pieces n (file.drop (fgetsBytes k file).length) := by
  induction file generalizing k with
  | nil => exact absurd rfl hfile
  | cons c rest ih =>
      obtain ⟨k, rfl⟩ := Nat.exists_eq_add_one_of_ne_zero hk.ne'
      rw [cut, fgetsBytes]
      by_cases hc : c = lf
      · rw [if_pos (.inl hc), if_pos hc]
        rfl
      · rw [if_neg hc, List.length_cons, List.drop_succ_cons]
        rcases Nat.eq_zero_or_pos k with rfl | hpos
        · rw [if_pos (.inr le_rfl), fgetsBytes]
          rfl
        · have hstop : ¬ (c = lf ∨ k + 1 ≤ 1) := not_or.mpr ⟨hc, by omega⟩
          rw [if_neg hstop, Nat.add_sub_cancel]
          rcases rest with _ | ⟨d, rest⟩
          · obtain ⟨k, rfl⟩ := Nat.exists_eq_succ_of_ne_zero hpos.ne'
            rfl
          · rw [ih hpos (List.cons_ne_nil d rest)]

theorem cut_flatten (n k : ℕ) (file : List UInt8) : (cut n k file).flatten = file := by
  induction file generalizing k with
  | nil => rfl
  | cons c rest ih =>
      rw [cut]
      split
      · rw [List.flatten_cons, ih, List.singleton_append]
      · have hrest := ih (k - 1)
        split
        · rename_i hnil
          rw [hnil, List.flatten_nil] at hrest
          rw [← hrest]
          rfl
        · rename_i piece pieces hcons
          rw [hcons, List.flatten_cons] at hrest
          rw [List.flatten_cons, List.cons_append, hrest]

/-- The pieces of a file are the file. -/
theorem pieces_flatten (n : ℕ) (file : List UInt8) : (pieces n file).flatten = file :=
  cut_flatten n n file

theorem fgetsBytes_length_le (n : ℕ) (file : List UInt8) : (fgetsBytes n file).length ≤ n := by
  induction n generalizing file with
  | zero => exact le_rfl
  | succ n ih =>
      cases file with
      | nil => exact Nat.zero_le _
      | cons c rest =>
          rw [fgetsBytes]
          split
          · exact Nat.succ_le_succ (Nat.zero_le n)
          · exact Nat.succ_le_succ (ih rest)

theorem fgetsBytes_ne_nil {n : ℕ} (hn : 0 < n) {file : List UInt8} (hfile : file ≠ []) :
    fgetsBytes n file ≠ [] := by
  obtain ⟨n, rfl⟩ := Nat.exists_eq_succ_of_ne_zero hn.ne'
  obtain ⟨c, rest, rfl⟩ := List.exists_cons_of_ne_nil hfile
  rw [fgetsBytes]
  split
  · exact List.cons_ne_nil _ _
  · exact List.cons_ne_nil _ _

/-- What was cut off up to the end of a line does not matter for the rest. -/
theorem cut_append (n k : ℕ) (file rest : List UInt8) :
    cut n k (file ++ lf :: rest) = cut n k (file ++ [lf]) ++ pieces n rest := by
  induction file generalizing k with
  | nil =>
      rw [List.nil_append, List.nil_append, cut, cut, if_pos (.inl rfl), if_pos (.inl rfl)]
      rfl
  | cons c file ih =>
      rw [List.cons_append, List.cons_append, cut, cut, ih n, ih (k - 1)]
      split
      · rfl
      · have hne : cut n (k - 1) (file ++ [lf]) ≠ [] := by
          intro hnil
          have hflat := cut_flatten n (k - 1) (file ++ [lf])
          rw [hnil] at hflat
          simp at hflat
        obtain ⟨piece, pieces, hcons⟩ := List.exists_cons_of_ne_nil hne
        rw [hcons]
        rfl

/-- **Loop rule.**  Where the body does `step` with a good piece that it finds in
the block, whatever else is in the block, and is undefined for any other piece,
the loop does `step` with every piece of a file, if all of them are good. -/
theorem fgetsLoop_pieces {σ : Type*} (body : σ → Block UInt8 → Option (σ × Block UInt8)) {n : ℕ}
    (hn : 0 < n) (good : List UInt8 → Prop) [DecidablePred good] (step : σ → List UInt8 → σ)
    (hbody : ∀ s piece b, b.size = n + 1 → piece.length ≤ n →
      b.cells 0 (piece.length + 1) = piece ++ [0] →
      if good piece then ∃ b', body s b = some (step s piece, b') ∧ b'.size = n + 1
      else body s b = none)
    (file : List UInt8) {fuel : ℕ} (hfuel : file.length < fuel) (s : σ) {b : Block UInt8}
    (hb : b.size = n + 1) :
    fgetsLoop body fuel s b file =
      if ∀ piece ∈ pieces n file, good piece then some ((pieces n file).foldl step s) else none := by
  induction fuel generalizing s b file with
  | zero => omega
  | succ fuel ih =>
      by_cases hfile : file = []
      · have hnone : ∀ piece ∈ pieces n [], good piece :=
          fun piece hmem => absurd hmem List.not_mem_nil
        rw [hfile, if_pos hnone]
        rfl
      · obtain ⟨c, rest, hcons⟩ := List.exists_cons_of_ne_nil hfile
        have hget : fgets b file =
            some (b.overlay (fgetsBytes n file ++ [0]), file.drop (fgetsBytes n file).length) := by
          rw [hcons, fgets, hb, Nat.add_sub_cancel]
          exact List.cons_ne_nil c rest
        have hcells := Block.overlay_cells b (fgetsBytes n file ++ [0])
        rw [List.length_append, List.length_singleton] at hcells
        have hrun := hbody s (fgetsBytes n file) (b.overlay (fgetsBytes n file ++ [0])) hb
          (fgetsBytes_length_le n file) hcells
        have hpos := List.length_pos_of_ne_nil (fgetsBytes_ne_nil hn hfile)
        have hlength := List.length_pos_of_ne_nil hfile
        rw [fgetsLoop, hget, pieces, cut_eq n hn hfile]
        by_cases hgood : good (fgetsBytes n file)
        · rw [if_pos hgood] at hrun
          obtain ⟨b', hstep, hsize⟩ := hrun
          simp only [hstep, Option.bind_eq_bind, Option.bind_some, List.forall_mem_cons, hgood,
            true_and, List.foldl_cons]
          apply ih _ _ _ hsize
          rw [List.length_drop]
          omega
        · rw [if_neg hgood] at hrun
          rw [if_neg fun hall => hgood (hall _ (List.mem_cons_self ..))]
          simp only [hrun, Option.bind_eq_bind, Option.bind_none]

/-! ### Physical lines -/

/-- `line` is a line of the file `pre ++ line ++ post`, of any length; the last
line may lack its LF. -/
structure IsLine (pre line post : List UInt8) : Prop where
  starts : pre = [] ∨ pre.getLast? = some lf
  ends : post = [] ∨ line.getLast? = some lf
  inner : lf ∉ line.dropLast
  nonempty : line ≠ []

/-- The pieces of a file are those before and those behind the end of a line. -/
theorem pieces_append (n : ℕ) {pre rest : List UInt8}
    (h : pre = [] ∨ rest = [] ∨ pre.getLast? = some lf) :
    pieces n (pre ++ rest) = pieces n pre ++ pieces n rest := by
  rcases h with rfl | rfl | h
  · rfl
  · rw [List.append_nil]
    exact (List.append_nil _).symm
  · obtain ⟨before, rfl⟩ := List.getLast?_eq_some_iff.mp h
    rw [List.append_assoc]
    exact cut_append n n before rest

theorem IsLine.pieces_append (n : ℕ) {pre line post : List UInt8} (h : IsLine pre line post) :
    pieces n (pre ++ line ++ post) = pieces n pre ++ (pieces n line ++ pieces n post) := by
  rw [List.append_assoc, TextFile.pieces_append n (h.starts.imp_right .inr),
    TextFile.pieces_append n (.inr h.ends)]

/-- The first line of a file. -/
theorem exists_isLine {pre rest : List UInt8} (hpre : pre = [] ∨ pre.getLast? = some lf)
    (hrest : rest ≠ []) : ∃ line post, rest = line ++ post ∧ IsLine pre line post := by
  by_cases hlf : lf ∈ rest
  · obtain ⟨before, post, rfl, hbefore⟩ := List.eq_append_cons_of_mem hlf
    refine ⟨before ++ [lf], post, List.append_cons .., hpre, .inr ?_, ?_, ?_⟩
    · exact List.getLast?_concat
    · rwa [List.dropLast_concat]
    · exact List.append_ne_nil_of_right_ne_nil _ (List.cons_ne_nil _ _)
  · refine ⟨rest, [], (List.append_nil rest).symm, hpre, .inl rfl, ?_, hrest⟩
    exact fun hmem => hlf (List.mem_of_mem_dropLast hmem)

/-- **Induction over the lines of a file**, from its end. -/
theorem lines_induction (file : List UInt8) (Q : List UInt8 → List UInt8 → Prop)
    (nil : ∀ pre, Q pre [])
    (line : ∀ pre line post, file = pre ++ line ++ post → IsLine pre line post →
      Q (pre ++ line) post → Q pre (line ++ post)) : Q [] file := by
  have hall : ∀ n pre rest, rest.length ≤ n → file = pre ++ rest →
      (rest = [] ∨ pre = [] ∨ pre.getLast? = some lf) → Q pre rest := by
    intro n
    induction n with
    | zero =>
        intro pre rest hlength _ _
        rw [List.length_eq_zero_iff.mp (Nat.le_zero.mp hlength)]
        exact nil pre
    | succ n ih =>
        intro pre rest hlength hfile hpre
        by_cases hrest : rest = []
        · rw [hrest]
          exact nil pre
        · obtain ⟨l, post, rfl, hl⟩ := exists_isLine (hpre.resolve_left hrest) hrest
          have hpos := List.length_pos_of_ne_nil hl.nonempty
          rw [List.length_append] at hlength
          rw [← List.append_assoc] at hfile
          refine line pre l post hfile hl (ih _ _ (by omega) hfile ?_)
          refine hl.ends.imp_right fun hlf => .inr ?_
          rw [List.getLast?_append_of_ne_nil _ hl.nonempty]
          exact hlf
  exact hall file.length [] file le_rfl rfl (.inr (.inl rfl))

/-- No line starts inside another one. -/
theorem IsLine.start_le {pre line post pre' line' post' : List UInt8} (h : IsLine pre line post)
    (h' : IsLine pre' line' post') (hfile : pre ++ line ++ post = pre' ++ line' ++ post')
    (hlt : pre'.length < pre.length + line.length) : pre'.length ≤ pre.length := by
  by_contra hinside
  have hne : pre' ≠ [] := by
    rintro rfl
    exact hinside (Nat.zero_le _)
  obtain ⟨before, rfl⟩ := List.getLast?_eq_some_iff.mp (h'.starts.resolve_left hne)
  rw [List.length_append, List.length_singleton] at hlt hinside
  -- the LF in front of `line'`
  have hlf : (pre ++ line ++ post)[before.length]? = some lf := by
    rw [hfile, List.append_assoc, List.append_assoc, List.getElem?_append_right le_rfl,
      Nat.sub_self]
    rfl
  rw [List.append_assoc, List.getElem?_append_right (by omega),
    List.getElem?_append_left (by omega)] at hlf
  apply h.inner
  refine List.mem_of_getElem? (i := before.length - pre.length) ?_
  rwa [List.getElem?_dropLast, if_pos (by omega)]

/-- A position lies in one line only. -/
theorem IsLine.start_unique {pre line post pre' line' post' : List UInt8}
    (h : IsLine pre line post) (h' : IsLine pre' line' post')
    (hfile : pre ++ line ++ post = pre' ++ line' ++ post') {i : ℕ} (hi : pre.length ≤ i)
    (hlt : i < pre.length + line.length) (hi' : pre'.length ≤ i)
    (hlt' : i < pre'.length + line'.length) : pre = pre' := by
  have hlength : pre.length = pre'.length :=
    (h'.start_le h hfile.symm (by omega)).antisymm (h.start_le h' hfile (by omega))
  rw [List.append_assoc, List.append_assoc] at hfile
  exact (List.append_inj hfile hlength).1

/-- A file without LF is one line. -/
theorem IsLine.eq_nil {pre line post : List UInt8} (h : IsLine pre line post)
    (hlf : lf ∉ pre ++ line ++ post) : pre = [] ∧ post = [] := by
  simp only [List.mem_append, not_or] at hlf
  exact ⟨h.starts.resolve_right fun hlast => hlf.1.1 (List.mem_of_getLast? hlast),
    h.ends.resolve_right fun hlast => hlf.1.2 (List.mem_of_getLast? hlast)⟩

/-! ### Lines that fit -/

def terminator (crlf : Bool) : List UInt8 := if crlf then [cr, lf] else [lf]

/-- A line of at most `n` bytes with its terminator. -/
structure TextLine (n : ℕ) where
  body : List UInt8
  crlf : Bool
  text : ∀ c ∈ body, c ≠ 0 ∧ c ≠ lf ∧ c ≠ cr
  short : body.length + (terminator crlf).length ≤ n

variable {n : ℕ}

def TextLine.bytes (line : TextLine n) : List UInt8 := line.body ++ terminator line.crlf

/-- The contents of a file. -/
def textOf (lines : List (TextLine n)) : List UInt8 := lines.flatMap TextLine.bytes

theorem TextLine.length_le (line : TextLine n) : line.bytes.length ≤ n := by
  rw [TextLine.bytes, List.length_append]
  exact line.short

theorem TextLine.noNul (line : TextLine n) : 0 ∉ line.bytes := by
  intro hmem
  rcases List.mem_append.mp hmem with hbody | hterminator
  · exact (line.text 0 hbody).1 rfl
  · rcases line with ⟨body, crlf | crlf, text, short⟩ <;> simp [terminator, lf, cr] at hterminator

/-- The bytes before the LF of a line. -/
theorem TextLine.exists_init (line : TextLine n) :
    ∃ init, line.bytes = init ++ [lf] ∧ lf ∉ init := by
  have hbody : lf ∉ line.body := fun hmem => (line.text lf hmem).2.1 rfl
  rcases hcrlf : line.crlf with _ | _
  · exact ⟨line.body, by simp [TextLine.bytes, hcrlf, terminator], hbody⟩
  · refine ⟨line.body ++ [cr], by simp [TextLine.bytes, hcrlf, terminator], fun hmem => ?_⟩
    rcases List.mem_append.mp hmem with hmem | hmem
    · exact hbody hmem
    · exact absurd hmem (by decide)

theorem fgetsBytes_line {init : List UInt8} (hinit : lf ∉ init) {n : ℕ} (hn : init.length < n)
    (rest : List UInt8) : fgetsBytes n (init ++ lf :: rest) = init ++ [lf] := by
  induction init generalizing n with
  | nil =>
      obtain ⟨n, rfl⟩ := Nat.exists_eq_succ_of_ne_zero hn.ne'
      simp [fgetsBytes]
  | cons c init ih =>
      obtain ⟨n, rfl⟩ := Nat.exists_eq_succ_of_ne_zero (Nat.ne_zero_of_lt hn)
      rw [List.mem_cons, not_or] at hinit
      have hc : c ≠ lf := fun e => hinit.1 e.symm
      simp [fgetsBytes, hc, ih hinit.2 (Nat.lt_of_succ_lt_succ hn)]

/-- A line that fits the block is read as a whole. -/
theorem TextLine.fgets_eq (line : TextLine n) {b : Block UInt8} (hb : b.size = n + 1)
    (rest : List UInt8) :
    fgets b (line.bytes ++ rest) = some (b.overlay (line.bytes ++ [0]), rest) := by
  obtain ⟨init, hbytes, hinit⟩ := line.exists_init
  have hlength := line.length_le
  rw [hbytes, List.length_append, List.length_singleton] at hlength
  have hread : fgetsBytes (b.size - 1) (line.bytes ++ rest) = line.bytes := by
    rw [hb, Nat.add_sub_cancel, hbytes, List.append_assoc]
    exact fgetsBytes_line hinit hlength rest
  have hne : line.bytes ++ rest ≠ [] := by simp [hbytes]
  obtain ⟨c, file, hfile⟩ := List.exists_cons_of_ne_nil hne
  rw [hfile] at hread ⊢
  simp only [fgets, hread]
  rw [← hfile, List.drop_left]

/-- **Loop rule.**  Where the body finds a line in the block and does `step`
with it, whatever else is in the block, the loop does `step` with every line. -/
theorem fgetsLoop_lines {σ : Type*} {body : σ → Block UInt8 → Option (σ × Block UInt8)}
    (step : σ → List UInt8 → σ)
    (hbody : ∀ s (line : TextLine n) b, b.size = n + 1 → b.Spells 0 line.bytes →
      ∃ b', body s b = some (step s line.bytes, b') ∧ b'.size = n + 1)
    (lines : List (TextLine n)) {fuel : ℕ} (hfuel : lines.length < fuel) (s : σ) {b : Block UInt8}
    (hb : b.size = n + 1) :
    fgetsLoop body fuel s b (textOf lines) = some ((lines.map TextLine.bytes).foldl step s) := by
  induction lines generalizing fuel s b with
  | nil =>
      obtain ⟨fuel, rfl⟩ := Nat.exists_eq_succ_of_ne_zero hfuel.ne'
      rfl
  | cons line lines ih =>
      obtain ⟨fuel, rfl⟩ := Nat.exists_eq_succ_of_ne_zero (Nat.ne_zero_of_lt hfuel)
      have htext : textOf (line :: lines) = line.bytes ++ textOf lines := rfl
      have hspells := Block.spells_overlay_nul (b := b) line.noNul
        (by rw [hb]; exact Nat.lt_succ_of_le line.length_le)
      -- what the lines before left in the block does not matter
      obtain ⟨b', hstep, hb'⟩ := hbody s line (b.overlay (line.bytes ++ [0])) hb hspells
      rw [fgetsLoop, htext, line.fgets_eq hb]
      simp only [hstep, Option.bind_eq_bind, Option.bind_some]
      exact ih (Nat.lt_of_succ_lt_succ hfuel) _ hb'

theorem TextLine.bytes_ne_nil (line : TextLine n) : line.bytes ≠ [] := by
  obtain ⟨init, hbytes, -⟩ := line.exists_init
  simp [hbytes]

/-- Lines that fit the block are the pieces of their file. -/
theorem pieces_textOf (lines : List (TextLine n)) :
    pieces n (textOf lines) = lines.map TextLine.bytes := by
  induction lines with
  | nil => rfl
  | cons line lines ih =>
      obtain ⟨init, hbytes, hinit⟩ := line.exists_init
      have hlength := line.length_le
      rw [hbytes, List.length_append, List.length_singleton] at hlength
      have hread : fgetsBytes n (line.bytes ++ []) = line.bytes := by
        rw [hbytes, List.append_assoc]
        exact fgetsBytes_line hinit hlength []
      have hpiece : pieces n line.bytes = [line.bytes] := by
        rw [List.append_nil] at hread
        rw [pieces, cut_eq n (by omega) line.bytes_ne_nil, hread, List.drop_length]
        rfl
      have htext : textOf (line :: lines) = line.bytes ++ textOf lines := rfl
      have hend : line.bytes.getLast? = some lf := by
        rw [hbytes]
        exact List.getLast?_concat
      rw [htext, pieces_append n (.inr (.inr hend)), hpiece, ih, List.map_cons]
      rfl

/-- A file has no more lines than bytes. -/
theorem length_le_textOf (lines : List (TextLine n)) : lines.length ≤ (textOf lines).length := by
  induction lines with
  | nil => rfl
  | cons line lines ih =>
      have hpos := List.length_pos_of_ne_nil line.bytes_ne_nil
      have htext : textOf (line :: lines) = line.bytes ++ textOf lines := rfl
      rw [htext, List.length_append, List.length_cons]
      omega

end TextFile
