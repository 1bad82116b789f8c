/-
CodeSnippet/ConvertLines.lean

What the printed line says about the printed tokens.  The converter writes its
tokens side by side, so the line keeps the letters and digits of the operands
and, for each operator, how many of them stand before it (`line_shape`); it
does not keep where one operand ends and the next one starts.

Main results:
  * `line_shape` — the words and the marks of a run that returns 0.
  * `placesFrom_of_converts` — for a correct conversion the marks are those of
    the expression.
  * `line_determines_tokens_iff` — when equal lines are equal token sequences.
-/
import CodeSnippet.ConvertErrors
import CodeSnippet.Interleave

namespace CodeSnippet

open Memory ExpressionConvert Interleave

/-- Letters and digits. -/
def isalnum (c : UInt8) : Bool := isalpha c || isdigit c

theorem isalnum_byte (op : Op) : isalnum op.byte = false := by
  cases op <;> rfl

theorem isalnum_operand {w : List UInt8} (h : Infix.IsOperand w) : ∀ c ∈ w, isalnum c = true := by
  intro c hc
  rw [isalnum, Bool.or_eq_true]
  rcases h.2.2 with halpha | hdigit
  · exact .inl (halpha c hc)
  · exact .inr (hdigit c hc)

/-- The operands of an expression, from left to right. -/
def Infix.operands : Infix → List (List UInt8)
  | operand w => [w]
  | paren e => e.operands
  | bin _ l r => l.operands ++ r.operands

/-- The operators of the postfix form, each with the number of letters and
digits before it, when there are `k` in front. -/
def Infix.marks (k : ℕ) : Infix → List (UInt8 × ℕ)
  | operand _ => []
  | paren e => e.marks k
  | bin op l r =>
      l.marks k ++ r.marks (k + l.operands.flatten.length) ++
        [(op.byte, k + (l.operands ++ r.operands).flatten.length)]

namespace ExpressionConvert

/-! ### Operands -/

/-- The operand, if the lexeme is one. -/
def Lexeme.word : Lexeme → List (List UInt8)
  | .operand w => [w]
  | .oper _ => []

/-- The operands among some lexemes. -/
def operands (ls : List Lexeme) : List (List UInt8) := ls.flatMap Lexeme.word

theorem operands_append (ls ls' : List Lexeme) :
    operands (ls ++ ls') = operands ls ++ operands ls' :=
  List.flatMap_append ..

theorem operands_oper (c : UInt8) (ls : List Lexeme) : operands (.oper c :: ls) = operands ls :=
  rfl

theorem operands_tokens (e : Infix) : operands e.tokens = e.operands := by
  induction e with
  | operand w => rfl
  | paren e ih =>
      rw [Infix.tokens, List.cons_append, operands_oper, operands_append, ih]
      exact List.append_nil _
  | bin op l r ihl ihr =>
      rw [Infix.tokens, operands_append, operands_oper, ihl, ihr, Infix.operands]

/-! ### The textbook -/

/-- The bytes of the operators that wait. -/
def bytesOf (waiting : List Waiting) : List UInt8 := waiting.reduceOption.map Op.byte

/-- What waits behind a lexeme. -/
def after (waiting : List Waiting) : Lexeme → List Waiting
  | .operand _ => waiting
  | .oper c =>
      if c = chr '(' then pushTo 16 waiting none
      else if c = chr ')' then (waiting.dropWhile (·.isSome)).tail
      else
        match toOp c with
        | some op => pushTo 16 (waiting.dropWhile (!op.under ·)) (some op)
        | none => waiting

/-- The operators that no longer wait, and are printed. -/
def released (waiting : List Waiting) : Lexeme → List UInt8
  | .operand _ => []
  | .oper c =>
      if c = chr '(' then []
      else if c = chr ')' then bytesOf (waiting.takeWhile (·.isSome))
      else
        match toOp c with
        | some op => bytesOf (waiting.takeWhile (!op.under ·))
        | none => []

/-- Reading on with `waiting` on a stack of 16 entries and `k` letters and
digits printed, the operators that are printed, each with the number of letters
and digits before it. -/
def places (k : ℕ) (waiting : List Waiting) : List Lexeme → List (UInt8 × ℕ)
  | [] => (bytesOf (waiting.takeWhile (·.isSome))).map (·, k)
  | l :: ls =>
      (released waiting l).map (·, k) ++ places (k + l.word.flatten.length) (after waiting l) ls

/-- The same from the start: the first operator finds what `ch` passes for. -/
def placesFrom (ch : ℤ) (k : ℕ) : List Lexeme → List (UInt8 × ℕ)
  | [] => []
  | .operand w :: ls => placesFrom ch (k + w.length) ls
  | .oper c :: ls =>
      match toOp c with
      | some _ => places k (after (waitingOf ch) (.oper c)) ls
      | none => placesFrom ch k ls

theorem isalnum_bytesOf (waiting : List Waiting) : ∀ c ∈ bytesOf waiting, isalnum c = false := by
  intro c hc
  obtain ⟨op, -, rfl⟩ := List.mem_map.mp hc
  exact isalnum_byte op

theorem isalnum_released (waiting : List Waiting) (l : Lexeme) :
    ∀ c ∈ released waiting l, isalnum c = false := by
  have hnil : ∀ c ∈ ([] : List UInt8), isalnum c = false := fun c hc => absurd hc List.not_mem_nil
  cases l with
  | operand w => exact hnil
  | oper c =>
      unfold released
      simp only
      split
      · exact hnil
      · split
        · exact isalnum_bytesOf _
        · split
          · exact isalnum_bytesOf _
          · exact hnil

/-! ### What the run prints -/

/-- Operators come off the stack as their bytes. -/
theorem printed_waiting {waiting : List Waiting} (h : none ∉ waiting) :
    printed (waiting.map Waiting.code) = (bytesOf waiting).map fun c => [c] := by
  induction waiting with
  | nil => rfl
  | cons m waiting ih =>
      have hrest : none ∉ waiting := fun hmem => h (List.mem_cons_of_mem _ hmem)
      cases m with
      | none => exact absurd (List.mem_cons_self ..) h
      | some op =>
          have hcode : putchar op.code = op.byte := op.putchar_code
          rw [bytesOf, List.reduceOption_cons_of_some, List.map_cons, List.map_cons, List.map_cons,
            printed, List.map_cons]
          exact congrArg₂ List.cons (congrArg (fun c => [c]) hcode) (ih hrest)

theorem takeWhile_eq {stop : ℤ → Bool} {pre rest : List ℤ} {c : ℤ}
    (hpre : ∀ x ∈ pre, stop x = false) (hc : stop c = true) :
    (pre ++ c :: rest).takeWhile (fun x => !stop x) = pre := by
  rw [List.takeWhile_append_of_pos fun x hx => by rw [hpre x hx]; rfl,
    List.takeWhile_cons_of_neg (by rw [hc]; exact Bool.false_ne_true), List.append_nil]

theorem takeWhile_eq_all {stop : ℤ → Bool} {l : List ℤ} (hl : ∀ x ∈ l, stop x = false) :
    l.takeWhile (fun x => !stop x) = l :=
  List.takeWhile_eq_self_iff.mpr fun x hx => by rw [hl x hx]; rfl

theorem Pending.Busy.binary_out {p : Pending} (h : p.Busy) (op : Op) :
    (p.binary op).out = p.out ++ printed (p.stack.takeWhile fun x => !op.stop x) := by
  rcases h.binary_cases op with ⟨pre, c, rest, hsplit, hpre, hc, hbinary⟩ | ⟨hall, hbinary⟩
  · rw [hbinary, hsplit, takeWhile_eq hpre hc]
  · rw [hbinary, takeWhile_eq_all hall]

theorem Pending.Busy.close_out {p q : Pending} (h : p.Busy) (hq : p.operate (chr ')') = .ok q) :
    q.stack = (p.stack.dropWhile fun x => !isParen x).tail ∧
      q.out = p.out ++ printed (p.stack.takeWhile fun x => !isParen x) := by
  rcases h.close_cases with ⟨pre, rest, hsplit, hpre, -, hok⟩ | ⟨-, r, herr⟩
  · obtain rfl := Except.ok.inj (hok.symm.trans hq)
    have hstop : isParen (code '(') = true := isParen_iff.mpr rfl
    rw [hsplit, dropWhile_eq hpre hstop, takeWhile_eq hpre hstop]
    exact ⟨rfl, rfl⟩
  · rw [herr] at hq
    cases hq

/-- Popping prints the operators up to the first entry that stops it, where
parentheses do. -/
theorem printed_takeWhile {stop : ℤ → Bool} {pass : Waiting → Bool}
    (hpass : ∀ m, (!stop (Waiting.code m)) = pass m) (hnone : pass none = false)
    (waiting : List Waiting) :
    printed ((waiting.map Waiting.code).takeWhile fun x => !stop x) =
      (bytesOf (waiting.takeWhile pass)).map fun c => [c] := by
  rw [List.takeWhile_map, ← printed_waiting]
  · congr 3
    funext m
    exact hpass m
  · intro hmem
    have htrue := List.mem_takeWhile_imp hmem
    rw [hnone] at htrue
    cases htrue

theorem takeWhile_under (op : Op) (waiting : List Waiting) :
    printed ((waiting.map Waiting.code).takeWhile fun x => !op.stop x) =
      (bytesOf (waiting.takeWhile (!op.under ·))).map fun c => [c] :=
  printed_takeWhile (fun m => congrArg not (stop_waiting op m)) rfl waiting

theorem takeWhile_isSome (waiting : List Waiting) :
    printed ((waiting.map Waiting.code).takeWhile fun x => !isParen x) =
      (bytesOf (waiting.takeWhile (·.isSome))).map fun c => [c] :=
  printed_takeWhile (fun m => by rw [isParen_waiting, Bool.not_not]) rfl waiting

/-- **An operator or a parenthesis in a busy run**: the stack is that of the
textbook, and the operators that leave it are printed. -/
theorem Pending.Busy.operate_eq {p q : Pending} (h : p.Busy) {waiting : List Waiting}
    (hstack : p.stack = waiting.map Waiting.code) {c : UInt8} (hq : p.operate c = .ok q) :
    q.stack = (after waiting (.oper c)).map Waiting.code ∧
      q.out = p.out ++ (released waiting (.oper c)).map fun c => [c] := by
  rw [after, released]
  rcases known_cases c with rfl | rfl | ⟨op, rfl⟩ | hunknown
  · obtain rfl := Except.ok.inj ((operate_open p).symm.trans hq)
    rw [if_pos rfl, if_pos rfl, map_pushTo, ← hstack]
    exact ⟨rfl, (List.append_nil _).symm⟩
  · obtain ⟨hrest, hout⟩ := h.close_out hq
    rw [if_neg (by decide), if_pos rfl, if_neg (by decide), if_pos rfl, hrest, hout, hstack,
      takeWhile_isSome, dropWhile_isSome, List.map_tail]
    exact ⟨rfl, rfl⟩
  · obtain rfl := Except.ok.inj ((operate_op p op).symm.trans hq)
    rw [if_neg op.byte_ne_open, if_neg op.byte_ne_close, if_neg op.byte_ne_open,
      if_neg op.byte_ne_close, toOp_byte, h.binary_stack, h.binary_out, hstack, map_pushTo,
      takeWhile_under, dropWhile_under]
    exact ⟨rfl, rfl⟩
  · obtain rfl := Except.ok.inj ((operate_unknown p hunknown).symm.trans hq)
    have hopen : c ≠ chr '(' := fun e => hunknown (.inl e)
    have hclose : c ≠ chr ')' := fun e => hunknown (.inr (.inl e))
    rw [if_neg hopen, if_neg hclose, if_neg hopen, if_neg hclose, toOp_unknown hunknown]
    exact ⟨hstack, (List.append_nil _).symm⟩

/-- **One step of a busy run.** -/
theorem Pending.Busy.step_shape {p q : Pending} (h : p.Busy) {waiting : List Waiting}
    (hstack : p.stack = waiting.map Waiting.code) {l : Lexeme} (hl : l.Proper)
    (hq : p.step l = .ok q) :
    q.stack = (after waiting l).map Waiting.code ∧ ∃ tail, q.out = p.out ++ tail ∧
      Shape isalnum tail l.word fun k => (released waiting l).map (·, k) := by
  cases l with
  | operand w =>
      obtain rfl := Except.ok.inj (show Except.ok _ = Except.ok q from hq)
      exact ⟨hstack, [w], rfl, .word hl.1 (isalnum_operand hl)⟩
  | oper c =>
      obtain ⟨hafter, hout⟩ := h.operate_eq hstack hq
      exact ⟨hafter, _, hout, .ofMarks (isalnum_released waiting (.oper c))⟩

theorem Lexeme.Proper.fits {l : Lexeme} (h : l.Proper) : l.Fits := by
  cases l with
  | operand w => exact h.2.1
  | oper c => trivial

/-- A run that returns 0, by its first step. -/
theorem Pending.run_cons {p : Pending} {l : Lexeme} {ls : List Lexeme} {out : List (List UInt8)}
    (hrun : p.run (l :: ls) = some ⟨0, out⟩) :
    ∃ q, p.step l = .ok q ∧ q.run ls = some ⟨0, out⟩ := by
  rw [run] at hrun
  split at hrun
  · rcases hstep : p.step l with q | q
    · rw [hstep] at hrun
      exact absurd hrun err_ne
    · rw [hstep] at hrun
      exact ⟨q, rfl, hrun⟩
  · cases hrun

/-- The marks of a line: those of its operators, and the newline. -/
def lineMarks (places : ℕ → List (UInt8 × ℕ)) (words : List (List UInt8)) (k : ℕ) :
    List (UInt8 × ℕ) :=
  places k ++ [(chr '\n', k + words.flatten.length)]

/-- What is left to print has the words and the marks. -/
def Prints (before out words : List (List UInt8)) (places : ℕ → List (UInt8 × ℕ)) : Prop :=
  ∃ tail, out = before ++ tail ∧ Shape isalnum tail words (lineMarks places words)

/-- What one step prints comes in front. -/
theorem Prints.cons {before tail out ws words : List (List UInt8)}
    {ms places : ℕ → List (UInt8 × ℕ)} (hstep : Shape isalnum tail ws ms)
    (h : Prints (before ++ tail) out words places) :
    Prints before out (ws ++ words) fun k => ms k ++ places (k + ws.flatten.length) := by
  obtain ⟨rest, hout, hrest⟩ := h
  refine ⟨tail ++ rest, hout.trans (List.append_assoc ..), ?_⟩
  convert hstep.append hrest using 1
  funext k
  rw [lineMarks, lineMarks, List.flatten_append, List.length_append, List.append_assoc,
    Nat.add_assoc]

/-- A newline ends the line. -/
theorem Prints.newline {before l : List (List UInt8)} {ms : ℕ → List (UInt8 × ℕ)}
    (h : Shape isalnum l [] ms) : Prints before (before ++ l ++ [bytes "\n"]) [] ms := by
  refine ⟨l ++ [bytes "\n"], List.append_assoc .., ?_⟩
  have hmark : ∀ c ∈ [chr '\n'], isalnum c = false := by
    intro c hc
    rw [List.mem_singleton.mp hc]
    rfl
  have hnewline : Shape isalnum [bytes "\n"] [] fun k => [(chr '\n', k)] := .ofMarks hmark
  exact h.append hnewline

/-- **What a busy run prints.** -/
theorem Pending.Busy.run_shape {p : Pending} (h : p.Busy) {waiting : List Waiting}
    (hstack : p.stack = waiting.map Waiting.code) {ls : List Lexeme} (hls : ∀ l ∈ ls, l.Proper)
    {out : List (List UInt8)} (hrun : p.run ls = some ⟨0, out⟩) :
    Prints p.out out (operands ls) fun k => places k waiting ls := by
  induction ls generalizing p waiting with
  | nil =>
      rcases h.finish with ⟨-, out', herr⟩ | ⟨hzero, hok⟩
      · rw [run, herr] at hrun
        exact absurd hrun err_ne
      · rw [run, hok] at hrun
        obtain rfl : p.out ++ printed p.stack ++ [bytes "\n"] = out :=
          congrArg Exit.out (Option.some.inj hrun)
        -- no parenthesis is left, so all that waits is printed
        have hall : ∀ x ∈ p.stack, isParen x = false := by
          intro x hx
          by_contra hparen
          obtain rfl := isParen_iff.mp (Bool.of_not_eq_false hparen)
          exact absurd (List.count_pos_iff.mpr hx) (Nat.not_lt.mpr hzero.le)
        rw [← takeWhile_eq_all hall, hstack, takeWhile_isSome]
        exact .newline (.ofMarks (isalnum_bytesOf _))
  | cons l ls ih =>
      obtain ⟨hl, hls⟩ := List.forall_mem_cons.mp hls
      obtain ⟨q, hq, hrun⟩ := run_cons hrun
      obtain ⟨hstack', tail, hout, htail⟩ := h.step_shape hstack hl hq
      have hrest := ih (h.step hq).1 hstack' hls hrun
      rw [hout] at hrest
      exact .cons htail hrest

/-- A jammed run does not return 0. -/
theorem Pending.Jammed.run_ne {p : Pending} (h : p.Jammed) {ls : List Lexeme}
    (hls : ∀ l ∈ ls, l.Proper) (out : List (List UInt8)) : p.run ls ≠ some ⟨0, out⟩ := by
  intro hrun
  obtain ⟨out', hout'⟩ := h.run fun l hl => (hls l hl).fits
  exact err_ne (hout'.symm.trans hrun)

/-- **What a run prints that starts with nothing on the stack.** -/
theorem idle_shape {ch : ℤ} (hch : ch ≠ code '(') {ls : List Lexeme} (hls : ∀ l ∈ ls, l.Proper)
    {before out : List (List UInt8)} (hrun : Pending.run ⟨[], ch, before⟩ ls = some ⟨0, out⟩) :
    Prints before out (operands ls) fun k => placesFrom ch k ls := by
  induction ls generalizing before with
  | nil =>
      have hfinish : Pending.finish ⟨[], ch, before⟩ = ⟨0, before ++ [bytes "\n"]⟩ := if_neg hch
      rw [Pending.run, hfinish] at hrun
      obtain rfl : before ++ [bytes "\n"] = out := congrArg Exit.out (Option.some.inj hrun)
      have hnone : Prints before (before ++ [] ++ [bytes "\n"]) [] fun _ => [] := .newline .nil
      rw [List.append_nil] at hnone
      exact hnone
  | cons l ls ih =>
      obtain ⟨hl, hrest⟩ := List.forall_mem_cons.mp hls
      obtain ⟨q, hq, hrun⟩ := Pending.run_cons hrun
      cases l with
      | operand w =>
          obtain rfl := Except.ok.inj (show Except.ok _ = Except.ok q from hq)
          have hword : Shape isalnum [w] [w] fun _ => [] := .word hl.1 (isalnum_operand hl)
          have hprints := Prints.cons hword (ih hrest hrun)
          rw [List.flatten_singleton] at hprints
          exact hprints
      | oper c =>
          have hq : Pending.operate c ⟨[], ch, before⟩ = .ok q := hq
          rw [operands_oper]
          rcases known_cases c with rfl | rfl | ⟨op, rfl⟩ | hunknown
          · -- an opening parenthesis jams the run
            obtain rfl := Except.ok.inj ((Pending.operate_open _).symm.trans hq)
            have hjam : Pending.Jammed ⟨[code '('], ch, before⟩ :=
              ⟨.inr rfl, Nat.le_of_ble_eq_true rfl⟩
            exact absurd hrun (hjam.run_ne hrest out)
          · -- a closing one is the error exit
            rw [Pending.operate_close, Pending.popWhileNot_nil rfl, if_neg hch] at hq
            cases hq
          · -- the first operator makes the run busy, and prints nothing
            obtain rfl := Except.ok.inj ((Pending.operate_op _ op).symm.trans hq)
            obtain ⟨hbusy, hstack⟩ := binary_idle hch op before
            have hafter : after (waitingOf ch) (.oper op.byte) =
                pushTo 16 ((waitingOf ch).dropWhile (!op.under ·)) (some op) := by
              rw [after, if_neg op.byte_ne_open, if_neg op.byte_ne_close, toOp_byte]
            have hout : (Pending.binary ⟨[], ch, before⟩ op).out = before := by
              rw [Pending.binary, Pending.popWhileNot_nil rfl]
              simp only
              split
              · rfl
              · rfl
            rw [← hafter] at hstack
            have hprints := hbusy.run_shape hstack hrest hrun
            rw [hout] at hprints
            simp only [placesFrom, toOp_byte]
            exact hprints
          · obtain rfl := Except.ok.inj ((Pending.operate_unknown _ hunknown).symm.trans hq)
            simp only [placesFrom, toOp_unknown hunknown]
            exact ih hrest hrun

/-! ### Lexemes of an input -/

/-- What is read and fits reads back as itself. -/
theorem nextLexeme_proper {inp rest : List UInt8} {l : Lexeme}
    (h : nextLexeme inp = some (l, rest)) (hl : l.Fits) : l.Proper := by
  unfold nextLexeme at h
  have hblank := List.head?_dropWhile_not isblank inp
  rcases e : inp.dropWhile isblank with _ | ⟨c, cs⟩
  · rw [e] at h
    cases h
  · rw [e] at h hblank
    have hrun : ∀ {isx : UInt8 → Bool}, isx c = true →
        ∀ d ∈ c :: cs.takeWhile isx, isx d = true := by
      intro isx hc
      exact List.forall_mem_cons.mpr ⟨hc, fun d hd => List.mem_takeWhile_imp hd⟩
    simp only at h
    split at h
    · cases h
    · rename_i heof
      split at h
      · rename_i halpha
        cases h
        exact ⟨List.cons_ne_nil _ _, hl, .inl (hrun halpha)⟩
      · rename_i halpha
        split at h
        · rename_i hdigit
          cases h
          exact ⟨List.cons_ne_nil _ _, hl, .inr (hrun hdigit)⟩
        · rename_i hdigit
          cases h
          exact ⟨hblank, Bool.eq_false_of_not_eq_true halpha, Bool.eq_false_of_not_eq_true hdigit,
            heof⟩

theorem lexemesUpTo_proper {n : ℕ} {inp : List UInt8} {l : Lexeme} (h : l ∈ lexemesUpTo n inp)
    (hl : l.Fits) : l.Proper := by
  induction n generalizing inp with
  | zero => exact absurd h List.not_mem_nil
  | succ n ih =>
      rw [lexemesUpTo] at h
      rcases e : nextLexeme inp with _ | ⟨l', rest⟩
      · rw [e] at h
        exact absurd h List.not_mem_nil
      · rw [e] at h
        rcases List.mem_cons.mp h with rfl | h
        · exact nextLexeme_proper e hl
        · exact ih h

/-- A run that returns 0 has read operands that fit. -/
theorem Pending.fits_of_run {p : Pending} {ls : List Lexeme} {out : List (List UInt8)}
    (hrun : p.run ls = some ⟨0, out⟩) : ∀ l ∈ ls, l.Fits := by
  induction ls generalizing p with
  | nil => exact fun l hl => absurd hl List.not_mem_nil
  | cons l ls ih =>
      obtain ⟨q, hq, hrest⟩ := run_cons hrun
      refine List.forall_mem_cons.mpr ⟨?_, ih hrest⟩
      by_contra hl
      rw [run, if_neg hl] at hrun
      cases hrun

/-- Where the program returns 0, all operands fit and all parentheses match. -/
theorem matched_of_run {ch : ℤ} {inp : List UInt8} {out : List (List UInt8)}
    (hrun : convert ch inp = some ⟨0, out⟩) :
    (∀ l ∈ lexemes inp, l.Fits) ∧ ¬ Jams ch (lexemes inp) ∧
      ¬ Unmatched (waitingOf ch) (lexemes inp) := by
  have hmatch : ¬ Mismatch ch (lexemes inp) := by
    rw [← errorExit_iff, hrun]
    rintro ⟨out', hout'⟩
    exact err_ne hout'.symm
  rw [convert_eq] at hrun
  have hfit := Pending.fits_of_run hrun
  have hjams : ¬ Jams ch (lexemes inp) := by
    intro hjams
    exact hmatch ⟨fun _ => hfit, fun hno => absurd hjams hno⟩
  refine ⟨hfit, hjams, fun hun => ?_⟩
  exact hmatch ⟨fun h => absurd h hjams, fun _ => hun⟩

/-- **The words and the marks of the line**, for any input. -/
theorem line_shape {ch : ℤ} {inp : List UInt8} {out : List (List UInt8)}
    (hrun : convert ch inp = some ⟨0, out⟩) :
    Shape isalnum out (operands (lexemes inp))
      (lineMarks (fun k => placesFrom ch k (lexemes inp)) (operands (lexemes inp))) := by
  obtain ⟨hfit, hjams, -⟩ := matched_of_run hrun
  rw [convert_eq] at hrun
  have hproper : ∀ l ∈ lexemes inp, l.Proper := fun l hl => lexemesUpTo_proper hl (hfit l hl)
  obtain ⟨tail, rfl, hshape⟩ := idle_shape (fun hch => hjams (.inl hch)) hproper hrun
  exact hshape

/-- **The words and the marks of the line** for an expression. -/
theorem convert_shape {e : Infix} (h : e.WellFormed) {text : List UInt8}
    (htext : Spells e.tokens text) {ch : ℤ} {out : List (List UInt8)}
    (hrun : convert ch text = some ⟨0, out⟩) :
    Shape isalnum out e.operands
      (lineMarks (fun k => placesFrom ch k e.tokens) e.operands) := by
  have hshape := line_shape hrun
  rw [Infix.lexemes_eq h htext, operands_tokens] at hshape
  exact hshape

/-! ### Correct conversions -/

theorem postfixForm_shape {e : Infix} (h : e.WellFormed) :
    Shape isalnum e.postfixForm e.operands fun k => e.marks k := by
  induction e with
  | operand w => exact .word h.1 (isalnum_operand h)
  | paren e ih => exact ih h
  | bin op l r ihl ihr =>
      have hop : ∀ c ∈ [op.byte], isalnum c = false := by
        intro c hc
        rw [List.mem_singleton.mp hc]
        exact isalnum_byte op
      have hshape := ((ihl h.1).append (ihr h.2.1)).append (.ofMarks hop)
      rw [List.append_nil] at hshape
      exact hshape

/-- **A correct conversion puts the operators where the expression has them.** -/
theorem placesFrom_of_converts {e : Infix} (h : e.WellFormed) {text : List UInt8}
    (htext : Spells e.tokens text) {ch : ℤ} (hconv : e.Converts ch) :
    placesFrom ch 0 e.tokens = e.marks 0 := by
  have hprinted := convert_shape h htext ((converts_iff h htext ch).mpr hconv)
  have hnewline : Prints e.postfixForm (e.postfixForm ++ [] ++ [bytes "\n"]) [] fun _ => [] :=
    .newline .nil
  have hline : Prints [] (e.postfixForm ++ [bytes "\n"]) (e.operands ++ []) _ :=
    .cons (postfixForm_shape h) (by rw [List.append_nil] at hnewline; exact hnewline)
  obtain ⟨tail, htail, hform⟩ := hline
  obtain rfl : e.postfixForm ++ [bytes "\n"] = tail := htail
  have hmarks := (hprinted.marks 0).symm.trans (hform.marks 0)
  simp only [lineMarks, List.append_nil] at hmarks
  exact List.append_cancel_right hmarks

/-! ### Two lines -/

/-- The operands of the two expressions have the same letters and digits,
divided into other operands, and the operators come behind the same of them. -/
def Collide (ch₁ ch₂ : ℤ) (e₁ e₂ : Infix) : Prop :=
  e₁.operands.flatten = e₂.operands.flatten ∧ e₁.operands ≠ e₂.operands ∧
    placesFrom ch₁ 0 e₁.tokens = placesFrom ch₂ 0 e₂.tokens

/-- **When equal lines are equal token sequences.** -/
theorem line_determines_tokens_iff {e₁ e₂ : Infix} (h₁ : e₁.WellFormed) (h₂ : e₂.WellFormed)
    {text₁ text₂ : List UInt8} (htext₁ : Spells e₁.tokens text₁) (htext₂ : Spells e₂.tokens text₂)
    {ch₁ ch₂ : ℤ} {out₁ out₂ : List (List UInt8)} (hrun₁ : convert ch₁ text₁ = some ⟨0, out₁⟩)
    (hrun₂ : convert ch₂ text₂ = some ⟨0, out₂⟩) :
    (out₁.flatten = out₂.flatten → out₁ = out₂) ↔ ¬ Collide ch₁ ch₂ e₁ e₂ := by
  have hshape₁ := convert_shape h₁ htext₁ hrun₁
  have hshape₂ := convert_shape h₂ htext₂ hrun₂
  rw [hshape₁.pieces_eq_iff hshape₂, Collide]
  apply not_congr
  apply and_congr_right
  intro hflatten
  apply and_congr_right
  intro _
  -- the newlines stand in the same place
  rw [lineMarks, lineMarks, hflatten]
  exact List.append_left_inj _

theorem spells_cons {l : Lexeme} {ls : List Lexeme} {text : List UInt8} (h : Spells ls text) :
    Spells (l :: ls) (l.text ++ text) :=
  .cons (b := []) (fun _ hc => absurd hc List.not_mem_nil) h

theorem spells_nil : Spells [] [] := .nil fun _ hc => absurd hc List.not_mem_nil

/-- `a+b` and `a*b`. -/
theorem line_determines_tokens_short :
    (List.flatten [bytes "a", bytes "b", bytes "+", bytes "\n"] =
        List.flatten [bytes "a", bytes "b", bytes "*", bytes "\n"] →
      [bytes "a", bytes "b", bytes "+", bytes "\n"] =
        [bytes "a", bytes "b", bytes "*", bytes "\n"]) ↔
    ¬ Collide 0 0 (.bin .add (.operand (bytes "a")) (.operand (bytes "b")))
      (.bin .mul (.operand (bytes "a")) (.operand (bytes "b"))) := by
  have ha : Infix.IsOperand (bytes "a") := isOperand_letter rfl
  have hb : Infix.IsOperand (bytes "b") := isOperand_letter rfl
  have hadd : Infix.WellFormed (.bin .add (.operand (bytes "a")) (.operand (bytes "b"))) :=
    ⟨ha, hb, by decide, by decide⟩
  have hmul : Infix.WellFormed (.bin .mul (.operand (bytes "a")) (.operand (bytes "b"))) :=
    ⟨ha, hb, by decide, by decide⟩
  have hrun₁ : convert 0 (bytes "a+b") =
      some ⟨0, [bytes "a", bytes "b", bytes "+", bytes "\n"]⟩ := by decide
  have hrun₂ : convert 0 (bytes "a*b") =
      some ⟨0, [bytes "a", bytes "b", bytes "*", bytes "\n"]⟩ := by decide
  exact line_determines_tokens_iff hadd hmul (spells_cons (spells_cons (spells_cons spells_nil)))
    (spells_cons (spells_cons (spells_cons spells_nil))) hrun₁ hrun₂

/-- `a+bc` and `ab+c` are printed as the same line. -/
theorem not_line_determines_tokens :
    ¬ (∀ (e₁ e₂ : Infix) (text₁ text₂ : List UInt8) (ch₁ ch₂ : ℤ) (out₁ out₂ : List (List UInt8)),
      e₁.WellFormed → e₂.WellFormed → Spells e₁.tokens text₁ → Spells e₂.tokens text₂ →
      convert ch₁ text₁ = some ⟨0, out₁⟩ → convert ch₂ text₂ = some ⟨0, out₂⟩ →
      out₁.flatten = out₂.flatten → out₁ = out₂) := by
  intro hevery
  have hletters : ∀ w : List UInt8, w ≠ [] → w.length ≤ 7 → w.all isalpha = true →
      Infix.IsOperand w :=
    fun w hne hle hall => ⟨hne, hle, .inl (List.all_eq_true.mp hall)⟩
  have hleft : Infix.WellFormed (.bin .add (.operand (bytes "a")) (.operand (bytes "bc"))) :=
    ⟨hletters _ (by decide) (by decide) rfl, hletters _ (by decide) (by decide) rfl, by decide,
      by decide⟩
  have hright : Infix.WellFormed (.bin .add (.operand (bytes "ab")) (.operand (bytes "c"))) :=
    ⟨hletters _ (by decide) (by decide) rfl, hletters _ (by decide) (by decide) rfl, by decide,
      by decide⟩
  have hrun₁ : convert 0 (bytes "a+bc") =
      some ⟨0, [bytes "a", bytes "bc", bytes "+", bytes "\n"]⟩ := by decide
  have hrun₂ : convert 0 (bytes "ab+c") =
      some ⟨0, [bytes "ab", bytes "c", bytes "+", bytes "\n"]⟩ := by decide
  have heq := hevery _ _ _ _ 0 0 _ _ hleft hright
    (spells_cons (spells_cons (spells_cons spells_nil)))
    (spells_cons (spells_cons (spells_cons spells_nil))) hrun₁ hrun₂ rfl
  exact absurd heq (by decide)

end ExpressionConvert

end CodeSnippet
