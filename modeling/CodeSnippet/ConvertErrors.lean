/-
CodeSnippet/ConvertErrors.lean

When the converter takes the error exit.  Until the first parenthesis or
operator the stack is empty (`errorExit_idle`).  An opening parenthesis then
jams the run, which is an error in the end.  An operator makes it busy, and
from there the stack is that of the textbook algorithm (`errorExit_busy`):
parentheses and operators that wait for their end, as far as there is room for
them.

Main results:
  * `errorExit_iff` — the exact condition for the error exit, for any input.
  * `conversion_iff` — both exact conditions.
-/
import CodeSnippet.ConvertCorrect

namespace CodeSnippet

open Memory ExpressionConvert

/-! ### What waits -/

/-- A pending operator, or an open parenthesis. -/
abbrev Waiting := Option Op

/-- What stays on the stack under an operator. -/
def Op.under (op : Op) : Waiting → Bool
  | none => true
  | some op' => op'.prec < op.prec

theorem Op.byte_ne_open (op : Op) : op.byte ≠ chr '(' := by
  cases op <;> decide

theorem Op.byte_ne_close (op : Op) : op.byte ≠ chr ')' := by
  cases op <;> decide

/-- The entry on the stack. -/
def Waiting.code : Waiting → ℤ
  | none => CodeSnippet.code '('
  | some op => op.code

namespace ExpressionConvert

/-- The operator that a character stands for. -/
def toOp (c : UInt8) : Option Op :=
  if c = chr '+' then some .add else if c = chr '-' then some .sub
  else if c = chr '*' then some .mul else if c = chr '/' then some .div else none

/-- Reading on with `waiting` on a stack of 16 entries, a parenthesis is closed
that is not open, or left open at the end, and all operands before that fit. -/
def Unmatched : List Waiting → List Lexeme → Prop
  | waiting, [] => none ∈ waiting
  | waiting, .operand w :: ls => w.length ≤ 7 ∧ Unmatched waiting ls
  | waiting, .oper c :: ls =>
      if c = chr '(' then Unmatched (pushTo 16 waiting none) ls
      else if c = chr ')' then
        none ∉ waiting ∨ Unmatched (waiting.dropWhile (·.isSome)).tail ls
      else
        match toOp c with
        | some op => Unmatched (pushTo 16 (waiting.dropWhile (!op.under ·)) (some op)) ls
        | none => Unmatched waiting ls

/-- The first parenthesis or operator is an opening parenthesis. -/
def OpensFirst : List Lexeme → Prop
  | [] => False
  | .operand _ :: ls => OpensFirst ls
  | .oper c :: ls => c = chr '(' ∨ (¬ IsKnown c ∧ OpensFirst ls)

/-- What an initial `ch` passes for. -/
def waitingOf (ch : ℤ) : List Waiting :=
  if ch = code '+' then [some .add] else if ch = code '-' then [some .sub] else []

/-- A parenthesis gets to the bottom of the stack, or seems to. -/
def Jams (ch : ℤ) (ls : List Lexeme) : Prop := ch = code '(' ∨ OpensFirst ls

/-- The condition for the error exit. -/
def Mismatch (ch : ℤ) (ls : List Lexeme) : Prop :=
  (Jams ch ls → ∀ l ∈ ls, l.Fits) ∧ (¬ Jams ch ls → Unmatched (waitingOf ch) ls)

/-! ### Busy runs -/

theorem stop_waiting (op : Op) (m : Waiting) : op.stop (Waiting.code m) = op.under m := by
  cases m with
  | none => exact op.stop_paren
  | some op' => cases op <;> cases op' <;> rfl

theorem isParen_waiting (m : Waiting) : isParen (Waiting.code m) = !m.isSome := by
  cases m with
  | none => rfl
  | some op => exact op.isParen_code

theorem paren_mem_waiting {waiting : List Waiting} :
    code '(' ∈ waiting.map Waiting.code ↔ none ∈ waiting := by
  rw [List.mem_map]
  constructor
  · rintro ⟨m, hm, hcode⟩
    cases m with
    | none => exact hm
    | some op => exact absurd hcode op.code_ne_paren
  · intro hm
    exact ⟨none, hm, rfl⟩

theorem map_pushTo (max : ℕ) (waiting : List Waiting) (m : Waiting) :
    (pushTo max waiting m).map Waiting.code =
      pushTo max (waiting.map Waiting.code) (Waiting.code m) := by
  unfold pushTo
  rw [List.length_map]
  split
  · rfl
  · rfl

/-- What popping for an operator leaves on the stack. -/
theorem dropWhile_under (op : Op) (waiting : List Waiting) :
    (waiting.map Waiting.code).dropWhile (fun x => !op.stop x) =
      (waiting.dropWhile (!op.under ·)).map Waiting.code := by
  rw [List.dropWhile_map]
  congr 2
  funext m
  rw [Function.comp_apply, stop_waiting]

/-- What popping for a closing parenthesis leaves. -/
theorem dropWhile_isSome (waiting : List Waiting) :
    (waiting.map Waiting.code).dropWhile (fun x => !isParen x) =
      (waiting.dropWhile (·.isSome)).map Waiting.code := by
  rw [List.dropWhile_map]
  congr 2
  funext m
  rw [Function.comp_apply, isParen_waiting, Bool.not_not]

theorem toOp_byte (op : Op) : toOp op.byte = some op := by
  cases op <;> rfl

theorem toOp_unknown {c : UInt8} (h : ¬ IsKnown c) : toOp c = none := by
  unfold toOp
  rw [if_neg, if_neg, if_neg, if_neg]
  · exact fun e => h (.inr (.inr ⟨.div, e⟩))
  · exact fun e => h (.inr (.inr ⟨.mul, e⟩))
  · exact fun e => h (.inr (.inr ⟨.sub, e⟩))
  · exact fun e => h (.inr (.inr ⟨.add, e⟩))

/-- Behind what does not stop the popping comes the first entry that does. -/
theorem dropWhile_eq {stop : ℤ → Bool} {pre rest : List ℤ} {c : ℤ}
    (hpre : ∀ x ∈ pre, stop x = false) (hc : stop c = true) :
    (pre ++ c :: rest).dropWhile (fun x => !stop x) = c :: rest := by
  rw [List.dropWhile_append_of_pos fun x hx => by rw [hpre x hx]; rfl,
    List.dropWhile_cons_of_neg (by rw [hc]; exact Bool.false_ne_true)]

theorem dropWhile_eq_nil {stop : ℤ → Bool} {l : List ℤ} (hl : ∀ x ∈ l, stop x = false) :
    l.dropWhile (fun x => !stop x) = [] :=
  List.dropWhile_eq_nil_iff.mpr fun x hx => by rw [hl x hx]; rfl

/-- An operator on a busy stack takes the place of what does not stop it. -/
theorem Pending.Busy.binary_stack {p : Pending} (h : p.Busy) (op : Op) :
    (p.binary op).stack = pushTo 16 (p.stack.dropWhile fun x => !op.stop x) op.code := by
  rcases h.binary_cases op with ⟨pre, c, rest, hsplit, hpre, hc, hbinary⟩ | ⟨hall, hbinary⟩
  · rw [hbinary, hsplit, dropWhile_eq hpre hc]
  · rw [hbinary, dropWhile_eq_nil hall]
    rfl

/-- A closing parenthesis on a busy stack. -/
theorem Pending.Busy.close_stack {p : Pending} (h : p.Busy) :
    (code '(' ∈ p.stack ∧ ∃ q, p.operate (chr ')') = .ok q ∧
      q.stack = (p.stack.dropWhile fun x => !isParen x).tail) ∨
    (code '(' ∉ p.stack ∧ ∃ q, p.operate (chr ')') = .error q) := by
  rcases h.close_cases with ⟨pre, rest, hsplit, hpre, -, hok⟩ | ⟨hall, herr⟩
  · refine .inl ⟨?_, _, hok, ?_⟩
    · rw [hsplit]
      exact List.mem_append_right _ (List.mem_cons_self ..)
    · rw [hsplit, dropWhile_eq hpre (isParen_iff.mpr rfl)]
      rfl
  · refine .inr ⟨fun hmem => ?_, herr⟩
    have hno := hall _ hmem
    rw [isParen_iff.mpr rfl] at hno
    cases hno

/-- **A busy run follows the textbook.** -/
theorem errorExit_busy {p : Pending} (h : p.Busy) {waiting : List Waiting}
    (hstack : p.stack = waiting.map Waiting.code) (ls : List Lexeme) :
    (∃ out, p.run ls = some (err out)) ↔ Unmatched waiting ls := by
  induction ls generalizing p waiting with
  | nil =>
      have hopened : 0 < p.opened ↔ none ∈ waiting := by
        rw [Pending.opened, hstack, List.count_pos_iff, paren_mem_waiting]
      rw [Unmatched, ← hopened, Pending.run]
      rcases h.finish with ⟨hpos, out, hout⟩ | ⟨hzero, hok⟩
      · rw [hout]
        exact iff_of_true ⟨out, rfl⟩ hpos
      · rw [hok]
        refine iff_of_false ?_ (by omega)
        rintro ⟨out, hout⟩
        exact err_ne hout.symm
  | cons l ls ih =>
      -- a step that succeeds, on a stack that corresponds
      have hnext : ∀ {q : Pending} {waiting' : List Waiting}, l.Fits → p.step l = .ok q →
          q.stack = waiting'.map Waiting.code →
          ((∃ out, p.run (l :: ls) = some (err out)) ↔ Unmatched waiting' ls) := by
        intro q waiting' hfit hq hstack'
        rw [Pending.run, if_pos hfit, hq]
        exact ih (h.step hq).1 hstack'
      cases l with
      | operand w =>
          by_cases hfit : w.length ≤ 7
          · rw [Unmatched, and_iff_right hfit]
            exact hnext hfit rfl hstack
          · rw [Unmatched, Pending.run, if_neg (show ¬ (Lexeme.operand w).Fits from hfit)]
            refine iff_of_false ?_ fun hun => hfit hun.1
            rintro ⟨out, hout⟩
            cases hout
      | oper c =>
          rw [Unmatched]
          rcases known_cases c with rfl | rfl | ⟨op, rfl⟩ | hunknown
          · rw [if_pos rfl]
            apply hnext trivial (Pending.operate_open p)
            show pushTo 16 p.stack (code '(') = _
            rw [map_pushTo, hstack]
            rfl
          · rw [if_neg (by decide), if_pos rfl, ← paren_mem_waiting, ← hstack]
            rcases h.close_stack with ⟨hmem, q, hq, htail⟩ | ⟨hmem, q, herr⟩
            · rw [or_iff_right (not_not_intro hmem)]
              apply hnext trivial hq
              rw [htail, hstack, dropWhile_isSome, List.map_tail]
            · rw [or_iff_left_of_imp fun _ => hmem, iff_true_right hmem, Pending.run,
                if_pos (show (Lexeme.oper (chr ')')).Fits from trivial)]
              have herr : p.step (.oper (chr ')')) = .error q := herr
              rw [herr]
              exact ⟨q.out, rfl⟩
          · rw [if_neg op.byte_ne_open, if_neg op.byte_ne_close, toOp_byte]
            apply hnext trivial (Pending.operate_op p op)
            rw [h.binary_stack, map_pushTo, hstack, dropWhile_under]
            rfl
          · rw [if_neg fun e => hunknown (.inl e), if_neg fun e => hunknown (.inr (.inl e)),
              toOp_unknown hunknown]
            exact hnext trivial (Pending.operate_unknown p hunknown) hstack

/-! ### Jammed runs -/

/-- A jammed run ends at the error exit exactly if all operands fit. -/
theorem errorExit_jammed {p : Pending} (h : p.Jammed) (ls : List Lexeme) :
    (∃ out, p.run ls = some (err out)) ↔ ∀ l ∈ ls, l.Fits := by
  constructor
  · intro hrun
    induction ls generalizing p with
    | nil => exact fun l hl => absurd hl List.not_mem_nil
    | cons l ls ih =>
        by_cases hfit : l.Fits
        · obtain ⟨q, hq, hjam⟩ := h.step l
          rw [Pending.run, if_pos hfit, hq] at hrun
          exact List.forall_mem_cons.mpr ⟨hfit, ih hjam hrun⟩
        · obtain ⟨out, hout⟩ := hrun
          rw [Pending.run, if_neg hfit] at hout
          cases hout
  · exact h.run

/-! ### Idle runs -/

/-- An operator on the empty stack. -/
theorem binary_idle {ch : ℤ} (hch : ch ≠ code '(') (op : Op) (out : List (List UInt8)) :
    (Pending.binary ⟨[], ch, out⟩ op).Busy ∧ (Pending.binary ⟨[], ch, out⟩ op).stack =
      (pushTo 16 ((waitingOf ch).dropWhile (!op.under ·)) (some op)).map Waiting.code := by
  rcases hstop : op.stop ch with _ | _
  · have hbinary : Pending.binary ⟨[], ch, out⟩ op = ⟨[op.code], ch, out ++ printed []⟩ :=
      Pending.binary_all (fun x hx => absurd hx List.not_mem_nil) hstop
    rw [hbinary]
    refine ⟨⟨⟨op, rfl⟩, Nat.le_of_ble_eq_true rfl⟩, ?_⟩
    unfold waitingOf
    split
    · rename_i hadd
      rw [hadd] at hstop
      have hunder : op.under (some .add) = false := (stop_waiting op (some .add)).symm.trans hstop
      rw [List.dropWhile_cons_of_pos (by rw [hunder]; rfl)]
      rfl
    · split
      · rename_i hsub
        rw [hsub] at hstop
        have hunder : op.under (some .sub) = false := (stop_waiting op (some .sub)).symm.trans hstop
        rw [List.dropWhile_cons_of_pos (by rw [hunder]; rfl)]
        rfl
      · rfl
  · obtain ⟨-, low, hlow, rfl⟩ := Infix.low_of_stop hch hstop
    have hbinary : Pending.binary ⟨[], low.code, out⟩ op = ⟨[op.code, low.code], low.code, out⟩ := by
      rw [Pending.binary, Pending.popWhileNot, popEntries]
      simp only [hstop, if_true]
      rfl
    have hwaiting : waitingOf low.code = [some low] := by
      cases low with
      | add | sub => rfl
      | mul | div => cases hlow
    rw [hbinary, hwaiting]
    refine ⟨⟨⟨low, rfl⟩, Nat.le_of_ble_eq_true rfl⟩, ?_⟩
    have hunder : op.under (some low) = true := (stop_waiting op (some low)).symm.trans hstop
    rw [List.dropWhile_cons_of_neg (by rw [hunder]; exact Bool.false_ne_true)]
    rfl

theorem none_notMem_waitingOf (ch : ℤ) : none ∉ waitingOf ch := by
  unfold waitingOf
  split
  · simp
  · split
    · simp
    · exact List.not_mem_nil

/-- **A run with nothing on the stack.** -/
theorem errorExit_idle {ch : ℤ} (hch : ch ≠ code '(') (out : List (List UInt8))
    (ls : List Lexeme) :
    (∃ out', Pending.run ⟨[], ch, out⟩ ls = some (err out')) ↔
      (OpensFirst ls → ∀ l ∈ ls, l.Fits) ∧ (¬ OpensFirst ls → Unmatched (waitingOf ch) ls) := by
  induction ls generalizing out with
  | nil =>
      have hfinish : Pending.finish ⟨[], ch, out⟩ = ⟨0, out ++ [bytes "\n"]⟩ := if_neg hch
      rw [Pending.run, hfinish]
      refine iff_of_false ?_ fun hcond => none_notMem_waitingOf ch (hcond.2 id)
      rintro ⟨out', hout⟩
      exact err_ne hout.symm
  | cons l ls ih =>
      cases l with
      | operand w =>
          rw [OpensFirst, Unmatched, Pending.run]
          by_cases hfit : w.length ≤ 7
          · rw [if_pos (show (Lexeme.operand w).Fits from hfit), and_iff_right hfit,
              List.forall_mem_cons, and_iff_right (show (Lexeme.operand w).Fits from hfit)]
            exact ih (out ++ [w])
          · rw [if_neg (show ¬ (Lexeme.operand w).Fits from hfit)]
            refine iff_of_false ?_ fun hcond => ?_
            · rintro ⟨out', hout⟩
              cases hout
            · by_cases hopens : OpensFirst ls
              · exact hfit (hcond.1 hopens _ (List.mem_cons_self ..))
              · exact hfit (hcond.2 hopens).1
      | oper c =>
          have hfit : (Lexeme.oper c).Fits := trivial
          rw [OpensFirst, Unmatched, Pending.run, if_pos hfit, List.forall_mem_cons,
            and_iff_right hfit]
          rcases known_cases c with rfl | rfl | ⟨op, rfl⟩ | hunknown
          · rw [or_iff_left_of_imp fun _ => rfl]
            have hjam : Pending.Jammed ⟨[code '('], ch, out⟩ :=
              ⟨.inr rfl, Nat.le_of_ble_eq_true rfl⟩
            apply (errorExit_jammed hjam ls).trans
            exact ⟨fun hall => ⟨fun _ => hall, fun hno => absurd rfl hno⟩, fun hcond => hcond.1 rfl⟩
          · have herr : Pending.step ⟨[], ch, out⟩ (.oper (chr ')')) = .error ⟨[], ch, out⟩ := by
              show Pending.operate (chr ')') _ = _
              rw [Pending.operate_close]
              exact if_neg hch
            rw [herr, if_neg (by decide), if_pos rfl]
            refine iff_of_true ⟨out, rfl⟩ ⟨?_, fun _ => .inl (none_notMem_waitingOf ch)⟩
            rintro (heq | ⟨hunknown, -⟩)
            · exact absurd heq (by decide)
            · exact absurd (.inr (.inl rfl)) hunknown
          · have hopens : ¬ (op.byte = chr '(' ∨ ¬ IsKnown op.byte ∧ OpensFirst ls) := by
              rintro (heq | ⟨hunknown, -⟩)
              · exact op.byte_ne_open heq
              · exact hunknown (.inr (.inr ⟨op, rfl⟩))
            obtain ⟨hbusy, hstack⟩ := binary_idle hch op out
            have hstep : Pending.step ⟨[], ch, out⟩ (.oper op.byte) =
                .ok (Pending.binary ⟨[], ch, out⟩ op) := Pending.operate_op _ op
            rw [hstep, if_neg op.byte_ne_open, if_neg op.byte_ne_close, toOp_byte]
            apply (errorExit_busy hbusy hstack ls).trans
            exact ⟨fun hun => ⟨fun h => absurd h hopens, fun _ => hun⟩, fun hcond => hcond.2 hopens⟩
          · have hopens : (c = chr '(' ∨ ¬ IsKnown c ∧ OpensFirst ls) ↔ OpensFirst ls :=
              ⟨fun h => h.elim (fun e => absurd (.inl e) hunknown) And.right,
                fun h => .inr ⟨hunknown, h⟩⟩
            have hstep : Pending.step ⟨[], ch, out⟩ (.oper c) = .ok ⟨[], ch, out⟩ :=
              Pending.operate_unknown _ hunknown
            rw [hstep, hopens, if_neg fun e => hunknown (.inl e),
              if_neg fun e => hunknown (.inr (.inl e)), toOp_unknown hunknown]
            exact ih out

/-- **The exact condition for the error exit.** -/
theorem errorExit_iff (ch : ℤ) (text : List UInt8) :
    (∃ out, convert ch text = some (err out)) ↔ Mismatch ch (lexemes text) := by
  rw [convert_eq, Mismatch, Jams]
  by_cases hch : ch = code '('
  · rw [errorExit_jammed ⟨.inl ⟨rfl, hch⟩, Nat.zero_le _⟩]
    exact ⟨fun hall => ⟨fun _ => hall, fun hno => absurd (.inl hch) hno⟩,
      fun hcond => hcond.1 (.inl hch)⟩
  · rw [errorExit_idle hch, or_iff_right hch]

/-! ### The end of the line -/

/-- An input that spells the lexemes, with or without a newline at its end. -/
def SpellsLine (ls : List Lexeme) (inp : List UInt8) : Prop :=
  Spells ls inp ∨ ∃ text, Spells ls text ∧ inp = text ++ [chr '\n']

theorem Spells.concat {ls : List Lexeme} {text : List UInt8} (h : Spells ls text) (l : Lexeme) :
    Spells (ls ++ [l]) (text ++ l.text) := by
  induction h with
  | @nil b hb =>
      have hend : Spells [] [] := .nil (by simp)
      have hspells := Spells.cons (l := l) hb hend
      rwa [List.append_nil] at hspells
  | @cons b l' ls text hb _ ih =>
      have hspells := Spells.cons (l := l') hb ih
      rwa [← List.append_assoc (Lexeme.text l'), ← List.append_assoc b] at hspells

theorem not_isKnown_newline : ¬ IsKnown (chr '\n') := by
  rintro (h | h | ⟨op, h⟩)
  · exact absurd h (by decide)
  · exact absurd h (by decide)
  · cases op <;> exact absurd h (by decide)

/-- The newline is an unknown operator, which changes nothing. -/
theorem convert_newline {e : Infix} (h : e.WellFormed) {text : List UInt8}
    (htext : Spells e.tokens text) (ch : ℤ) : convert ch (text ++ [chr '\n']) = convert ch text := by
  have hproper : ∀ l ∈ e.tokens ++ [Lexeme.oper (chr '\n')], l.Proper := by
    intro l hl
    rcases List.mem_append.mp hl with hl | hl
    · exact Infix.tokens_proper h l hl
    · obtain rfl := List.mem_singleton.mp hl
      exact ⟨rfl, rfl, rfl, by decide⟩
  have hlexemes : lexemes (text ++ [chr '\n']) = e.tokens ++ [.oper (chr '\n')] :=
    lexemes_of_spells (htext.concat (.oper (chr '\n'))) hproper
      (Infix.isChain_append_oper _ e.tokens_apart List.isChain_nil)
  have hfit := Infix.tokens_fit h
  have hfit' : ∀ l ∈ e.tokens ++ [Lexeme.oper (chr '\n')], l.Fits := by
    intro l hl
    rcases List.mem_append.mp hl with hl | hl
    · exact hfit l hl
    · obtain rfl := List.mem_singleton.mp hl
      exact trivial
  rw [convert_eq, convert_eq, hlexemes, Infix.lexemes_eq h htext, Pending.run_eq hfit',
    Pending.run_eq hfit, Pending.steps_append]
  rcases Pending.steps ⟨[], ch, []⟩ e.tokens with q | q
  · rfl
  · have hstep : q.steps [.oper (chr '\n')] = .ok q := by
      rw [Pending.steps, Pending.step, q.operate_unknown not_isKnown_newline]
      rfl
    simp only [Except.bind, hstep]

/-! ### Both conditions -/

/-- The parentheses of a text balance, where `n` are open. -/
def balanced : ℕ → List UInt8 → Bool
  | n, [] => n == 0
  | n, c :: cs =>
      if c = chr '(' then balanced (n + 1) cs
      else if c = chr ')' then n != 0 && balanced (n - 1) cs
      else balanced n cs

/-- The program returns 0 and prints the postfix form, one token after the
other. -/
def PrintsPostfix (e : Infix) (ch : ℤ) (text : List UInt8) : Prop :=
  convert ch text = some ⟨0, e.postfixForm ++ [bytes "\n"]⟩

/-- The program takes the error exit. -/
def TakesErrorExit (ch : ℤ) (text : List UInt8) : Prop := ∃ out, convert ch text = some (err out)

/-- **When the conversion is correct**: for an expression, with or without a newline
behind it, and for an input whose parentheses do not balance. -/
theorem conversion_iff (ch : ℤ) (text : List UInt8) :
    (∀ e : Infix, e.WellFormed → SpellsLine e.tokens text →
      (PrintsPostfix e ch text ↔ e.Converts ch)) ∧
    (balanced 0 text = false → (TakesErrorExit ch text ↔ Mismatch ch (lexemes text))) := by
  refine ⟨fun e h htext => ?_, fun _ => errorExit_iff ch text⟩
  rcases htext with htext | ⟨line, htext, rfl⟩
  · exact converts_iff h htext ch
  · rw [PrintsPostfix, convert_newline h htext]
    exact converts_iff h htext ch

theorem isOperand_letter {c : UInt8} (h : isalpha c = true) : Infix.IsOperand [c] := by
  refine ⟨List.cons_ne_nil _ _, Nat.le_of_ble_eq_true rfl, .inl fun d hd => ?_⟩
  obtain rfl := List.mem_singleton.mp hd
  exact h

/-- `a+b` with a newline and `(a`, with `ch` at 0. -/
theorem conversion_iff_short :
    (PrintsPostfix (.bin .add (.operand (bytes "a")) (.operand (bytes "b"))) 0 (bytes "a+b\n") ↔
      Infix.Converts (.bin .add (.operand (bytes "a")) (.operand (bytes "b"))) 0) ∧
    (TakesErrorExit 0 (bytes "(a") ↔ Mismatch 0 (lexemes (bytes "(a"))) := by
  have ha : Infix.IsOperand (bytes "a") := isOperand_letter rfl
  have hb : Infix.IsOperand (bytes "b") := isOperand_letter rfl
  constructor
  · refine (conversion_iff 0 _).1 _ ⟨ha, hb, by decide, by decide⟩ (.inr ⟨bytes "a+b", ?_, rfl⟩)
    exact .cons (b := []) (by simp) (.cons (b := []) (by simp) (.cons (b := []) (by simp)
      (.nil (b := []) (by simp))))
  · exact (conversion_iff 0 _).2 (by decide)

/-- An expression that starts with a parenthesis takes the error exit, and with
16 open parentheses behind an operator one of them is lost. -/
theorem not_conversion :
    ¬ ((∀ (e : Infix) (text : List UInt8) (ch : ℤ), e.WellFormed → SpellsLine e.tokens text →
        PrintsPostfix e ch text) ∧
      (∀ (text : List UInt8) (ch : ℤ), balanced 0 text = false → TakesErrorExit ch text)) ∧
    convert 0 (bytes "(a)") = some ⟨-1, [bytes "a", bytes "Error!\n"]⟩ ∧
    balanced 0 (bytes "a+((((((((((((((((b)))))))))))))))") = false ∧
    convert 0 (bytes "a+((((((((((((((((b)))))))))))))))") =
      some ⟨0, [bytes "a", bytes "b", bytes "+", bytes "\n"]⟩ := by
  have hparen : convert 0 (bytes "(a)") = some ⟨-1, [bytes "a", bytes "Error!\n"]⟩ := by decide
  refine ⟨fun hevery => ?_, hparen, by decide +kernel, by decide +kernel⟩
  have ha : Infix.WellFormed (.paren (.operand (bytes "a"))) := isOperand_letter rfl
  have hprints := hevery.1 (.paren (.operand (bytes "a"))) (bytes "(a)") 0 ha
    (.inl (.cons (b := []) (by simp) (.cons (b := []) (by simp) (.cons (b := []) (by simp)
      (.nil (b := []) (by simp))))))
  have hret := congrArg Exit.ret (Option.some.inj (hparen.symm.trans hprints))
  exact absurd (show (-1 : ℤ) = 0 from hret) (by decide)

end ExpressionConvert

end CodeSnippet
