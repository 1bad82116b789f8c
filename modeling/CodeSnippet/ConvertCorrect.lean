/-
CodeSnippet/ConvertCorrect.lean

When the converter is right.  For an expression that starts with an operand,
with an initial `ch` that does not look like an entry to push back, and with
room on the stack, it is; every other expression fails in one of three ways: the
run is jammed, an operator that was never read is printed, or an entry is lost
for want of room.

Main results:
  * `converts_iff` — the exact condition for an expression.
  * `errorExit_iff` — the exact condition for the error exit on any input.
-/
import CodeSnippet.ConvertRun

namespace CodeSnippet

open Memory ExpressionConvert

namespace Infix

/-! ### The condition -/

/-- The first token is a parenthesis. -/
def startsParen : Infix → Bool
  | operand _ => false
  | paren _ => true
  | bin _ l _ => l.startsParen

/-- The first operator outside of parentheses. -/
def firstOp : Infix → Option Op
  | operand _ | paren _ => none
  | bin op l _ => some (l.firstOp.getD op)

/-- The expression starts with an operand, what `ch` holds at the start is no
parenthesis, nor `+` or `-` where `*` or `/` is the first operator, and the 16
entries of the stack are enough. -/
structure Converts (e : Infix) (ch : ℤ) : Prop where
  start : e.startsParen = false
  ch_paren : ch ≠ code '('
  ch_first : ∀ op, e.firstOp = some op → op.prec = 1 → ch ≠ code '+' ∧ ch ≠ code '-'
  need : e.need ≤ 16

/-- An operator that takes `ch` for an entry to push back is one of those that
the condition excludes. -/
theorem low_of_stop {ch : ℤ} (hparen : ch ≠ code '(') {op : Op} (hop : op.stop ch = true) :
    op.prec = 1 ∧ ∃ low : Op, low.prec = 0 ∧ ch = low.code := by
  rcases Op.eq_of_stop hop with rfl | ⟨low, hlow, rfl⟩
  · exact absurd rfl hparen
  · have hle : op.prec ≤ 1 := by cases op <;> decide
    exact ⟨by omega, low, by omega, rfl⟩

theorem Converts.stop {e : Infix} {ch : ℤ} (hparen : ch ≠ code '(')
    (hfirst : ∀ op, e.firstOp = some op → op.prec = 1 → ch ≠ code '+' ∧ ch ≠ code '-')
    {op : Op} (hop : e.firstOp = some op) : op.stop ch = false := by
  by_contra hstop
  obtain ⟨hprec, low, hlow, rfl⟩ := low_of_stop hparen (Bool.of_not_eq_false hstop)
  obtain ⟨hadd, hsub⟩ := hfirst op hop hprec
  cases low with
  | add => exact hadd rfl
  | sub => exact hsub rfl
  | mul | div => cases hlow

/-! ### Tokens -/

theorem pend_bin_ne_nil (op : Op) (l r : Infix) : (bin op l r).pend ≠ [] :=
  List.append_ne_nil_of_right_ne_nil _ (List.cons_ne_nil _ _)

/-- The first operator of the left operand is that of the whole. -/
theorem firstOp_left {op op' : Op} {l : Infix} (h : l.firstOp = some op') (r : Infix) :
    (bin op l r).firstOp = some op' := by
  rw [firstOp, h, Option.getD_some]

/-- Without one the operator itself is the first. -/
theorem firstOp_of_pend {l : Infix} (h : l.pend = []) (op : Op) (r : Infix) :
    (bin op l r).firstOp = some op := by
  cases l with
  | operand w => rfl
  | paren e => rfl
  | bin op' l' r' => exact absurd h (pend_bin_ne_nil op' l' r')

theorem gains_append (ls ls' : List Lexeme) : gains (ls ++ ls') = gains ls + gains ls' := by
  rw [gains, List.map_append, List.sum_append]
  rfl

theorem gains_cons (l : Lexeme) (ls : List Lexeme) : gains (l :: ls) = l.gain + gains ls := by
  rw [gains, List.map_cons, List.sum_cons]
  rfl

theorem opensOf_append (ls ls' : List Lexeme) : opensOf (ls ++ ls') = opensOf ls + opensOf ls' := by
  rw [opensOf, List.map_append, List.sum_append]
  rfl

theorem opensOf_cons (l : Lexeme) (ls : List Lexeme) :
    opensOf (l :: ls) = l.opens + opensOf ls := by
  rw [opensOf, List.map_cons, List.sum_cons]
  rfl

/-- The tokens of an expression add the tokens of its postfix form. -/
theorem gains_tokens (e : Infix) : gains e.tokens = e.postfixForm.length := by
  induction e with
  | operand w => rfl
  | paren e ih =>
      rw [tokens, List.cons_append, gains_cons, gains_append, ih, postfixForm]
      show 1 + (_ + -1) = _
      omega
  | bin op l r ihl ihr =>
      rw [tokens, gains_append, gains_cons, ihl, ihr, Lexeme.gain_op, postfixForm,
        List.length_append, List.length_append, List.length_singleton]
      omega

/-- Their parentheses are balanced. -/
theorem opensOf_tokens (e : Infix) : opensOf e.tokens = 0 := by
  induction e with
  | operand w => rfl
  | paren e ih =>
      rw [tokens, List.cons_append, opensOf_cons, opensOf_append, ih]
      rfl
  | bin op l r ihl ihr =>
      rw [tokens, opensOf_append, opensOf_cons, ihl, ihr, Lexeme.opens_op]
      rfl

theorem tokens_fit {e : Infix} (h : e.WellFormed) : ∀ l ∈ e.tokens, l.Fits := by
  intro l hl
  have hproper := tokens_proper h l hl
  cases l with
  | operand w => exact hproper.2.1
  | oper c => trivial

theorem tokens_of_startsParen {e : Infix} (h : e.startsParen = true) :
    ∃ ls, e.tokens = .oper (chr '(') :: ls := by
  induction e with
  | operand w => cases h
  | paren e _ => exact ⟨_, rfl⟩
  | bin op l r ihl _ =>
      obtain ⟨ls, hls⟩ := ihl h
      refine ⟨ls ++ .oper op.byte :: r.tokens, ?_⟩
      rw [tokens, hls, List.cons_append]

/-- A postfix form starts with an operand. -/
theorem postfixForm_head {e : Infix} (h : e.WellFormed) :
    ∃ w rest, e.postfixForm = w :: rest ∧ IsOperand w := by
  induction e with
  | operand w => exact ⟨w, [], rfl, h⟩
  | paren e ih => exact ih h
  | bin op l r ihl _ =>
      obtain ⟨w, rest, hrest, hw⟩ := ihl h.1
      refine ⟨w, rest ++ r.postfixForm ++ [[op.byte]], ?_, hw⟩
      rw [postfixForm, hrest, List.cons_append, List.cons_append]

theorem byte_ne_operand {w : List UInt8} (h : IsOperand w) (op : Op) : w ≠ [op.byte] := by
  rintro rfl
  rcases h.2.2 with halpha | hdigit
  · have := halpha op.byte (List.mem_singleton_self _)
    cases op <;> exact absurd this (by decide)
  · have := hdigit op.byte (List.mem_singleton_self _)
    cases op <;> exact absurd this (by decide)

end Infix

namespace ExpressionConvert

/-! ### Entries that are lost -/

theorem length_pend (e : Infix) :
    e.emit.length + e.pendCodes.length = e.postfixForm.length := by
  rw [e.postfixForm_eq, List.length_append, List.length_map, Infix.pendCodes, List.length_map]

/-- **Without room an entry is lost**: the run ends in an error, or with less
printed and queued than was read. -/
theorem steps_overflow {e : Infix} (h : e.WellFormed) {p q : Pending} (hbusy : p.Busy)
    (hstops : e.Stops p.stack) (hover : 16 < p.stack.length + e.need)
    (hq : p.steps e.tokens = .ok q) : (q.size : ℤ) < p.size + e.postfixForm.length := by
  induction e generalizing p q with
  | operand w =>
      have hle := hbusy.le
      rw [Infix.need] at hover
      omega
  | paren e ih =>
      rw [Infix.need] at hover
      obtain ⟨p₁, p₂, h₁, h₂, hq⟩ := Pending.steps_paren_iff.mp hq
      obtain ⟨hbusy₁, -⟩ := hbusy.step h₁
      obtain ⟨hbusy₂, hsize₂, -⟩ := hbusy₁.steps h₂
      obtain ⟨-, hsize, -⟩ := hbusy₂.step hq
      rw [Infix.gains_tokens] at hsize₂
      rw [Lexeme.gain_close] at hsize
      show (q.size : ℤ) < p.size + e.postfixForm.length
      have h₁ : Except.ok (p.push (code '(')) = Except.ok p₁ := h₁
      obtain rfl := Except.ok.inj h₁
      by_cases hroom : p.stack.length < 16
      · have hpush : p.push (code '(') = ⟨code '(' :: p.stack, p.ch, p.out⟩ := by
          rw [Pending.push, pushTo, if_pos hroom]
        have hsize₁ : (p.push (code '(')).size = p.size + 1 := by rw [hpush]; rfl
        have hlt := ih h hbusy₁ (by rw [hpush]; exact e.stops_open p.stack) (by
          rw [hpush, List.length_cons]; omega) h₂
        omega
      · -- the parenthesis is lost
        have hpush : p.push (code '(') = p := by
          rw [Pending.push, pushTo, if_neg hroom]
        rw [hpush] at hsize₂
        omega
  | bin op l r ihl ihr =>
      obtain ⟨hl, hr, hopl, hopr⟩ := h
      have hstopsl : l.Stops p.stack := hstops.mono hopl
      obtain ⟨c, rest, hstack, hc⟩ := hstops
      have hstop := Infix.Stops.stop hc
      have hle := hbusy.le
      have hlen : p.stack.length = rest.length + 1 := by rw [hstack, List.length_cons]
      rw [Infix.need] at hover
      obtain ⟨p₁, p₂, h₁, h₂, hq⟩ := Pending.steps_bin_iff.mp hq
      obtain ⟨hbusy₁, -⟩ := hbusy.steps h₁
      obtain ⟨hbusy₂, hsize₂, -⟩ := hbusy₁.step h₂
      obtain ⟨-, hsize, -⟩ := hbusy₂.steps hq
      rw [Infix.gains_tokens] at hsize
      rw [Lexeme.gain_op] at hsize₂
      rw [Infix.postfixForm, List.length_append, List.length_append, List.length_singleton]
      by_cases hlover : 16 < p.stack.length + l.need
      · have hlt := ihl hl hbusy hstopsl hlover h₁
        omega
      · obtain ⟨ch₁, hexact⟩ := steps_infix hl hstopsl (by omega)
        obtain rfl := Except.ok.inj (hexact.symm.trans h₁)
        have hbinary : Pending.operate op.byte _ = .ok p₂ := h₂
        rw [operate_pend hl hopl hstack hstop (by omega)] at hbinary
        obtain rfl := Except.ok.inj hbinary
        have hemit := length_pend l
        by_cases hroom : p.stack.length < 16
        · have hpush : pushTo 16 p.stack op.code = op.code :: p.stack := by
            rw [pushTo, if_pos hroom]
          have hlt := ihr hr hbusy₂ (by rw [hpush]; exact Infix.stops_op hopr p.stack)
            (by rw [hpush, List.length_cons]; omega) hq
          have hsize₁ : Pending.size ⟨pushTo 16 p.stack op.code, c,
              p.out ++ l.emit ++ printed l.pendCodes⟩ = p.size + l.postfixForm.length + 1 := by
            rw [hpush, Pending.size, Pending.size, List.length_append, List.length_append,
              printed_length, List.length_cons]
            omega
          omega
        · -- the operator is lost
          have hsize₁ : Pending.size ⟨pushTo 16 p.stack op.code, c,
              p.out ++ l.emit ++ printed l.pendCodes⟩ = p.size + l.postfixForm.length := by
            rw [pushTo, if_neg hroom]
            show (p.out ++ l.emit ++ printed l.pendCodes).length + p.stack.length =
              p.out.length + p.stack.length + _
            rw [List.length_append, List.length_append, printed_length]
            omega
          omega

/-! ### From the empty stack -/

/-- The operator behind the left operand finds nothing to push back: `ch` is what
it was at the start, or an operator that was popped. -/
theorem operate_top {op : Op} {l r : Infix} (hl : l.WellFormed) (hop : op.prec ≤ l.prec)
    {ch ch₁ : ℤ} (hfirst : ∀ op', (Infix.bin op l r).firstOp = some op' → op'.stop ch = false)
    (hch : l.pend = [] → ch₁ = ch) (out : List (List UInt8)) :
    ∃ ch', Pending.operate op.byte ⟨l.pendCodes, ch₁, out⟩ =
      .ok ⟨[op.code], ch', out ++ printed l.pendCodes⟩ := by
  refine ⟨l.pendCodes.getLast?.getD ch₁, ?_⟩
  rw [Pending.operate_op, Pending.binary_all (Infix.stop_pendCodes hl hop)]
  by_cases hpend : l.pend = []
  · show op.stop (l.pendCodes.getLast?.getD ch₁) = false
    rw [Infix.pendCodes, hpend, hch hpend]
    exact hfirst op (Infix.firstOp_of_pend hpend op r)
  · refine getLast?_getD_stop (Infix.stop_pendCodes hl hop) ?_ ch₁
    exact fun hnil => hpend (List.map_eq_nil_iff.mp hnil)

/-- **The run of a whole expression**, with room on the stack; by induction on
its left spine. -/
theorem steps_top {e : Infix} (h : e.WellFormed) {ch : ℤ} (hstart : e.startsParen = false)
    (hfirst : ∀ op, e.firstOp = some op → op.stop ch = false) (hneed : e.need ≤ 16) :
    ∃ ch', Pending.steps ⟨[], ch, []⟩ e.tokens = .ok ⟨e.pendCodes, ch', e.emit⟩ ∧
      (e.pend = [] → ch' = ch) := by
  induction e with
  | operand w => exact ⟨ch, rfl, fun _ => rfl⟩
  | paren e _ => cases hstart
  | bin op l r ihl _ =>
      obtain ⟨hl, hr, hopl, hopr⟩ := h
      rw [Infix.need] at hneed
      have hfirstl : ∀ op', l.firstOp = some op' → op'.stop ch = false := by
        intro op' hop'
        exact hfirst op' (Infix.firstOp_left hop' r)
      obtain ⟨ch₁, h₁, hch₁⟩ := ihl hl hstart hfirstl (by omega)
      obtain ⟨ch₂, h₂⟩ := operate_top hl hopl hfirst hch₁ l.emit
      obtain ⟨ch₃, h₃⟩ := steps_infix hr (p := ⟨[op.code], ch₂, l.emit ++ printed l.pendCodes⟩)
        (Infix.stops_op hopr []) (by
          show 1 + r.need ≤ 16
          omega)
      refine ⟨ch₃, ?_, fun hpend => absurd hpend (Infix.pend_bin_ne_nil op l r)⟩
      apply Pending.steps_bin_iff.mpr
      refine ⟨_, _, h₁, h₂, ?_⟩
      rw [h₃, Infix.printed_pendCodes, Infix.pendCodes, Infix.pendCodes, Infix.pend, Infix.emit,
        List.map_append]
      rfl

/-- Without room the whole expression loses an entry too. -/
theorem steps_top_overflow {e : Infix} (h : e.WellFormed) {ch : ℤ} (hstart : e.startsParen = false)
    (hfirst : ∀ op, e.firstOp = some op → op.stop ch = false) (hneed : 16 < e.need) {q : Pending}
    (hq : Pending.steps ⟨[], ch, []⟩ e.tokens = .ok q) :
    q.Busy ∧ (q.size : ℤ) < e.postfixForm.length := by
  induction e generalizing q with
  | operand w => exact absurd hneed (by rw [Infix.need]; decide)
  | paren e _ => cases hstart
  | bin op l r ihl _ =>
      obtain ⟨hl, hr, hopl, hopr⟩ := h
      rw [Infix.need] at hneed
      have hfirstl : ∀ op', l.firstOp = some op' → op'.stop ch = false := by
        intro op' hop'
        exact hfirst op' (Infix.firstOp_left hop' r)
      obtain ⟨p₁, p₂, h₁, h₂, hq⟩ := Pending.steps_bin_iff.mp hq
      rw [Infix.postfixForm, List.length_append, List.length_append, List.length_singleton]
      by_cases hlover : 16 < l.need
      · obtain ⟨hbusy₁, hlt⟩ := ihl hl hstart hfirstl hlover h₁
        obtain ⟨hbusy₂, hsize₂, -⟩ := hbusy₁.step h₂
        obtain ⟨hbusy, hsize, -⟩ := hbusy₂.steps hq
        rw [Infix.gains_tokens] at hsize
        rw [Lexeme.gain_op] at hsize₂
        exact ⟨hbusy, by omega⟩
      · obtain ⟨ch₁, hexact, hch₁⟩ := steps_top hl hstart hfirstl (by omega)
        obtain rfl := Except.ok.inj (hexact.symm.trans h₁)
        obtain ⟨ch₂, hop⟩ := operate_top hl hopl hfirst hch₁ l.emit
        obtain rfl := Except.ok.inj (hop.symm.trans h₂)
        have hbusy₂ : Pending.Busy ⟨[op.code], ch₂, l.emit ++ printed l.pendCodes⟩ :=
          ⟨⟨op, rfl⟩, Nat.le_of_ble_eq_true rfl⟩
        have hlt := steps_overflow hr hbusy₂ (Infix.stops_op hopr []) (by
          show 16 < 1 + r.need
          omega) hq
        obtain ⟨hbusy, -⟩ := hbusy₂.steps hq
        have hsize₂ : Pending.size ⟨[op.code], ch₂, l.emit ++ printed l.pendCodes⟩ =
            l.postfixForm.length + 1 := by
          show (l.emit ++ printed l.pendCodes).length + 1 = _
          rw [List.length_append, printed_length, length_pend]
        rw [hsize₂] at hlt
        refine ⟨hbusy, ?_⟩
        push_cast at hlt ⊢
        omega

/-! ### An operator that was never read -/

/-- A parenthesis leaves the entry at the bottom where it is. -/
theorem Pending.Busy.step_paren {p q : Pending} (h : p.Busy) {c : UInt8}
    (hc : c = chr '(' ∨ c = chr ')') (hq : p.step (.oper c) = .ok q) :
    q.stack.getLast? = p.stack.getLast? := by
  have hq : p.operate c = .ok q := hq
  rcases hc with rfl | rfl
  · rw [operate_open] at hq
    obtain rfl := Except.ok.inj hq
    exact getLast?_pushTo h.ne_nil _
  · rcases h.close_cases with ⟨pre, rest, hsplit, -, hne, hok⟩ | ⟨-, r, herr⟩
    · obtain rfl := Except.ok.inj (hok.symm.trans hq)
      obtain ⟨d, rest, rfl⟩ := List.exists_cons_of_ne_nil hne
      rw [hsplit, List.getLast?_append_cons, List.getLast?_cons_cons]
    · rw [herr] at hq
      cases hq

/-- So does an operator above an entry that stops it. -/
theorem Pending.Busy.step_op {p q : Pending} (h : p.Busy) {op : Op}
    (hstop : ∃ x ∈ p.stack, op.stop x = true) (hq : p.step (.oper op.byte) = .ok q) :
    q.stack.getLast? = p.stack.getLast? := by
  have hq : p.operate op.byte = .ok q := hq
  rw [operate_op] at hq
  obtain rfl := Except.ok.inj hq
  rcases h.binary_cases op with ⟨pre, c, rest, hsplit, -, -, hbinary⟩ | ⟨hall, -⟩
  · rw [hbinary, hsplit, List.getLast?_append_cons]
    exact getLast?_pushTo (List.cons_ne_nil _ _) _
  · obtain ⟨x, hmem, hx⟩ := hstop
    rw [hall x hmem] at hx
    cases hx

/-- As long as no parenthesis is closed that was open before, the entry at the
bottom stays where one of them is open, and for an operand or an expression in
parentheses. -/
theorem steps_bottom {e : Infix} {p q : Pending} (hbusy : p.Busy)
    (hopen : e.prec = 2 ∨ 1 ≤ p.opened) (hle : p.opened ≤ q.opened)
    (hq : p.steps e.tokens = .ok q) : q.stack.getLast? = p.stack.getLast? := by
  induction e generalizing p q with
  | operand w =>
      obtain rfl := Except.ok.inj (show Except.ok _ = Except.ok q from hq)
      rfl
  | paren e ih =>
      obtain ⟨p₁, p₂, h₁, h₂, hq⟩ := Pending.steps_paren_iff.mp hq
      obtain ⟨hbusy₁, -, hopened₁⟩ := hbusy.step h₁
      obtain ⟨hbusy₂, -, hopened₂⟩ := hbusy₁.steps h₂
      obtain ⟨-, -, hopened₃⟩ := hbusy₂.step hq
      rw [Lexeme.opens_open] at hopened₁
      rw [Infix.opensOf_tokens] at hopened₂
      rw [Lexeme.opens_close] at hopened₃
      -- the parenthesis itself is open inside
      have hinner := ih hbusy₁ (.inr (by omega)) (by omega) h₂
      rw [hbusy₂.step_paren (.inr rfl) hq, hinner, hbusy.step_paren (.inl rfl) h₁]
  | bin op l r ihl ihr =>
      have hopen : 1 ≤ p.opened := by
        apply hopen.resolve_left
        intro hprec
        have hop : op.prec = 2 := hprec
        cases op <;> exact absurd hop (by decide)
      obtain ⟨p₁, p₂, h₁, h₂, hq⟩ := Pending.steps_bin_iff.mp hq
      obtain ⟨hbusy₁, -, hopened₁⟩ := hbusy.steps h₁
      obtain ⟨hbusy₂, -, hopened₂⟩ := hbusy₁.step h₂
      obtain ⟨-, -, hopened₃⟩ := hbusy₂.steps hq
      rw [Infix.opensOf_tokens] at hopened₁ hopened₃
      rw [Lexeme.opens_op] at hopened₂
      have hmem : code '(' ∈ p₁.stack := List.count_pos_iff.mp (by
        show 0 < p₁.opened
        omega)
      rw [ihr hbusy₂ (.inr (by omega)) (by omega) hq,
        hbusy₁.step_op ⟨_, hmem, op.stop_paren⟩ h₂, ihl hbusy (.inr hopen) (by omega) h₁]

/-- What would be printed if the input ended here, and no parenthesis were
open. -/
def Pending.flush (p : Pending) : List (List UInt8) := p.out ++ printed p.stack

theorem Pending.flush_length (p : Pending) : p.flush.length = p.size := by
  rw [flush, List.length_append, printed_length, size]

/-- Nothing that was printed is taken back. -/
theorem out_prefix_popEntries (stop : ℤ → Bool) (l : List ℤ) (ch : ℤ) (out : List (List UInt8)) :
    out <+: (popEntries stop l ch out).out := by
  induction l generalizing ch out with
  | nil => exact List.prefix_rfl
  | cons c l ih =>
      unfold popEntries
      split
      · exact List.prefix_rfl
      · exact (List.prefix_append _ _).trans (ih _ _)

theorem Pending.out_prefix_step {p q : Pending} {l : Lexeme} (hq : p.step l = .ok q) :
    p.out <+: q.out := by
  cases l with
  | operand w =>
      obtain rfl := Except.ok.inj (show Except.ok _ = Except.ok q from hq)
      exact List.prefix_append _ _
  | oper c =>
      have hq : p.operate c = .ok q := hq
      rcases known_cases c with rfl | rfl | ⟨op, rfl⟩ | hunknown
      · rw [operate_open] at hq
        obtain rfl := Except.ok.inj hq
        exact List.prefix_rfl
      · rw [operate_close] at hq
        split at hq
        · obtain rfl := Except.ok.inj hq
          exact out_prefix_popEntries _ _ _ _
        · cases hq
      · rw [operate_op] at hq
        obtain rfl := Except.ok.inj hq
        have hpop := out_prefix_popEntries op.stop p.stack p.ch p.out
        unfold binary
        simp only
        split
        · exact hpop
        · exact hpop
      · rw [operate_unknown p hunknown] at hq
        obtain rfl := Except.ok.inj hq
        exact List.prefix_rfl

theorem Pending.out_prefix_steps {p q : Pending} {ls : List Lexeme} (hq : p.steps ls = .ok q) :
    p.out <+: q.out := by
  induction ls generalizing p with
  | nil =>
      obtain rfl := Except.ok.inj hq
      exact List.prefix_rfl
  | cons l ls ih =>
      obtain ⟨r, hr, hq⟩ := steps_cons_iff.mp hq
      exact (out_prefix_step hr).trans (ih hq)

/-- The entry at the bottom is printed last. -/
theorem Pending.flush_getLast {p : Pending} {op : Op} (h : p.stack.getLast? = some op.code) :
    p.flush.getLast? = some [op.byte] := by
  have hlast : (printed p.stack).getLast? = some [op.byte] := by
    rw [printed, List.getLast?_map, h, Option.map_some, op.putchar_code]
  rw [flush, List.getLast?_append, hlast]
  rfl

theorem flush_ne_of_bottom {p : Pending} {low op : Op} (hprec : low.prec < op.prec)
    (h : p.stack.getLast? = some low.code) (l : List (List UInt8)) :
    p.flush ≠ l ++ [[op.byte]] := by
  intro e
  have hlast := Pending.flush_getLast h
  rw [e, List.getLast?_concat] at hlast
  have hbyte : [op.byte] = [low.byte] := Option.some.inj hlast
  revert hprec hbyte
  cases op <;> cases low <;> decide

/-- What is printed for a left operand is not its postfix form, so it is not
the beginning of the postfix form of the whole. -/
theorem flush_ne_of_left {p q : Pending} {l r : Infix} {op : Op} (hr : r.WellFormed)
    (hbusy : p.Busy) (hlen : p.flush.length ≤ l.postfixForm.length + 1)
    (hne : p.flush ≠ l.postfixForm) (hout : p.flush <+: q.flush)
    (hsize : q.flush.length ≤ p.flush.length + r.postfixForm.length + 1) :
    q.flush ≠ l.postfixForm ++ r.postfixForm ++ [[op.byte]] := by
  intro e
  have hlenq := congrArg List.length e
  rw [List.length_append, List.length_append, List.length_singleton] at hlenq
  rw [e, List.append_assoc] at hout
  rcases (Nat.lt_or_eq_of_le hlen) with hlt | heq
  · -- as long as the postfix form of the left operand
    apply hne
    have hprefix := (List.prefix_append l.postfixForm (r.postfixForm ++ [[op.byte]]))
    exact (List.prefix_of_prefix_length_le hout hprefix (by omega)).eq_of_length (by omega)
  · -- one entry longer: an operator where the right operand starts
    obtain ⟨w, rest, hrest, hw⟩ := Infix.postfixForm_head hr
    obtain ⟨low, hlow⟩ := hbusy.bottom
    have hprefix : l.postfixForm ++ [w] <+: l.postfixForm ++ (r.postfixForm ++ [[op.byte]]) := by
      rw [hrest]
      exact ⟨rest ++ [[op.byte]], by simp⟩
    have hflush : p.flush = l.postfixForm ++ [w] := by
      have hlen : p.flush.length = (l.postfixForm ++ [w]).length := by
        rw [heq, List.length_append, List.length_singleton]
      exact (List.prefix_of_prefix_length_le hout hprefix hlen.le).eq_of_length hlen
    have hlast := Pending.flush_getLast hlow
    rw [hflush, List.getLast?_concat] at hlast
    exact Infix.byte_ne_operand hw low (Option.some.inj hlast)

/-- **The run of an expression whose first operator finds `+` or `-` in `ch`**
prints that one too, and never the postfix form. -/
theorem steps_spurious {e : Infix} (h : e.WellFormed) (hstart : e.startsParen = false)
    {first low : Op} (hfirst : e.firstOp = some first) (hprec : first.prec = 1)
    (hlow : low.prec = 0) {q : Pending} (hq : Pending.steps ⟨[], low.code, []⟩ e.tokens = .ok q) :
    q.Busy ∧ q.opened = 0 ∧ q.flush.length ≤ e.postfixForm.length + 1 ∧
      q.flush ≠ e.postfixForm ∧ (e.prec = 1 → q.stack.getLast? = some low.code) := by
  induction e generalizing q with
  | operand w => cases hfirst
  | paren e _ => cases hstart
  | bin op l r ihl _ =>
      obtain ⟨hl, hr, hopl, hopr⟩ := h
      obtain ⟨p₁, p₂, h₁, h₂, hq⟩ := Pending.steps_bin_iff.mp hq
      have hlength : (Infix.bin op l r).postfixForm.length =
          l.postfixForm.length + r.postfixForm.length + 1 := by
        rw [Infix.postfixForm, List.length_append, List.length_append, List.length_singleton]
      -- what is left to show once `low` lies at the bottom under an operator of high precedence
      have hhigh : op.prec = 1 → p₂.Busy → p₂.opened = 0 →
          p₂.size ≤ l.postfixForm.length + 2 → p₂.stack.getLast? = some low.code →
          q.Busy ∧ q.opened = 0 ∧ q.flush.length ≤ (Infix.bin op l r).postfixForm.length + 1 ∧
            q.flush ≠ (Infix.bin op l r).postfixForm ∧
            ((Infix.bin op l r).prec = 1 → q.stack.getLast? = some low.code) := by
        intro hop hbusy₂ hopened₂ hsize₂ hbottom₂
        obtain ⟨hbusy, hsize, hopened⟩ := hbusy₂.steps hq
        rw [Infix.gains_tokens] at hsize
        rw [Infix.opensOf_tokens] at hopened
        have hrprec : r.prec = 2 := by
          rw [hop] at hopr
          cases r with
          | operand w => rfl
          | paren e => rfl
          | bin op' l' r' =>
              have hle : op'.prec ≤ 1 := by cases op' <;> decide
              exact absurd hopr (Nat.not_lt.mpr hle)
        have hbottom := (steps_bottom hbusy₂ (.inl hrprec) (by omega) hq).trans hbottom₂
        refine ⟨hbusy, by omega, ?_, ?_, fun _ => hbottom⟩
        · rw [Pending.flush_length, hlength]
          omega
        · exact flush_ne_of_bottom (by omega) hbottom _
      cases l with
      | paren e => cases hstart
      | operand w =>
          obtain rfl : op = first := Option.some.inj hfirst
          obtain rfl := Except.ok.inj (show Except.ok _ = Except.ok p₁ from h₁)
          have hbinary : Pending.binary ⟨[], low.code, [] ++ [w]⟩ op =
              ⟨[op.code, low.code], low.code, [w]⟩ := by
            rw [Pending.binary, Pending.popWhileNot, popEntries]
            simp only [Op.stop_code_of_lt (show low.prec < op.prec by omega), if_true]
            rfl
          have h₂ : Pending.operate op.byte ⟨[], low.code, [] ++ [w]⟩ = .ok p₂ := h₂
          rw [Pending.operate_op, hbinary] at h₂
          obtain rfl := Except.ok.inj h₂
          refine hhigh hprec ⟨⟨low, rfl⟩, Nat.le_of_ble_eq_true rfl⟩ ?_ le_rfl rfl
          show [op.code, low.code].count (code '(') = 0
          rw [List.count_cons_of_ne op.code_ne_paren, List.count_cons_of_ne low.code_ne_paren,
            List.count_nil]
      | bin op' l' r' =>
          obtain ⟨hbusy₁, hopened₁, hlen₁, hne₁, hbottom₁⟩ := ihl hl hstart hfirst h₁
          obtain ⟨hbusy₂, hsize₂, hopened₂⟩ := hbusy₁.step h₂
          rw [Lexeme.gain_op] at hsize₂
          rw [Lexeme.opens_op] at hopened₂
          rw [Pending.flush_length] at hlen₁
          by_cases hop : op.prec = 1
          · have hlprec : (Infix.bin op' l' r').prec = 1 := by
              have hle : op'.prec ≤ 1 := by cases op' <;> decide
              exact le_antisymm hle (hop ▸ hopl)
            have hbottom := hbottom₁ hlprec
            apply hhigh hop hbusy₂ (by omega) (by omega)
            rw [hbusy₁.step_op ⟨low.code, List.mem_of_getLast? hbottom,
              Op.stop_code_of_lt (by omega)⟩ h₂, hbottom]
          · have hop : op.prec = 0 := by
              revert hop
              cases op <;> decide
            have hpop : ∀ x ∈ p₁.stack, op.stop x = false := by
              have hparen : ∀ x ∈ p₁.stack, isParen x = false := by
                intro x hx
                apply beq_eq_false_iff_ne.mpr
                rintro rfl
                exact List.count_eq_zero.mp hopened₁ hx
              cases op with
              | add | sub => exact hparen
              | mul | div => cases hop
            have h₂ : p₁.operate op.byte = .ok p₂ := h₂
            rw [Pending.operate_op,
              Pending.binary_all hpop (getLast?_getD_stop hpop hbusy₁.ne_nil _)] at h₂
            obtain rfl := Except.ok.inj h₂
            obtain ⟨hbusy, hsize, hopened⟩ := hbusy₂.steps hq
            rw [Infix.gains_tokens] at hsize
            rw [Infix.opensOf_tokens] at hopened
            have hsizeq : q.size ≤ p₁.flush.length + r.postfixForm.length + 1 := by
              have hsize₂ : Pending.size ⟨[op.code], p₁.stack.getLast?.getD p₁.ch,
                  p₁.out ++ printed p₁.stack⟩ = p₁.flush.length + 1 := rfl
              omega
            rw [← Pending.flush_length] at hlen₁ hsizeq
            refine ⟨hbusy, by omega, by rw [hlength]; omega, ?_, fun he => ?_⟩
            · refine flush_ne_of_left hr hbusy₁ hlen₁ hne₁ ?_ hsizeq
              exact (Pending.out_prefix_steps hq).trans (List.prefix_append _ _)
            · rw [show (Infix.bin op (Infix.bin op' l' r') r).prec = op.prec from rfl, hop] at he
              cases he

/-! ### The exact condition -/

theorem err_ne {out l : List (List UInt8)} : some (err out) ≠ some ⟨0, l⟩ := by
  intro e
  have hret := congrArg Exit.ret (Option.some.inj e)
  exact absurd (show (-1 : ℤ) = 0 from hret) (by decide)

/-- A jammed run ends at the error exit, unless an operand does not fit. -/
theorem Pending.Jammed.run {p : Pending} (h : p.Jammed) {ls : List Lexeme}
    (hfit : ∀ l ∈ ls, l.Fits) : ∃ out, p.run ls = some (err out) := by
  obtain ⟨q, hq, hjam⟩ := h.steps ls
  obtain ⟨out, hout⟩ := hjam.finish
  rw [run_eq hfit, hq]
  exact ⟨out, congrArg some hout⟩

/-- A run that is busy at its end prints the flush of its last state, or takes
the error exit. -/
theorem Pending.Busy.flush_of_finish {p : Pending} (h : p.Busy) {l : List (List UInt8)}
    (hl : p.finish = ⟨0, l ++ [bytes "\n"]⟩) : p.flush = l := by
  rcases h.finish with ⟨-, out, hout⟩ | ⟨-, hok⟩
  · exact absurd (congrArg some (hout.symm.trans hl)) err_ne
  · have hout := congrArg Exit.out (hok.symm.trans hl)
    exact List.append_cancel_right hout

/-- With nothing but operators on the stack, the end prints them. -/
theorem finish_pendCodes {e : Infix} {ch : ℤ} (hch : e.pend = [] → ch ≠ code '(')
    (out : List (List UInt8)) :
    Pending.finish ⟨e.pendCodes, ch, out⟩ = ⟨0, out ++ printed e.pendCodes ++ [bytes "\n"]⟩ := by
  unfold Pending.finish
  rw [Pending.popWhileNot, popEntries_all e.isParen_pendCodes]
  apply if_neg
  show e.pendCodes.getLast?.getD ch ≠ code '('
  by_cases hpend : e.pend = []
  · rw [Infix.pendCodes, hpend]
    exact hch hpend
  · intro heq
    have hlast := getLast?_getD_stop e.isParen_pendCodes
      (fun hnil => hpend (List.map_eq_nil_iff.mp hnil)) ch
    rw [heq] at hlast
    cases hlast

/-- **The program converts exactly these expressions.** -/
theorem converts_iff {e : Infix} (h : e.WellFormed) {text : List UInt8}
    (htext : Spells e.tokens text) (ch : ℤ) :
    convert ch text = some ⟨0, e.postfixForm ++ [bytes "\n"]⟩ ↔ e.Converts ch := by
  rw [convert_eq, Infix.lexemes_eq h htext]
  have hfit := Infix.tokens_fit h
  constructor
  · intro hrun
    have hparen : ch ≠ code '(' := by
      rintro rfl
      obtain ⟨out, hout⟩ := Pending.Jammed.run (p := ⟨[], code '(', []⟩)
        ⟨.inl ⟨rfl, rfl⟩, Nat.zero_le _⟩ hfit
      exact err_ne (hout.symm.trans hrun)
    have hstart : e.startsParen = false := by
      by_contra hstart
      obtain ⟨ls, hls⟩ := Infix.tokens_of_startsParen (Bool.of_not_eq_false hstart)
      rw [hls] at hrun hfit
      obtain ⟨out, hout⟩ := Pending.Jammed.run (p := ⟨[code '('], ch, []⟩)
        ⟨.inr rfl, Nat.le_of_ble_eq_true rfl⟩ fun l hl => hfit l (List.mem_cons_of_mem _ hl)
      exact err_ne (hout.symm.trans hrun)
    rw [Pending.run_eq hfit] at hrun
    rcases hsteps : Pending.steps ⟨[], ch, []⟩ e.tokens with q | q
    · rw [hsteps] at hrun
      exact absurd hrun err_ne
    · rw [hsteps] at hrun
      have hfinish := Option.some.inj hrun
      have hfirst : ∀ op, e.firstOp = some op → op.stop ch = false := by
        intro op hop
        by_contra hstop
        obtain ⟨hprec, low, hlow, rfl⟩ := Infix.low_of_stop hparen (Bool.of_not_eq_false hstop)
        obtain ⟨hbusy, -, -, hne, -⟩ := steps_spurious h hstart hop hprec hlow hsteps
        exact hne (hbusy.flush_of_finish hfinish)
      refine ⟨hstart, hparen, fun op hop hprec => ?_, ?_⟩
      · have hne : ∀ low : Op, low.prec = 0 → ch ≠ low.code := by
          rintro low hlow rfl
          have hno := hfirst op hop
          rw [Op.stop_code_of_lt (by omega)] at hno
          cases hno
        exact ⟨hne .add rfl, hne .sub rfl⟩
      · by_contra hneed
        obtain ⟨hbusy, hlt⟩ := steps_top_overflow h hstart hfirst (Nat.lt_of_not_le hneed) hsteps
        rw [← Pending.flush_length, hbusy.flush_of_finish hfinish] at hlt
        exact lt_irrefl _ hlt
  · intro hconv
    obtain ⟨ch', hsteps, hch'⟩ := steps_top h hconv.start
      (fun op hop => Infix.Converts.stop hconv.ch_paren hconv.ch_first hop) hconv.need
    rw [Pending.run_eq hfit, hsteps]
    show some (Pending.finish _) = _
    rw [finish_pendCodes fun hpend => (hch' hpend).symm ▸ hconv.ch_paren,
      Infix.printed_pendCodes, ← Infix.postfixForm_eq]

end ExpressionConvert

end CodeSnippet
