/-
CodeSnippet/ConvertRun.lean

Runs of the converter.  Where the stack has room, the tokens of an expression
leave behind the operators that are still pending, and print the rest
(`steps_infix`).  Everything else is about the runs that go wrong: a state is
jammed when a parenthesis lies at the bottom of the stack, and then the run ends
at the error exit; it is busy when an operator lies there, and then no step
prints and queues more than it reads.
-/
import CodeSnippet.Infix

namespace CodeSnippet

open Memory ExpressionConvert

/-! ### Operators on the stack -/

/-- The entries at which popping for an operator ends. -/
def Op.stop : Op → ℤ → Bool
  | .add | .sub => isParen
  | .mul | .div => isParenOrLow

theorem Op.isParen_code (op : Op) : isParen op.code = false := by
  cases op <;> rfl

theorem Op.code_ne_paren (op : Op) : op.code ≠ CodeSnippet.code '(' := by
  cases op <;> decide

theorem Op.putchar_code (op : Op) : putchar op.code = op.byte := by
  cases op <;> rfl

theorem Op.stop_paren (op : Op) : op.stop (CodeSnippet.code '(') = true := by
  cases op <;> rfl

theorem Op.stop_code_of_lt {op op' : Op} (h : op'.prec < op.prec) : op.stop op'.code = true := by
  cases op <;> cases op' <;> first | rfl | exact absurd h (by decide)

theorem Op.stop_code_of_le {op op' : Op} (h : op.prec ≤ op'.prec) : op.stop op'.code = false := by
  cases op <;> cases op' <;> first | rfl | exact absurd h (by decide)

/-- An entry that ends popping is a parenthesis or an operator of low
precedence. -/
theorem Op.eq_of_stop {op : Op} {c : ℤ} (h : op.stop c = true) :
    c = CodeSnippet.code '(' ∨ ∃ low : Op, low.prec < op.prec ∧ c = low.code := by
  cases op with
  | add | sub => exact .inl (beq_iff_eq.mp h)
  | mul | div =>
      have h : isParenOrLow c = true := h
      rw [isParenOrLow, Bool.or_eq_true, Bool.or_eq_true, beq_iff_eq, beq_iff_eq, beq_iff_eq] at h
      rcases h with (rfl | rfl) | rfl
      · exact .inl rfl
      · exact .inr ⟨.add, by decide, rfl⟩
      · exact .inr ⟨.sub, by decide, rfl⟩

theorem isParen_iff {c : ℤ} : isParen c = true ↔ c = code '(' := beq_iff_eq

namespace ExpressionConvert

/-! ### Steps -/

/-- The steps for a list of lexemes. -/
def Pending.steps : Pending → List Lexeme → Except Pending Pending
  | p, [] => .ok p
  | p, l :: ls =>
      match p.step l with
      | .ok p => p.steps ls
      | .error p => .error p

theorem Pending.steps_append (p : Pending) (ls ls' : List Lexeme) :
    p.steps (ls ++ ls') = (p.steps ls).bind fun q => q.steps ls' := by
  induction ls generalizing p with
  | nil => rfl
  | cons l ls ih =>
      rw [List.cons_append, steps, steps]
      rcases p.step l with q | q
      · rfl
      · exact ih q

/-- A sequence of two computations that succeeds, taken apart. -/
theorem bind_eq_ok_iff {ε α β : Type} {x : Except ε α} {f : α → Except ε β} {r : β} :
    x.bind f = .ok r ↔ ∃ a, x = .ok a ∧ f a = .ok r := by
  rcases x with e | a
  · constructor
    · intro h
      cases h
    · rintro ⟨a, ha, -⟩
      cases ha
  · constructor
    · intro h
      exact ⟨a, rfl, h⟩
    · rintro ⟨a', ha', h⟩
      obtain rfl := Except.ok.inj ha'
      exact h

theorem Pending.steps_append_iff {p r : Pending} {ls ls' : List Lexeme} :
    p.steps (ls ++ ls') = .ok r ↔ ∃ q, p.steps ls = .ok q ∧ q.steps ls' = .ok r := by
  rw [steps_append]
  exact bind_eq_ok_iff

theorem Pending.steps_cons_iff {p r : Pending} {l : Lexeme} {ls : List Lexeme} :
    p.steps (l :: ls) = .ok r ↔ ∃ q, p.step l = .ok q ∧ q.steps ls = .ok r := by
  have hbind : p.steps (l :: ls) = (p.step l).bind fun q => q.steps ls := by
    rw [steps]
    rcases p.step l with q | q
    · rfl
    · rfl
  rw [hbind]
  exact bind_eq_ok_iff

/-- The steps for an expression in parentheses. -/
theorem Pending.steps_paren_iff {p q : Pending} {e : Infix} :
    p.steps (Infix.paren e).tokens = .ok q ↔
      ∃ p₁ p₂, p.step (.oper (chr '(')) = .ok p₁ ∧ p₁.steps e.tokens = .ok p₂ ∧
        p₂.step (.oper (chr ')')) = .ok q := by
  rw [Infix.tokens, List.cons_append, steps_cons_iff]
  constructor
  · rintro ⟨p₁, h₁, hq⟩
    obtain ⟨p₂, h₂, hq⟩ := steps_append_iff.mp hq
    obtain ⟨r, hr, hq⟩ := steps_cons_iff.mp hq
    obtain rfl := Except.ok.inj hq
    exact ⟨p₁, p₂, h₁, h₂, hr⟩
  · rintro ⟨p₁, p₂, h₁, h₂, hq⟩
    exact ⟨p₁, h₁, steps_append_iff.mpr ⟨p₂, h₂, steps_cons_iff.mpr ⟨q, hq, rfl⟩⟩⟩

/-- The steps for an operator and its operands. -/
theorem Pending.steps_bin_iff {p q : Pending} {op : Op} {l r : Infix} :
    p.steps (Infix.bin op l r).tokens = .ok q ↔
      ∃ p₁ p₂, p.steps l.tokens = .ok p₁ ∧ p₁.step (.oper op.byte) = .ok p₂ ∧
        p₂.steps r.tokens = .ok q := by
  rw [Infix.tokens, steps_append_iff]
  constructor
  · rintro ⟨p₁, h₁, hq⟩
    obtain ⟨p₂, h₂, hq⟩ := steps_cons_iff.mp hq
    exact ⟨p₁, p₂, h₁, h₂, hq⟩
  · rintro ⟨p₁, p₂, h₁, h₂, hq⟩
    exact ⟨p₁, h₁, steps_cons_iff.mpr ⟨p₂, h₂, hq⟩⟩

/-- A run over lexemes that fit is its steps, and then the end. -/
theorem Pending.run_eq {p : Pending} {ls : List Lexeme} (h : ∀ l ∈ ls, l.Fits) :
    p.run ls = match p.steps ls with
      | .ok q => some q.finish
      | .error q => some (err q.out) := by
  induction ls generalizing p with
  | nil => rfl
  | cons l ls ih =>
      rw [run, if_pos (h l (List.mem_cons_self ..)), steps]
      rcases p.step l with q | q
      · rfl
      · exact ih fun l hl => h l (List.mem_cons_of_mem _ hl)

/-! ### Popping -/

/-- What popping prints. -/
def printed (l : List ℤ) : List (List UInt8) := l.map fun c => [putchar c]

@[simp] theorem printed_length (l : List ℤ) : (printed l).length = l.length :=
  List.length_map ..

/-- Popping stops at the first entry that stops it. -/
theorem popEntries_append {stop : ℤ → Bool} {l rest : List ℤ} {c : ℤ}
    (hl : ∀ x ∈ l, stop x = false) (hc : stop c = true) (ch : ℤ) (out : List (List UInt8)) :
    popEntries stop (l ++ c :: rest) ch out = ⟨rest, c, out ++ printed l⟩ := by
  induction l generalizing ch out with
  | nil => rw [List.nil_append, popEntries, if_pos hc, printed, List.map_nil, List.append_nil]
  | cons x l ih =>
      have hx := hl x (List.mem_cons_self ..)
      rw [List.cons_append, popEntries, if_neg (ne_true_of_eq_false hx),
        ih fun y hy => hl y (List.mem_cons_of_mem _ hy), List.append_assoc]
      rfl

/-- Without such an entry it takes them all. -/
theorem popEntries_all {stop : ℤ → Bool} {l : List ℤ} (hl : ∀ x ∈ l, stop x = false) (ch : ℤ)
    (out : List (List UInt8)) :
    popEntries stop l ch out = ⟨[], l.getLast?.getD ch, out ++ printed l⟩ := by
  induction l generalizing ch out with
  | nil => rw [popEntries, printed, List.map_nil, List.append_nil]; rfl
  | cons x l ih =>
      have hx := hl x (List.mem_cons_self ..)
      rw [popEntries, if_neg (ne_true_of_eq_false hx),
        ih fun y hy => hl y (List.mem_cons_of_mem _ hy), List.append_assoc]
      congr 1
      cases l with
      | nil => rfl
      | cons y l => rw [List.getLast?_cons_cons, List.getLast?_eq_getLast_of_ne_nil (by simp)]; rfl

theorem Pending.popWhileNot_append {p : Pending} {stop : ℤ → Bool} {l rest : List ℤ} {c : ℤ}
    (hp : p.stack = l ++ c :: rest) (hl : ∀ x ∈ l, stop x = false) (hc : stop c = true) :
    p.popWhileNot stop = ⟨rest, c, p.out ++ printed l⟩ := by
  rw [popWhileNot, hp, popEntries_append hl hc]

theorem Pending.popWhileNot_all {p : Pending} {stop : ℤ → Bool}
    (hp : ∀ x ∈ p.stack, stop x = false) :
    p.popWhileNot stop = ⟨[], p.stack.getLast?.getD p.ch, p.out ++ printed p.stack⟩ :=
  popEntries_all hp p.ch p.out

theorem Pending.popWhileNot_nil {p : Pending} (hp : p.stack = []) (stop : ℤ → Bool) :
    p.popWhileNot stop = ⟨[], p.ch, p.out⟩ := by
  rw [popWhileNot, hp, popEntries]

/-- One of the two is the case. -/
theorem exists_stop (stop : ℤ → Bool) (l : List ℤ) :
    (∃ pre c rest, l = pre ++ c :: rest ∧ (∀ x ∈ pre, stop x = false) ∧ stop c = true) ∨
      ∀ x ∈ l, stop x = false := by
  induction l with
  | nil => exact .inr fun x hx => absurd hx List.not_mem_nil
  | cons x l ih =>
      rcases e : stop x with _ | _
      · rcases ih with ⟨pre, c, rest, rfl, hpre, hc⟩ | hall
        · refine .inl ⟨x :: pre, c, rest, rfl, ?_, hc⟩
          exact List.forall_mem_cons.mpr ⟨e, hpre⟩
        · exact .inr (List.forall_mem_cons.mpr ⟨e, hall⟩)
      · exact .inl ⟨[], x, l, rfl, fun y hy => absurd hy List.not_mem_nil, e⟩

/-! ### The operators -/

/-- What an arithmetic operator does. -/
def Pending.binary (p : Pending) (op : Op) : Pending :=
  let q := p.popWhileNot op.stop
  (if op.stop q.ch = true then q.push q.ch else q).push op.code

theorem Pending.operate_op (p : Pending) (op : Op) : p.operate op.byte = .ok (p.binary op) := by
  have hlow : ∀ ch, (ch = code '(') ↔ isParen ch = true := fun _ => isParen_iff.symm
  have hhigh : ∀ ch, (ch = code '(' ∨ ch = code '+' ∨ ch = code '-') ↔ isParenOrLow ch = true := by
    intro ch
    rw [isParenOrLow, Bool.or_eq_true, Bool.or_eq_true, beq_iff_eq, beq_iff_eq, beq_iff_eq, or_assoc]
  unfold operate binary
  cases op with
  | add | sub =>
      rw [if_neg (by decide), if_neg (by decide), if_pos (by decide)]
      simp only [hlow]
      rfl
  | mul | div =>
      rw [if_neg (by decide), if_neg (by decide), if_neg (by decide), if_pos (by decide)]
      simp only [hhigh]
      rfl

theorem Pending.operate_open (p : Pending) :
    p.operate (chr '(') = .ok (p.push (code '(')) := rfl

theorem Pending.operate_close (p : Pending) :
    p.operate (chr ')') =
      if (p.popWhileNot isParen).ch = code '(' then .ok (p.popWhileNot isParen)
      else .error (p.popWhileNot isParen) := by
  unfold operate
  rw [if_neg (by decide), if_pos rfl]
  simp only [ne_eq, ite_not]

/-- The characters that `main` does something with. -/
def IsKnown (c : UInt8) : Prop := c = chr '(' ∨ c = chr ')' ∨ ∃ op : Op, c = op.byte

theorem Pending.operate_unknown (p : Pending) {c : UInt8} (h : ¬ IsKnown c) :
    p.operate c = .ok p := by
  unfold operate
  rw [if_neg fun e => h (.inl e), if_neg fun e => h (.inr (.inl e)), if_neg, if_neg]
  · rintro (e | e)
    · exact h (.inr (.inr ⟨.mul, e⟩))
    · exact h (.inr (.inr ⟨.div, e⟩))
  · rintro (e | e)
    · exact h (.inr (.inr ⟨.add, e⟩))
    · exact h (.inr (.inr ⟨.sub, e⟩))

/-- An operator above an entry at which popping ends. -/
theorem Pending.binary_stop {p : Pending} {op : Op} {l rest : List ℤ} {c : ℤ}
    (hp : p.stack = l ++ c :: rest) (hl : ∀ x ∈ l, op.stop x = false) (hc : op.stop c = true)
    (hroom : rest.length < 16) :
    p.binary op = ⟨pushTo 16 (c :: rest) op.code, c, p.out ++ printed l⟩ := by
  rw [binary, popWhileNot_append hp hl hc]
  simp only [hc, if_true]
  unfold push
  simp only [pushTo, if_pos hroom]

/-- An operator above no such entry. -/
theorem Pending.binary_all {p : Pending} {op : Op} (hp : ∀ x ∈ p.stack, op.stop x = false)
    (hch : op.stop (p.stack.getLast?.getD p.ch) = false) :
    p.binary op = ⟨[op.code], p.stack.getLast?.getD p.ch, p.out ++ printed p.stack⟩ := by
  rw [binary, popWhileNot_all hp]
  simp only [hch, Bool.false_eq_true, if_false]
  rfl

/-! ### Runs with room on the stack -/

end ExpressionConvert

namespace Infix

/-- The operators of an expression that are still on the stack behind its last
token, the newest first. -/
def pend : Infix → List Op
  | operand _ | paren _ => []
  | bin op _ r => r.pend ++ [op]

/-- What is printed by then. -/
def emit : Infix → List (List UInt8)
  | operand w => [w]
  | paren e => e.emit ++ e.pend.map fun op => [op.byte]
  | bin _ l r => l.emit ++ (l.pend.map fun op => [op.byte]) ++ r.emit

theorem postfixForm_eq (e : Infix) :
    e.postfixForm = e.emit ++ e.pend.map fun op => [op.byte] := by
  induction e with
  | operand w => rfl
  | paren e ih =>
      show e.postfixForm = e.emit ++ _ ++ []
      rw [List.append_nil, ih]
  | bin op l r ihl ihr =>
      rw [postfixForm, ihl, ihr, emit, pend]
      simp only [List.map_append, List.map_cons, List.map_nil, List.append_assoc]

/-- How many entries the stack must have room for. -/
def need : Infix → ℕ
  | operand _ => 0
  | paren e => 1 + e.need
  | bin _ l r => max l.need (1 + r.need)

theorem prec_le_of_mem_pend {e : Infix} (h : e.WellFormed) : ∀ op ∈ e.pend, e.prec ≤ op.prec := by
  induction e with
  | operand w => exact fun op hop => absurd hop List.not_mem_nil
  | paren e _ => exact fun op hop => absurd hop List.not_mem_nil
  | bin op l r _ ihr =>
      intro op' hop'
      rcases List.mem_append.mp hop' with hmem | hmem
      · exact (h.2.2.2.le).trans (ihr h.2.1 op' hmem)
      · obtain rfl := List.mem_singleton.mp hmem
        exact le_rfl

/-- The entries for pending operators. -/
def pendCodes (e : Infix) : List ℤ := e.pend.map Op.code

theorem printed_pendCodes (e : Infix) :
    printed e.pendCodes = e.pend.map fun op => [op.byte] := by
  rw [printed, pendCodes, List.map_map]
  exact List.map_congr_left fun op _ => by rw [Function.comp_apply, Op.putchar_code]

theorem stop_pendCodes {e : Infix} (h : e.WellFormed) {op : Op} (hop : op.prec ≤ e.prec) :
    ∀ x ∈ e.pendCodes, op.stop x = false := by
  intro x hx
  obtain ⟨op', hop', rfl⟩ := List.mem_map.mp hx
  exact Op.stop_code_of_le (hop.trans (prec_le_of_mem_pend h op' hop'))

theorem isParen_pendCodes (e : Infix) : ∀ x ∈ e.pendCodes, isParen x = false := by
  intro x hx
  obtain ⟨op, -, rfl⟩ := List.mem_map.mp hx
  exact op.isParen_code

/-- The entry under an expression stops all of its operators. -/
def Stops (e : Infix) (stack : List ℤ) : Prop :=
  ∃ c rest, stack = c :: rest ∧
    (c = code '(' ∨ ∃ op : Op, c = op.code ∧ op.prec < e.prec)

theorem Stops.stop {op : Op} {l r : Infix} {c : ℤ}
    (hc : c = code '(' ∨ ∃ low : Op, c = low.code ∧ low.prec < (bin op l r).prec) :
    op.stop c = true := by
  rcases hc with rfl | ⟨low, rfl, hlow⟩
  · exact op.stop_paren
  · exact Op.stop_code_of_lt hlow

theorem Stops.mono {e e' : Infix} {stack : List ℤ} (h : e.Stops stack) (hle : e.prec ≤ e'.prec) :
    e'.Stops stack := by
  obtain ⟨c, rest, hstack, hc⟩ := h
  exact ⟨c, rest, hstack, hc.imp id fun ⟨low, hlow, hlt⟩ => ⟨low, hlow, hlt.trans_le hle⟩⟩

theorem stops_open (e : Infix) (stack : List ℤ) : e.Stops (CodeSnippet.code '(' :: stack) :=
  ⟨_, _, rfl, .inl rfl⟩

theorem stops_op {e : Infix} {op : Op} (h : op.prec < e.prec) (stack : List ℤ) :
    e.Stops (op.code :: stack) :=
  ⟨_, _, rfl, .inr ⟨op, rfl, h⟩⟩

end Infix

namespace ExpressionConvert

/-- An operator behind its left operand. -/
theorem operate_pend {l : Infix} (hl : l.WellFormed) {op : Op} (hop : op.prec ≤ l.prec)
    {stack rest : List ℤ} {c : ℤ} (hstack : stack = c :: rest) (hstop : op.stop c = true)
    (hroom : rest.length < 16) (ch : ℤ) (out : List (List UInt8)) :
    Pending.operate op.byte ⟨l.pendCodes ++ stack, ch, out⟩ =
      .ok ⟨pushTo 16 stack op.code, c, out ++ printed l.pendCodes⟩ := by
  rw [Pending.operate_op, Pending.binary_stop (congrArg (l.pendCodes ++ ·) hstack)
    (Infix.stop_pendCodes hl hop) hstop hroom, hstack]

/-- **Where there is room**, the tokens of an expression leave its pending
operators on the stack and print the rest; by induction on the expression. -/
theorem steps_infix {e : Infix} (h : e.WellFormed) {p : Pending} (hstops : e.Stops p.stack)
    (hroom : p.stack.length + e.need ≤ 16) :
    ∃ ch, p.steps e.tokens = .ok ⟨e.pendCodes ++ p.stack, ch, p.out ++ e.emit⟩ := by
  induction e generalizing p with
  | operand w => exact ⟨p.ch, rfl⟩
  | paren e ih =>
      rw [Infix.need] at hroom
      -- the opening parenthesis
      have hopen : p.step (.oper (chr '(')) = .ok ⟨code '(' :: p.stack, p.ch, p.out⟩ := by
        show p.operate (chr '(') = _
        rw [Pending.operate_open, Pending.push, pushTo, if_pos (by omega)]
      obtain ⟨ch, hinner⟩ := ih h (p := ⟨code '(' :: p.stack, p.ch, p.out⟩)
        (e.stops_open p.stack) (by rw [List.length_cons]; omega)
      refine ⟨code '(', Pending.steps_paren_iff.mpr ⟨_, _, hopen, hinner, ?_⟩⟩
      -- the closing one prints what is pending
      show Pending.operate _ _ = _
      rw [Pending.operate_close, Pending.popWhileNot,
        popEntries_append e.isParen_pendCodes rfl, if_pos rfl, Infix.printed_pendCodes,
        List.append_assoc]
      rfl
  | bin op l r ihl ihr =>
      obtain ⟨hl, hr, hopl, hopr⟩ := h
      have hstopsl : l.Stops p.stack := hstops.mono hopl
      obtain ⟨c, rest, hstack, hc⟩ := hstops
      have hstop := Infix.Stops.stop hc
      rw [Infix.need] at hroom
      have hlen : p.stack.length = rest.length + 1 := by rw [hstack, List.length_cons]
      obtain ⟨ch₁, h₁⟩ := ihl hl hstopsl (by omega)
      have h₂ : Pending.step ⟨l.pendCodes ++ p.stack, ch₁, p.out ++ l.emit⟩ (.oper op.byte) =
          .ok ⟨op.code :: p.stack, c, p.out ++ l.emit ++ printed l.pendCodes⟩ := by
        show Pending.operate _ _ = _
        rw [operate_pend hl hopl hstack hstop (by omega), pushTo, if_pos (by omega)]
      obtain ⟨ch₃, h₃⟩ := ihr hr
        (p := ⟨op.code :: p.stack, c, p.out ++ l.emit ++ printed l.pendCodes⟩)
        (Infix.stops_op hopr p.stack) (by rw [List.length_cons]; omega)
      refine ⟨ch₃, Pending.steps_bin_iff.mpr ⟨_, _, h₁, h₂, ?_⟩⟩
      rw [h₃, Infix.printed_pendCodes, Infix.pendCodes, Infix.pendCodes, Infix.pend, Infix.emit,
        List.map_append, List.append_assoc, List.append_assoc, List.append_assoc]
      simp only [List.append_assoc, List.map_cons, List.map_nil, List.cons_append, List.nil_append]

/-! ### Entries at the bottom -/

theorem getLast?_pushTo {l : List ℤ} (hl : l ≠ []) (x : ℤ) :
    (pushTo 16 l x).getLast? = l.getLast? := by
  obtain ⟨c, rest, rfl⟩ := List.exists_cons_of_ne_nil hl
  unfold pushTo
  split
  · exact List.getLast?_cons_cons
  · rfl

theorem length_pushTo_le {l : List ℤ} (hl : l.length ≤ 16) (x : ℤ) :
    (pushTo 16 l x).length ≤ 16 := by
  unfold pushTo
  split
  · rw [List.length_cons]
    omega
  · exact hl

/-- An input character that is read as an operator, by what `main` does
with it. -/
theorem known_cases (c : UInt8) :
    c = chr '(' ∨ c = chr ')' ∨ (∃ op : Op, c = op.byte) ∨ ¬ IsKnown c := by
  by_cases h : IsKnown c
  · rcases h with h | h | h
    · exact .inl h
    · exact .inr (.inl h)
    · exact .inr (.inr (.inl h))
  · exact .inr (.inr (.inr h))

/-! ### Jammed states -/

/-- A parenthesis lies at the bottom of the stack, or has just been popped from
there. -/
structure Pending.Jammed (p : Pending) : Prop where
  bottom : (p.stack = [] ∧ p.ch = code '(') ∨ p.stack.getLast? = some (code '(')
  le : p.stack.length ≤ 16

/-- Popping in a jammed state ends at an entry that stops it. -/
theorem Pending.Jammed.exists_append {p : Pending} (h : p.Jammed) {stop : ℤ → Bool}
    (hstop : stop (code '(') = true) (hne : p.stack ≠ []) :
    ∃ pre c rest, p.stack = pre ++ c :: rest ∧ (∀ x ∈ pre, stop x = false) ∧ stop c = true ∧
      rest.length < 16 ∧ (c :: rest).getLast? = some (code '(') := by
  rcases h.bottom with ⟨hnil, -⟩ | hlast
  · exact absurd hnil hne
  · rcases exists_stop stop p.stack with ⟨pre, c, rest, hsplit, hpre, hc⟩ | hall
    · have hle := h.le
      rw [hsplit, List.length_append, List.length_cons] at hle
      rw [hsplit, List.getLast?_append_cons] at hlast
      exact ⟨pre, c, rest, hsplit, hpre, hc, by omega, hlast⟩
    · have hno := hall _ (List.mem_of_getLast? hlast)
      rw [hstop] at hno
      cases hno

/-- With nothing on the stack, `ch` holds the parenthesis. -/
theorem Pending.Jammed.ch_of_nil {p : Pending} (h : p.Jammed) (hnil : p.stack = []) :
    p.ch = code '(' := by
  rcases h.bottom with ⟨-, hch⟩ | hlast
  · exact hch
  · rw [hnil] at hlast
    cases hlast

theorem Pending.Jammed.push {p : Pending} (h : p.Jammed) : (p.push (code '(')).Jammed := by
  refine ⟨.inr ?_, length_pushTo_le h.le _⟩
  show (pushTo 16 p.stack (code '(')).getLast? = some (code '(')
  by_cases hnil : p.stack = []
  · -- the parenthesis is the first entry
    rw [hnil]
    rfl
  · rw [getLast?_pushTo hnil]
    exact h.bottom.resolve_left fun hbottom => hnil hbottom.1

/-- A closing parenthesis finds one, on the stack or in `ch`. -/
theorem Pending.Jammed.close {p : Pending} (h : p.Jammed) :
    ∃ q, p.operate (chr ')') = .ok q ∧ q.Jammed := by
  rw [operate_close]
  by_cases hnil : p.stack = []
  · rw [popWhileNot_nil hnil, if_pos (h.ch_of_nil hnil)]
    exact ⟨_, rfl, .inl ⟨rfl, h.ch_of_nil hnil⟩, Nat.zero_le _⟩
  · obtain ⟨pre, c, rest, hsplit, hpre, hc, hlt, hlast⟩ :=
      h.exists_append (isParen_iff.mpr rfl) hnil
    rw [popWhileNot_append hsplit hpre hc, if_pos (isParen_iff.mp hc)]
    refine ⟨_, rfl, ?_, hlt.le⟩
    cases rest with
    | nil => exact .inl ⟨rfl, isParen_iff.mp hc⟩
    | cons d rest => exact .inr (List.getLast?_cons_cons.symm.trans hlast)

/-- An operator pushes the parenthesis back. -/
theorem Pending.Jammed.binary {p : Pending} (h : p.Jammed) (op : Op) : (p.binary op).Jammed := by
  by_cases hnil : p.stack = []
  · have hbinary : p.binary op = ⟨[op.code, code '('], code '(', p.out⟩ := by
      rw [Pending.binary, popWhileNot_nil hnil, h.ch_of_nil hnil]
      simp only [op.stop_paren, if_true]
      rfl
    rw [hbinary]
    exact ⟨.inr rfl, Nat.le_of_ble_eq_true rfl⟩
  · obtain ⟨pre, c, rest, hsplit, hpre, hc, hlt, hlast⟩ := h.exists_append op.stop_paren hnil
    rw [binary_stop hsplit hpre hc hlt]
    refine ⟨.inr ?_, length_pushTo_le (by rw [List.length_cons]; omega) _⟩
    exact (getLast?_pushTo (List.cons_ne_nil _ _) _).trans hlast

/-- **A jam is for ever**: no lexeme leads to an error or out of it. -/
theorem Pending.Jammed.step {p : Pending} (h : p.Jammed) (l : Lexeme) :
    ∃ q, p.step l = .ok q ∧ q.Jammed := by
  cases l with
  | operand w => exact ⟨_, rfl, h.bottom, h.le⟩
  | oper c =>
      show ∃ q, p.operate c = .ok q ∧ q.Jammed
      rcases known_cases c with rfl | rfl | ⟨op, rfl⟩ | hunknown
      · exact ⟨_, operate_open p, h.push⟩
      · exact h.close
      · exact ⟨_, operate_op p op, h.binary op⟩
      · exact ⟨p, operate_unknown p hunknown, h⟩

theorem Pending.Jammed.steps {p : Pending} (h : p.Jammed) (ls : List Lexeme) :
    ∃ q, p.steps ls = .ok q ∧ q.Jammed := by
  induction ls generalizing p with
  | nil => exact ⟨p, rfl, h⟩
  | cons l ls ih =>
      obtain ⟨q, hq, hjam⟩ := h.step l
      obtain ⟨r, hr, hjam⟩ := ih hjam
      exact ⟨r, steps_cons_iff.mpr ⟨q, hq, hr⟩, hjam⟩

/-- A jam ends at the error exit. -/
theorem Pending.Jammed.finish {p : Pending} (h : p.Jammed) : ∃ out, p.finish = err out := by
  unfold Pending.finish
  by_cases hnil : p.stack = []
  · rw [popWhileNot_nil hnil]
    exact ⟨_, if_pos (h.ch_of_nil hnil)⟩
  · obtain ⟨pre, c, rest, hsplit, hpre, hc, -, -⟩ := h.exists_append (isParen_iff.mpr rfl) hnil
    rw [popWhileNot_append hsplit hpre hc]
    exact ⟨_, if_pos (isParen_iff.mp hc)⟩

/-! ### Busy states -/

/-- An operator lies at the bottom of the stack. -/
structure Pending.Busy (p : Pending) : Prop where
  bottom : ∃ op : Op, p.stack.getLast? = some op.code
  le : p.stack.length ≤ 16

/-- What is printed and what is on the stack. -/
def Pending.size (p : Pending) : ℕ := p.out.length + p.stack.length

/-- The parentheses on the stack. -/
def Pending.opened (p : Pending) : ℕ := p.stack.count (code '(')

/-- What a lexeme adds to the size, if nothing is lost. -/
def Lexeme.gain : Lexeme → ℤ
  | .operand _ => 1
  | .oper c =>
      if c = chr '(' then 1 else if c = chr ')' then -1
      else if c = chr '+' ∨ c = chr '-' ∨ c = chr '*' ∨ c = chr '/' then 1 else 0

/-- What a lexeme adds to the open parentheses, if it is not lost. -/
def Lexeme.opens : Lexeme → ℤ
  | .operand _ => 0
  | .oper c => if c = chr '(' then 1 else if c = chr ')' then -1 else 0

theorem Lexeme.gain_open : (Lexeme.oper (chr '(')).gain = 1 := rfl

theorem Lexeme.gain_close : (Lexeme.oper (chr ')')).gain = -1 := rfl

theorem Lexeme.opens_open : (Lexeme.oper (chr '(')).opens = 1 := rfl

theorem Lexeme.opens_close : (Lexeme.oper (chr ')')).opens = -1 := rfl

theorem Lexeme.gain_op (op : Op) : (Lexeme.oper op.byte).gain = 1 := by
  cases op <;> rfl

theorem Lexeme.opens_op (op : Op) : (Lexeme.oper op.byte).opens = 0 := by
  cases op <;> rfl

theorem Lexeme.gain_unknown {c : UInt8} (h : ¬ IsKnown c) : (Lexeme.oper c).gain = 0 := by
  unfold gain
  simp only
  rw [if_neg fun e => h (.inl e), if_neg fun e => h (.inr (.inl e)), if_neg]
  rintro (e | e | e | e)
  · exact h (.inr (.inr ⟨.add, e⟩))
  · exact h (.inr (.inr ⟨.sub, e⟩))
  · exact h (.inr (.inr ⟨.mul, e⟩))
  · exact h (.inr (.inr ⟨.div, e⟩))

theorem Lexeme.opens_unknown {c : UInt8} (h : ¬ IsKnown c) : (Lexeme.oper c).opens = 0 := by
  unfold opens
  simp only
  rw [if_neg fun e => h (.inl e), if_neg fun e => h (.inr (.inl e))]

theorem Pending.Busy.ne_nil {p : Pending} (h : p.Busy) : p.stack ≠ [] := by
  obtain ⟨op, hop⟩ := h.bottom
  intro hnil
  rw [hnil] at hop
  cases hop

theorem Pending.Busy.bottom_ne {p : Pending} (h : p.Busy) :
    p.stack.getLast? ≠ some (code '(') := by
  obtain ⟨op, hop⟩ := h.bottom
  rw [hop]
  intro e
  exact op.code_ne_paren (Option.some.inj e)

/-- Where no entry stops the popping, the last one popped does not either. -/
theorem getLast?_getD_stop {stop : ℤ → Bool} {l : List ℤ} (hl : ∀ x ∈ l, stop x = false)
    (hne : l ≠ []) (ch : ℤ) : stop (l.getLast?.getD ch) = false := by
  rw [List.getLast?_eq_some_getLast hne, Option.getD_some]
  exact hl _ (List.getLast_mem hne)

theorem count_pushTo_le (l : List ℤ) : (pushTo 16 l (code '(')).count (code '(') ≤
    l.count (code '(') + 1 := by
  unfold pushTo
  split
  · rw [List.count_cons_self]
  · exact Nat.le_succ _

theorem count_pushTo_op (l : List ℤ) (op : Op) :
    (pushTo 16 l op.code).count (code '(') = l.count (code '(') := by
  unfold pushTo
  split
  · exact List.count_cons_of_ne op.code_ne_paren
  · rfl

theorem length_pushTo_le_succ (l : List ℤ) (x : ℤ) : (pushTo 16 l x).length ≤ l.length + 1 := by
  unfold pushTo
  split
  · exact le_rfl
  · exact Nat.le_succ _

/-- An operator in a busy state, by what is under the entries it pops. -/
theorem Pending.Busy.binary_cases {p : Pending} (h : p.Busy) (op : Op) :
    (∃ pre c rest, p.stack = pre ++ c :: rest ∧ (∀ x ∈ pre, op.stop x = false) ∧
      op.stop c = true ∧ p.binary op = ⟨pushTo 16 (c :: rest) op.code, c, p.out ++ printed pre⟩) ∨
    ((∀ x ∈ p.stack, op.stop x = false) ∧
      p.binary op = ⟨[op.code], p.stack.getLast?.getD p.ch, p.out ++ printed p.stack⟩) := by
  rcases exists_stop op.stop p.stack with ⟨pre, c, rest, hsplit, hpre, hc⟩ | hall
  · have hle := h.le
    rw [hsplit, List.length_append, List.length_cons] at hle
    exact .inl ⟨pre, c, rest, hsplit, hpre, hc, binary_stop hsplit hpre hc (by omega)⟩
  · exact .inr ⟨hall, binary_all hall (getLast?_getD_stop hall h.ne_nil p.ch)⟩

/-- A closing parenthesis in a busy state. -/
theorem Pending.Busy.close_cases {p : Pending} (h : p.Busy) :
    (∃ pre rest, p.stack = pre ++ code '(' :: rest ∧ (∀ x ∈ pre, isParen x = false) ∧
      rest ≠ [] ∧ p.operate (chr ')') = .ok ⟨rest, code '(', p.out ++ printed pre⟩) ∨
    ((∀ x ∈ p.stack, isParen x = false) ∧ ∃ q, p.operate (chr ')') = .error q) := by
  rw [operate_close]
  rcases exists_stop isParen p.stack with ⟨pre, c, rest, hsplit, hpre, hc⟩ | hall
  · left
    obtain rfl := isParen_iff.mp hc
    rw [popWhileNot_append hsplit hpre hc, if_pos rfl]
    refine ⟨pre, rest, hsplit, hpre, ?_, rfl⟩
    rintro rfl
    apply h.bottom_ne
    rw [hsplit, List.getLast?_append_cons]
    rfl
  · right
    have hlast := getLast?_getD_stop hall h.ne_nil p.ch
    refine ⟨hall, ⟨[], p.stack.getLast?.getD p.ch, p.out ++ printed p.stack⟩, ?_⟩
    rw [popWhileNot_all hall, if_neg]
    intro e
    rw [show isParen (p.stack.getLast?.getD p.ch) = true from isParen_iff.mpr e] at hlast
    cases hlast

theorem count_eq_zero_of_isParen {l : List ℤ} (h : ∀ x ∈ l, isParen x = false) :
    l.count (code '(') = 0 := by
  apply List.count_eq_zero.mpr
  intro hmem
  have hno := h _ hmem
  rw [isParen_iff.mpr rfl] at hno
  cases hno

theorem Pending.Busy.push {p : Pending} (h : p.Busy) :
    (p.push (code '(')).Busy ∧ (p.push (code '(')).size ≤ p.size + 1 ∧
      (p.push (code '(')).opened ≤ p.opened + 1 := by
  refine ⟨⟨?_, length_pushTo_le h.le _⟩, ?_, count_pushTo_le p.stack⟩
  · obtain ⟨op, hop⟩ := h.bottom
    exact ⟨op, (getLast?_pushTo h.ne_nil _).trans hop⟩
  · exact Nat.add_le_add_left (length_pushTo_le_succ p.stack (code '(')) p.out.length

/-- A closing parenthesis takes the last open one off the stack. -/
theorem Pending.Busy.close {p q : Pending} (h : p.Busy) (hq : p.operate (chr ')') = .ok q) :
    q.Busy ∧ q.size + 1 ≤ p.size ∧ q.opened + 1 ≤ p.opened := by
  rcases h.close_cases with ⟨pre, rest, hsplit, hpre, hne, hok⟩ | ⟨-, r, herr⟩
  · obtain rfl := Except.ok.inj (hok.symm.trans hq)
    have hlast : p.stack.getLast? = rest.getLast? := by
      obtain ⟨c, rest, rfl⟩ := List.exists_cons_of_ne_nil hne
      rw [hsplit, List.getLast?_append_cons, List.getLast?_cons_cons]
    have hle := h.le
    have hlen := congrArg List.length hsplit
    rw [List.length_append, List.length_cons] at hlen
    refine ⟨⟨?_, show rest.length ≤ 16 by omega⟩, ?_, ?_⟩
    · obtain ⟨op, hop⟩ := h.bottom
      exact ⟨op, hlast.symm.trans hop⟩
    · show (p.out ++ printed pre).length + rest.length + 1 ≤ p.out.length + p.stack.length
      rw [List.length_append, printed_length]
      omega
    · show rest.count (code '(') + 1 ≤ p.stack.count (code '(')
      rw [hsplit, List.count_append, List.count_cons_self]
      exact Nat.le_add_left _ _
  · rw [herr] at hq
    cases hq

/-- An operator takes the place of the entries it prints. -/
theorem Pending.Busy.binary {p : Pending} (h : p.Busy) (op : Op) :
    (p.binary op).Busy ∧ (p.binary op).size ≤ p.size + 1 ∧ (p.binary op).opened ≤ p.opened := by
  rcases h.binary_cases op with ⟨pre, c, rest, hsplit, -, -, hbinary⟩ | ⟨hall, hbinary⟩
  · -- the entry that stops the popping stays under the operator
    rw [hbinary]
    have hle := h.le
    have hlen := congrArg List.length hsplit
    have hpush := length_pushTo_le_succ (c :: rest) op.code
    rw [List.length_append] at hlen
    refine ⟨⟨?_, length_pushTo_le (by omega) _⟩, ?_, ?_⟩
    · obtain ⟨op', hop'⟩ := h.bottom
      refine ⟨op', (getLast?_pushTo (List.cons_ne_nil _ _) _).trans ?_⟩
      rw [← hop', hsplit, List.getLast?_append_cons]
    · show (p.out ++ printed pre).length + (pushTo 16 (c :: rest) op.code).length ≤
        p.out.length + p.stack.length + 1
      rw [List.length_append, printed_length]
      omega
    · show (pushTo 16 (c :: rest) op.code).count (code '(') ≤ p.stack.count (code '(')
      rw [count_pushTo_op, hsplit, List.count_append]
      exact Nat.le_add_left _ _
  · -- everything is printed, and the operator is the only entry
    rw [hbinary]
    refine ⟨⟨⟨op, rfl⟩, Nat.le_of_ble_eq_true rfl⟩, ?_, ?_⟩
    · show (p.out ++ printed p.stack).length + 1 ≤ p.out.length + p.stack.length + 1
      rw [List.length_append, printed_length]
    · show [op.code].count (code '(') ≤ p.stack.count (code '(')
      rw [List.count_cons_of_ne op.code_ne_paren, List.count_nil]
      exact Nat.zero_le _

/-- **A busy state stays busy** until an error, and no step adds more to its
size or its open parentheses than the lexeme does. -/
theorem Pending.Busy.step {p q : Pending} {l : Lexeme} (h : p.Busy) (hq : p.step l = .ok q) :
    q.Busy ∧ (q.size : ℤ) ≤ p.size + l.gain ∧ (q.opened : ℤ) ≤ p.opened + l.opens := by
  cases l with
  | operand w =>
      obtain rfl := Except.ok.inj (show Except.ok _ = Except.ok q from hq)
      refine ⟨⟨h.bottom, h.le⟩, ?_, ?_⟩
      · show (((p.out ++ [w]).length + p.stack.length : ℕ) : ℤ) ≤ p.size + 1
        rw [List.length_append, List.length_singleton, size]
        omega
      · exact (add_zero (p.opened : ℤ)).ge
  | oper c =>
      have hq : p.operate c = .ok q := hq
      rcases known_cases c with rfl | rfl | ⟨op, rfl⟩ | hunknown
      · obtain rfl := Except.ok.inj ((operate_open p).symm.trans hq)
        obtain ⟨hbusy, hsize, hopened⟩ := h.push
        rw [Lexeme.gain_open, Lexeme.opens_open]
        exact ⟨hbusy, by exact_mod_cast hsize, by exact_mod_cast hopened⟩
      · obtain ⟨hbusy, hsize, hopened⟩ := h.close hq
        rw [Lexeme.gain_close, Lexeme.opens_close]
        exact ⟨hbusy, by omega, by omega⟩
      · obtain rfl := Except.ok.inj ((operate_op p op).symm.trans hq)
        obtain ⟨hbusy, hsize, hopened⟩ := h.binary op
        rw [Lexeme.gain_op, Lexeme.opens_op, add_zero]
        exact ⟨hbusy, by exact_mod_cast hsize, by exact_mod_cast hopened⟩
      · obtain rfl := Except.ok.inj ((operate_unknown p hunknown).symm.trans hq)
        rw [Lexeme.gain_unknown hunknown, Lexeme.opens_unknown hunknown, add_zero, add_zero]
        exact ⟨h, le_rfl, le_rfl⟩

/-- What a list of lexemes adds to the size. -/
def gains (ls : List Lexeme) : ℤ := (ls.map Lexeme.gain).sum

/-- What it adds to the open parentheses. -/
def opensOf (ls : List Lexeme) : ℤ := (ls.map Lexeme.opens).sum

/-- The same for a run. -/
theorem Pending.Busy.steps {p q : Pending} {ls : List Lexeme} (h : p.Busy)
    (hq : p.steps ls = .ok q) :
    q.Busy ∧ (q.size : ℤ) ≤ p.size + gains ls ∧ (q.opened : ℤ) ≤ p.opened + opensOf ls := by
  induction ls generalizing p with
  | nil =>
      cases hq
      exact ⟨h, by simp [gains], by simp [opensOf]⟩
  | cons l ls ih =>
      obtain ⟨r, hr, hq⟩ := steps_cons_iff.mp hq
      obtain ⟨hbusy, hsize, hopened⟩ := h.step hr
      obtain ⟨hbusy', hsize', hopened'⟩ := ih hbusy hq
      rw [gains] at hsize' ⊢
      rw [opensOf] at hopened' ⊢
      rw [List.map_cons, List.sum_cons, List.map_cons, List.sum_cons]
      exact ⟨hbusy', by omega, by omega⟩

/-- The end of a busy run: the error exit if a parenthesis is open, else
everything is printed. -/
theorem Pending.Busy.finish {p : Pending} (h : p.Busy) :
    (0 < p.opened ∧ ∃ out, p.finish = err out) ∨
    (p.opened = 0 ∧ p.finish = ⟨0, p.out ++ printed p.stack ++ [bytes "\n"]⟩) := by
  unfold Pending.finish
  rcases exists_stop isParen p.stack with ⟨pre, c, rest, hsplit, hpre, hc⟩ | hall
  · left
    obtain rfl := isParen_iff.mp hc
    rw [popWhileNot_append hsplit hpre hc]
    refine ⟨?_, _, if_pos rfl⟩
    rw [opened, hsplit]
    exact List.count_pos_iff.mpr (List.mem_append_right _ (List.mem_cons_self ..))
  · right
    have hlast := getLast?_getD_stop hall h.ne_nil p.ch
    refine ⟨count_eq_zero_of_isParen hall, ?_⟩
    rw [popWhileNot_all hall]
    apply if_neg
    intro e
    have e : p.stack.getLast?.getD p.ch = code '(' := e
    rw [e] at hlast
    cases hlast

end ExpressionConvert

end CodeSnippet
