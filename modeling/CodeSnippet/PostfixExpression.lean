/-
CodeSnippet/PostfixExpression.lean

The evaluator of src/algorithm/stack/app/postfixExpression.c: it keeps the
operands on a stack of 16 integers, and the return codes of the stack are
ignored.

Main results:
  * `mainLoop_line` — on a line it is a stack machine.
  * `postfixExpression_eq` — with at most 16 operands waiting it prints the
    value.
-/
import CodeSnippet.PostfixLine
import CodeSnippet.SeqStack

namespace CodeSnippet

open Memory Postfix

namespace PostfixExpression

/-! ### The token reader -/

/-- Return value of `getop`. -/
inductive OpType
  | endOfInput
  | number
  | operator
  deriving DecidableEq

def getop (s : Block UInt8) (inp : List UInt8) : Option (OpType × Block UInt8 × List UInt8) := do
  let (s, _, inp) ← skipBlanks s inp
  let c ← s.load 0
  if c = eofByte then
    let s ← s.store 1 0
    return (.endOfInput, s, inp)
  else if isdigit c then
    let (s, inp) ← readOperand isdigit s inp
    return (.number, s, inp)
  else
    let s ← s.store 1 0
    return (.operator, s, inp)

/-! ### The program -/

/-- The local variables of `main`, and what was printed. -/
structure State where
  stack : SeqStack
  op1 : ℤ
  op2 : ℤ
  out : List ℤ

def State.push (st : State) (data : ℤ) : State :=
  { st with stack := (stackPush st.stack data).2 }

/-- `stack_pop(stack, &op2); stack_pop(stack, &op1); stack_push(stack, op1 . op2);` -/
def binary (f : ℤ → ℤ → Option ℤ) (st : State) : Option State := do
  let (_, stack, op2) := stackPop st.stack st.op2
  let (_, stack, op1) := stackPop stack st.op1
  let v ← f op1 op2
  return State.push ⟨stack, op1, op2, st.out⟩ v

/-- The operators, by `s[0]`. -/
def operate (c : UInt8) (st : State) : Option State :=
  if c = chr '+' then binary (fun op1 op2 => checkedInt (op1 + op2)) st
  else if c = chr '-' then binary (fun op1 op2 => checkedInt (op1 - op2)) st
  else if c = chr '*' then binary (fun op1 op2 => checkedInt (op1 * op2)) st
  else if c = chr '/' then binary checkedDiv st
  else if c = chr '\n' then
    let (_, stack, op1) := stackPop st.stack st.op1
    some ⟨stack, op1, st.op2, st.out ++ [op1]⟩
  else
    -- the message goes to stderr
    some st

/-- `while ((optype = getop(s)) != END)`. -/
def mainLoop : ℕ → Block UInt8 → State → List UInt8 → Option (List ℤ)
  | 0, _, _, _ => none
  | fuel + 1, s, st, inp => do
      let (optype, s, inp) ← getop s inp
      match optype with
      | .endOfInput => return st.out
      | .number => mainLoop fuel s (st.push (atoi (cString s))) inp
      | .operator =>
          let c ← s.load 0
          let st ← operate c st
          mainLoop fuel s st inp

/-- `main`, with what `s`, `op1` and `op2` happen to hold at the start: the
numbers that it prints.  Every call of `getop` but the last takes a byte. -/
def postfixExpression (s : ℕ → UInt8) (op1 op2 : ℤ) (inp : List UInt8) : Option (List ℤ) :=
  mainLoop (inp.length + 1) ⟨8, s⟩ ⟨stackInit 16, op1, op2, []⟩ inp

/-! ### Reading a line -/

/-- A character that is no operand. -/
theorem getop_operator {s : Block UInt8} (hs : s.size = 8) {b : List UInt8} {c : UInt8}
    (hb : ∀ d ∈ b, isblank d = true) (hblank : isblank c = false) (hdigit : isdigit c = false)
    (heof : c ≠ eofByte) (rest : List UInt8) :
    ∃ s', getop s (b ++ c :: rest) = some (.operator, s', rest) ∧ s'.size = 8 ∧ s'.cell 0 = c := by
  obtain ⟨s₁, hskip, hsize, hcell⟩ := skipBlanks_text (show 0 < s.size by omega) hb hblank rest
  refine ⟨s₁.set 1 0, ?_, hsize.trans hs, ?_⟩
  · rw [getop, hskip]
    simp only [Option.bind_eq_bind, Option.bind_some]
    rw [Block.load_eq (by omega), Option.bind_some, hcell, if_neg heof,
      if_neg (ne_true_of_eq_false hdigit), Block.store_eq (by omega)]
    rfl
  · rw [Block.set_cell, if_neg Nat.zero_ne_one, hcell]

/-- A number. -/
theorem getop_number {s : Block UInt8} (hs : s.size = 8) {b w rest : List UInt8}
    (hb : ∀ d ∈ b, isblank d = true) (hw : IsNumber w)
    (hrest : ∀ c ∈ rest.head?, isdigit c = false ∧ c ≠ eofByte) :
    ∃ s', getop s (b ++ (w ++ rest)) = some (.number, s', rest) ∧ s'.size = 8 ∧ cString s' = w := by
  obtain ⟨hne, hlen, hdigits⟩ := hw
  obtain ⟨c, w, rfl⟩ := List.exists_cons_of_ne_nil hne
  have hc := hdigits c (List.mem_cons_self ..)
  have heof : c ≠ eofByte := by
    rintro rfl
    exact absurd hc (by decide)
  obtain ⟨s₁, hskip, hsize, hcell⟩ := skipBlanks_text (show 0 < s.size by omega) hb
    (ExpressionConvert.isblank_eq_false_of_isdigit hc) (w ++ rest)
  obtain ⟨htake, hdrop⟩ :=
    ExpressionConvert.run_append (fun d hd => hdigits d (List.mem_cons_of_mem _ hd)) hrest
  have hread := readOperand_spec (show isdigit 0 = false from rfl) (hsize.trans hs)
    (hcell.symm ▸ hc) (w ++ rest)
  rw [hcell, htake, hdrop, if_pos hlen] at hread
  obtain ⟨s', hread, hsize', hstring⟩ := hread
  refine ⟨s', ?_, hsize', hstring⟩
  rw [getop, List.cons_append, hskip]
  simp only [Option.bind_eq_bind, Option.bind_some]
  rw [Block.load_eq (by omega), Option.bind_some, hcell, if_neg heof, if_pos hc]
  show (readOperand isdigit s₁ (w ++ rest)).bind _ = _
  rw [hread]
  rfl

theorem getop_end {s : Block UInt8} (hs : s.size = 8) :
    ∃ s', getop s [] = some (.endOfInput, s', []) := by
  refine ⟨(s.set 0 eofByte).set 1 0, ?_⟩
  rw [getop, skipBlanks, Block.store_eq (by omega)]
  simp only [Option.bind_eq_bind, Option.bind_some, Option.pure_def]
  rw [Block.load_eq (by rw [Block.set_size]; omega), Option.bind_some, Block.set_cell, if_pos rfl,
    if_pos rfl, Block.store_eq (by rw [Block.set_size]; omega)]
  rfl

/-! ### The stack machine -/

/-- The program as a stack machine: an operand that is missing is the one of
the operation before. -/
def machine : Machine (List UInt8) Op ℤ where
  cap := 16
  num := decimal
  op := Op.apply
  miss := id

/-- The state of `main` as a state of the machine. -/
def State.machine (st : State) : Postfix.State ℤ := ⟨st.stack.contents, st.op1, st.op2⟩

theorem eval_eq_value (e : PostfixExpr) : machine.eval e = e.value := by
  induction e with
  | num w => rfl
  | bin op l r ihl ihr => rw [Machine.eval, ihl, ihr, PostfixExpr.value]; rfl

theorem push_machine {st : State} (hmax : st.stack.max = 16) (data : ℤ) :
    (st.push data).machine = { st.machine with stack := pushTo 16 st.machine.stack data } ∧
      (st.push data).stack.max = 16 := by
  obtain ⟨hcontents, hkeep⟩ := stackPush_contents st.stack data
  rw [hmax] at hcontents hkeep
  exact ⟨congrArg (Postfix.State.mk · st.op1 st.op2) hcontents, hkeep⟩

/-- An operator is a step of the machine. -/
theorem operate_op {st : State} (hmax : st.stack.max = 16) (op : Op) :
    (∀ m, machine.step st.machine (.op op) = some m →
      ∃ st', operate op.byte st = some st' ∧ st'.machine = m ∧ st'.stack.max = 16 ∧
        st'.out = st.out) ∧
    (machine.step st.machine (.op op) = none → operate op.byte st = none) := by
  have hoperate : operate op.byte st = binary op.apply st := by
    cases op <;> rfl
  obtain ⟨hstack₁, hop2, hmax₁⟩ := stackPop_contents st.stack st.op2
  obtain ⟨hstack₂, hop1, hmax₂⟩ := stackPop_contents (stackPop st.stack st.op2).2.1 st.op1
  rw [hstack₁] at hstack₂ hop1
  have hstep : machine.step st.machine (.op op) =
      (op.apply (st.stack.contents.tail.headD st.op1) (st.stack.contents.headD st.op2)).map
        fun v => ⟨pushTo 16 st.stack.contents.tail.tail v, st.stack.contents.tail.headD st.op1,
          st.stack.contents.headD st.op2⟩ := rfl
  rw [hoperate, hstep, binary]
  simp only [hop1, hop2]
  rcases happly : op.apply (st.stack.contents.tail.headD st.op1) (st.stack.contents.headD st.op2)
    with _ | v
  · refine ⟨fun m hm => ?_, fun _ => rfl⟩
    cases hm
  · refine ⟨fun m hm => ?_, fun hnone => ?_⟩
    · obtain rfl := Option.some.inj hm
      set st' : State := ⟨(stackPop (stackPop st.stack st.op2).2.1 st.op1).2.1,
        st.stack.contents.tail.headD st.op1, st.stack.contents.headD st.op2, st.out⟩ with hst'
      obtain ⟨hpush, hkeep⟩ := push_machine
        (show st'.stack.max = 16 from hmax₂.trans (hmax₁.trans hmax)) v
      refine ⟨_, rfl, hpush.trans ?_, hkeep, rfl⟩
      show (⟨pushTo 16 st'.stack.contents v, _, _⟩ : Postfix.State ℤ) = _
      rw [hst', hstack₂]
      rfl
    · cases hnone

/-- **On a line the program is the machine**, and prints what is on top of the
stack in the end. -/
theorem mainLoop_line {ts : List (Token (List UInt8) Op)} {text : List UInt8} (h : Line ts text)
    (hts : Numbers ts) {fuel : ℕ} (hfuel : text.length < fuel) {s : Block UInt8} (hs : s.size = 8)
    {st : State} (hmax : st.stack.max = 16) :
    mainLoop fuel s st text =
      (machine.run st.machine ts).map fun m => st.out ++ [m.stack.headD m.left] := by
  induction h generalizing fuel s st with
  | @newline b hb =>
      obtain ⟨fuel, rfl⟩ := Nat.exists_eq_add_of_lt hfuel
      obtain ⟨s', hget, hs', hcell⟩ :=
        getop_operator hs hb (c := chr '\n') rfl rfl (by decide) []
      obtain ⟨-, hop1, -⟩ := stackPop_contents st.stack st.op1
      obtain ⟨s'', hend⟩ := getop_end hs'
      have hoperate : operate (chr '\n') st = some ⟨(stackPop st.stack st.op1).2.1,
          (stackPop st.stack st.op1).2.2, st.op2, st.out ++ [(stackPop st.stack st.op1).2.2]⟩ := rfl
      rw [List.length_append, List.length_singleton, mainLoop, hget]
      simp only [Option.bind_eq_bind, Option.bind_some]
      rw [Block.load_eq (by omega), Option.bind_some, hcell, hoperate, Option.bind_some,
        show b.length + 1 + fuel = (b.length + fuel) + 1 by omega, mainLoop, hend, hop1]
      rfl
  | @num b w ts text hb hnext h ih =>
      obtain ⟨fuel, rfl⟩ := Nat.exists_eq_add_of_lt hfuel
      have hw := hts w (List.mem_cons_self ..)
      have hts' : Numbers ts := fun w' hw' => hts w' (List.mem_cons_of_mem _ hw')
      obtain ⟨s', hget, hs', hstring⟩ := getop_number hs hb hw fun c hc =>
        ⟨hnext c hc, h.head_ne_eof hts' c hc⟩
      obtain ⟨hpush, hkeep⟩ := push_machine hmax (decimal w)
      have hpos := List.length_pos_iff.mpr hw.1
      rw [mainLoop, hget]
      simp only [Option.bind_eq_bind, Option.bind_some]
      rw [hstring, atoi_digits hw.1 hw.2.2, ih hts' (by
        rw [List.length_append, List.length_append]
        omega) hs' hkeep, hpush, Machine.run_cons, Machine.step, Option.bind_some]
      rfl
  | @op b op ts text hb h ih =>
      obtain ⟨fuel, rfl⟩ := Nat.exists_eq_add_of_lt hfuel
      have hts' : Numbers ts := fun w' hw' => hts w' (List.mem_cons_of_mem _ hw')
      obtain ⟨s', hget, hs', hcell⟩ := getop_operator hs hb (c := op.byte)
        (by cases op <;> rfl) (by cases op <;> rfl) (by cases op <;> decide) text
      obtain ⟨hsome, hnone⟩ := operate_op hmax op
      rw [mainLoop, hget]
      simp only [Option.bind_eq_bind, Option.bind_some]
      rw [Block.load_eq (by omega), Option.bind_some, hcell, Machine.run_cons]
      rcases hstep : machine.step st.machine (.op op) with _ | m
      · rw [hnone hstep]
        rfl
      · obtain ⟨st', hoperate, rfl, hkeep, hout⟩ := hsome m hstep
        rw [hoperate, Option.bind_some, Option.bind_some, ih hts' (by
          rw [List.length_append, List.length_cons]
          omega) hs' hkeep, hout]

/-- What the program does with a line. -/
theorem postfixExpression_line (s : ℕ → UInt8) (op1 op2 : ℤ) {e : PostfixExpr}
    (h : e.WellFormed) {text : List UInt8} (htext : Line e.tokens text) :
    postfixExpression s op1 op2 text =
      (machine.run ⟨[], op1, op2⟩ e.tokens).map fun m => [m.stack.headD m.left] :=
  mainLoop_line htext (numbers_tokens h) (Nat.lt_succ_self _) rfl rfl

/-- **With room on the stack it prints the value.** -/
theorem postfixExpression_eq (s : ℕ → UInt8) (op1 op2 : ℤ) {e : PostfixExpr} {v : ℤ}
    (h : e.WellFormed) (hv : e.value = some v) {text : List UInt8} (htext : Line e.tokens text)
    (hdepth : e.depth ≤ 16) : postfixExpression s op1 op2 text = some [v] := by
  obtain ⟨left, right, hrun⟩ := Machine.run_tokens ((eval_eq_value e).trans hv) ⟨[], op1, op2⟩
    (show 0 + e.depth ≤ 16 by omega)
  rw [postfixExpression_line s op1 op2 h htext, hrun]
  rfl

end PostfixExpression

end CodeSnippet
