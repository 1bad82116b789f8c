/-
CodeSnippet/SeqStack.lean

The stack of src/algorithm/stack/seqstack: an array stack of `int`.  Every
operation is described by what it does to the contents.
-/
import CodeSnippet.ArrayStack
import CodeSnippet.Calls

namespace CodeSnippet

open Memory

/-- `struct _stack_t_`.  `max` is the size of `buf`. -/
abbrev SeqStack := ArrayStack ℤ

/-- `stack_init`, when both allocations succeed. -/
def stackInit (max : ℕ) : SeqStack := ⟨⟨max, fun _ => 0⟩, 0, Nat.zero_le _⟩

def stackIsempty (stack : SeqStack) : Bool := stack.top == 0

def stackIsfull (stack : SeqStack) : Bool := stack.top == stack.max

/-- The return code and the stack afterwards. -/
def stackPush (stack : SeqStack) (data : ℤ) : ℤ × SeqStack :=
  if h : stackIsfull stack then (-1, stack)
  else (0, stack.store data (stack.top_le.lt_of_ne fun e => h (beq_iff_eq.mpr e)))

/-- The return code, the stack and `*data` afterwards.  A failing call leaves
`*data` as it is. -/
def stackPop (stack : SeqStack) (data : ℤ) : ℤ × SeqStack × ℤ :=
  if stackIsempty stack then (-1, stack, data) else (0, stack.drop, stack.last)

/-- The loop of `stack_foreach`, from the entry below `i` down to the first. -/
def foreachFrom {σ : Type*} (visit : ℤ → σ → σ) (buf : Block ℤ) : ℕ → σ → σ
  | 0, s => s
  | i + 1, s => foreachFrom visit buf i (visit (buf.cell i) s)

/-- The return code, and what the calls of `visit` leave. -/
def stackForeach {σ : Type*} (visit : ℤ → σ → σ) (stack : SeqStack) (s : σ) : ℤ × σ :=
  (0, foreachFrom visit stack.buf stack.top s)

/-- **Pushing ignores what does not fit.** -/
theorem stackPush_contents (stack : SeqStack) (data : ℤ) :
    (stackPush stack data).2.contents = pushTo stack.max stack.contents data ∧
      (stackPush stack data).2.max = stack.max := by
  have hle := stack.contents_length_le
  have hlen := stack.contents_length
  unfold stackPush pushTo
  split
  · rename_i hfull
    have hfull : stack.top = stack.max := beq_iff_eq.mp hfull
    rw [if_neg (by omega)]
    exact ⟨rfl, rfl⟩
  · rename_i hroom
    have hroom : stack.top ≠ stack.max := fun e => hroom (beq_iff_eq.mpr e)
    rw [if_pos (by omega)]
    exact ⟨ArrayStack.store_contents data _, rfl⟩

theorem stackPush_ret (stack : SeqStack) (data : ℤ) :
    (stackPush stack data).1 = if stack.contents.length < stack.max then 0 else -1 := by
  have hle := stack.contents_length_le
  rw [stackPush, stack.contents_length] at *
  by_cases hfull : stackIsfull stack = true
  · have htop : stack.top = stack.max := beq_iff_eq.mp hfull
    rw [dif_pos hfull, if_neg (by omega)]
  · have htop : stack.top ≠ stack.max := fun e => hfull (beq_iff_eq.mpr e)
    rw [dif_neg hfull, if_pos (by omega)]

theorem stackPop_nil {stack : SeqStack} {data : ℤ} (h : stack.contents = []) :
    stackPop stack data = (-1, stack, data) := by
  apply if_pos
  rw [stackIsempty, beq_iff_eq, ← stack.contents_length, h, List.length_nil]

theorem stackPop_cons {stack : SeqStack} (data : ℤ) {c : ℤ} {l : List ℤ}
    (h : stack.contents = c :: l) :
    ∃ stack', stackPop stack data = (0, stack', c) ∧ stack'.contents = l ∧
      stack'.max = stack.max := by
  have hpos : 0 < stack.top := by
    rw [← stack.contents_length, h, List.length_cons]
    exact Nat.succ_pos _
  obtain ⟨hlast, hdrop⟩ := List.cons.inj ((stack.contents_of_pos hpos).symm.trans h)
  refine ⟨stack.drop, ?_, hdrop, rfl⟩
  rw [← hlast]
  apply if_neg
  rw [stackIsempty, beq_iff_eq]
  exact hpos.ne'

/-- **Popping, for a caller who ignores the return code.** -/
theorem stackPop_contents (stack : SeqStack) (data : ℤ) :
    (stackPop stack data).2.1.contents = stack.contents.tail ∧
      (stackPop stack data).2.2 = stack.contents.headD data ∧
      (stackPop stack data).2.1.max = stack.max := by
  rcases h : stack.contents with _ | ⟨c, l⟩
  · rw [stackPop_nil h]
    exact ⟨h, rfl, rfl⟩
  · obtain ⟨stack', hpop, hcontents, hmax⟩ := stackPop_cons data h
    rw [hpop]
    exact ⟨hcontents, rfl, hmax⟩

/-- **The newest entry is visited first.** -/
theorem stackForeach_eq {σ : Type*} (visit : ℤ → σ → σ) (stack : SeqStack) (s : σ) :
    stackForeach visit stack s = (0, Calls.visitAll visit stack.contents s) := by
  rw [stackForeach, ArrayStack.contents]
  congr 1
  generalize stack.top = n
  induction n generalizing s with
  | zero => rfl
  | succ n ih =>
      rw [foreachFrom, ih, Block.cells_succ, List.reverse_append, Nat.zero_add]
      rfl

end CodeSnippet
