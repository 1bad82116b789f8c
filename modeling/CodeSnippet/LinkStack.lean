/-
CodeSnippet/LinkStack.lean

The stack of src/algorithm/stack/linkstack: a chain of nodes behind a sentinel,
with a counter.  The array stack and the linked stack are compared with a list
of at most `max` entries.

Main results:
  * `seqCall_bounded`, `LinkStack.call_bounded` — one call.
  * `stacks_agree` — any calls.
-/
import CodeSnippet.Chain
import CodeSnippet.SeqStack

namespace CodeSnippet

open Memory Calls

/-! ### Source -/

/-- `struct _stack_t_` of linkstack.c. -/
structure LinkStack where
  top : Ptr
  len : ℕ
  max : ℕ

namespace LinkStack

/-- `node_alloc`, when there is a node. -/
def nodeAlloc (m : Allocator (Node ℤ)) (h : Heap (Node ℤ)) (data : ℤ) : Ptr × Heap (Node ℤ) :=
  newNode m h data

/-- The structure that `stack_init` has filled in at its end.  There is no `return` behind
it, so that a caller does not get it from the call. -/
def stackInit (m : Allocator (Node ℤ)) (h : Heap (Node ℤ)) (max : ℕ) :
    LinkStack × Heap (Node ℤ) :=
  let (top, h) := nodeAlloc m h 0
  (⟨top, 0, max⟩, h)

def stackIsempty (stack : LinkStack) : Bool := stack.len == 0

def stackIsfull (stack : LinkStack) : Bool := stack.len == stack.max

def stackPush (m : Allocator (Node ℤ)) (stack : LinkStack) (h : Heap (Node ℤ)) (data : ℤ) :
    Except Fault (ℤ × LinkStack × Heap (Node ℤ)) :=
  if stackIsfull stack then .ok (-1, stack, h)
  else do
    let (new, h) := nodeAlloc m h data
    let h ← linkAfter h stack.top new
    .ok (0, { stack with len := stack.len + 1 }, h)

/-- The return code, the stack, the heap and `*data` afterwards. -/
def stackPop (stack : LinkStack) (h : Heap (Node ℤ)) (data : ℤ) :
    Except Fault (ℤ × LinkStack × Heap (Node ℤ) × ℤ) :=
  if stackIsempty stack then .ok (-1, stack, h, data)
  else do
    let (tmp, h) ← unlinkAfter h stack.top
    let node ← h.load tmp
    let h ← h.free tmp
    .ok (0, { stack with len := stack.len - 1 }, h, node.data)

def stackForeach {σ : Type} (visit : ℤ → σ → σ) (fuel : ℕ) (stack : LinkStack)
    (h : Heap (Node ℤ)) (s : σ) : Except Fault (ℤ × σ) := do
  let top ← h.load stack.top
  let s ← walk visit h fuel top.next s
  .ok (0, s)

end LinkStack

/-! ### Calls -/

/-- A call of one of the operations.  `data` is what `*data` holds before a
`stack_pop`. -/
inductive StackCall
  | push (data : ℤ)
  | pop (data : ℤ)
  | isempty
  | isfull
  | foreach

/-- The return code of a call, with `*data` or with what was visited. -/
inductive StackAnswer
  | code (ret : ℤ)
  | popped (ret data : ℤ)
  | visited (ret : ℤ) (seen : List ℤ)
  deriving DecidableEq

/-- A truth value of C. -/
def flag (b : Bool) : ℤ := if b then 1 else 0

/-- The call on the array stack. -/
def seqCall : StackCall → SeqStack → StackAnswer × SeqStack
  | .push data, stack =>
      let (ret, stack) := stackPush stack data
      (.code ret, stack)
  | .pop data, stack =>
      let (ret, stack, data) := stackPop stack data
      (.popped ret data, stack)
  | .isempty, stack => (.code (flag (stackIsempty stack)), stack)
  | .isfull, stack => (.code (flag (stackIsfull stack)), stack)
  | .foreach, stack =>
      let (ret, seen) := stackForeach record stack []
      (.visited ret seen, stack)

/-- The call on the linked stack, with the `malloc` it finds. -/
def LinkStack.call (fuel : ℕ) :
    StackCall × Allocator (Node ℤ) → LinkStack × Heap (Node ℤ) →
      Except Fault (StackAnswer × LinkStack × Heap (Node ℤ))
  | (.push data, m), (stack, h) => do
      let (ret, stack, h) ← stackPush m stack h data
      .ok (.code ret, stack, h)
  | (.pop data, _), (stack, h) => do
      let (ret, stack, h, data) ← stackPop stack h data
      .ok (.popped ret data, stack, h)
  | (.isempty, _), (stack, h) => .ok (.code (flag (stackIsempty stack)), stack, h)
  | (.isfull, _), (stack, h) => .ok (.code (flag (stackIsfull stack)), stack, h)
  | (.foreach, _), (stack, h) => do
      let (ret, seen) ← stackForeach record fuel stack h []
      .ok (.visited ret seen, stack, h)

/-- The call on a list of at most `max` entries, the newest one first. -/
def boundedCall (max : ℕ) : StackCall → List ℤ → StackAnswer × List ℤ
  | .push data, l => (.code (if l.length < max then 0 else -1), pushTo max l data)
  | .pop data, [] => (.popped (-1) data, [])
  | .pop _, x :: l => (.popped 0 x, l)
  | .isempty, l => (.code (flag l.isEmpty), l)
  | .isfull, l => (.code (flag (l.length == max)), l)
  | .foreach, l => (.visited 0 l, l)

/-! ### The array stack -/

/-- The array holds the list. -/
def SeqStack.Holds (max : ℕ) (stack : SeqStack) (l : List ℤ) : Prop :=
  stack.contents = l ∧ stack.max = max

theorem stackInit_holds (max : ℕ) : SeqStack.Holds max (CodeSnippet.stackInit max) [] :=
  ⟨ArrayStack.contents_eq_nil rfl, rfl⟩

theorem seqCall_bounded {max : ℕ} (call : StackCall) {stack : SeqStack} {l : List ℤ}
    (h : SeqStack.Holds max stack l) :
    (seqCall call stack).1 = (boundedCall max call l).1 ∧
      SeqStack.Holds max (seqCall call stack).2 (boundedCall max call l).2 := by
  obtain ⟨rfl, rfl⟩ := h
  have hlen := stack.contents_length
  cases call with
  | push data =>
      exact ⟨congrArg StackAnswer.code (stackPush_ret stack data), stackPush_contents stack data⟩
  | pop data =>
      rw [seqCall]
      rcases hcontents : stack.contents with _ | ⟨x, l⟩
      · rw [stackPop_nil hcontents]
        exact ⟨rfl, hcontents, rfl⟩
      · obtain ⟨stack', hpop, hrest, hmax⟩ := stackPop_cons data hcontents
        rw [hpop]
        exact ⟨rfl, hrest, hmax⟩
  | isempty =>
      refine ⟨?_, rfl, rfl⟩
      have hempty : stackIsempty stack = stack.contents.isEmpty := by
        rw [Bool.eq_iff_iff, List.isEmpty_iff_length_eq_zero, hlen]
        exact beq_iff_eq
      rw [seqCall, boundedCall, hempty]
  | isfull =>
      refine ⟨?_, rfl, rfl⟩
      rw [seqCall, boundedCall, hlen]
      rfl
  | foreach =>
      refine ⟨?_, rfl, rfl⟩
      rw [seqCall, stackForeach_eq, visitAll_record]
      rfl

/-! ### The linked stack -/

namespace LinkStack

/-- The list hangs behind the sentinel. -/
def Holds (max : ℕ) : LinkStack × Heap (Node ℤ) → List ℤ → Prop
  | (stack, h), l => stack.max = max ∧ stack.len = l.length ∧ l.length ≤ max ∧
      ∃ nodes, Behind h stack.top nodes ∧ datas nodes = l

theorem stackInit_holds (m : Allocator (Node ℤ)) (h : Heap (Node ℤ)) (max : ℕ) :
    Holds max (stackInit m h max) [] :=
  ⟨rfl, rfl, Nat.zero_le _, [], newNode_behind m h 0, rfl⟩

section Functions

variable {max fuel : ℕ} {stack : LinkStack} {h : Heap (Node ℤ)} {l : List ℤ}

theorem stackPush_eq (hs : Holds max (stack, h) l) (m : Allocator (Node ℤ)) (data : ℤ) :
    ∃ stack' h', stackPush m stack h data =
        .ok (if l.length < max then 0 else -1, stack', h') ∧
      Holds max (stack', h') (pushTo max l data) := by
  have hholds := hs
  obtain ⟨rfl, hlen, hle, nodes, hnodes, rfl⟩ := hs
  rw [stackPush, pushTo]
  by_cases hfull : stack.len = stack.max
  · rw [if_pos (show stackIsfull stack = true from beq_iff_eq.mpr hfull), if_neg (by omega),
      if_neg (by omega)]
    exact ⟨stack, h, rfl, hholds⟩
  · have hroom : (datas nodes).length < stack.max := by omega
    obtain ⟨h', hlink, hnodes'⟩ := hnodes.linkAfter_eq m data
    rw [if_neg (show ¬ stackIsfull stack = true from fun e => hfull (beq_iff_eq.mp e)),
      if_pos hroom, if_pos hroom, nodeAlloc]
    simp only [hlink, ok_bind]
    exact ⟨_, h', rfl, rfl, congrArg (· + 1) hlen, hroom, _, hnodes', rfl⟩

theorem stackPop_nil (hs : Holds max (stack, h) []) (data : ℤ) :
    stackPop stack h data = .ok (-1, stack, h, data) :=
  if_pos (beq_iff_eq.mpr hs.2.1)

theorem stackPop_cons {x : ℤ} (hs : Holds max (stack, h) (x :: l)) (data : ℤ) :
    ∃ stack' h', stackPop stack h data = .ok (0, stack', h', x) ∧ Holds max (stack', h') l := by
  obtain ⟨rfl, hlen, hle, nodes, hnodes, hdatas⟩ := hs
  rw [List.length_cons] at hlen hle
  -- the newest entry is the first node behind the sentinel
  obtain ⟨⟨c, x⟩, nodes, rfl, rfl, rfl⟩ := List.map_eq_cons_iff.mp hdatas
  obtain ⟨h', next, hunlink, hc, hnodes'⟩ := hnodes.unlinkAfter_eq
  have hisempty : ¬ stackIsempty stack = true := by
    rw [stackIsempty, beq_iff_eq, hlen]
    exact Nat.succ_ne_zero _
  rw [stackPop, if_neg hisempty]
  simp only [hunlink, ok_bind, Heap.load_eq hc, Heap.free_eq hc]
  refine ⟨_, _, rfl, rfl, ?_, Nat.le_of_succ_le hle, nodes, hnodes', rfl⟩
  show stack.len - 1 = _
  omega

theorem stackForeach_eq {σ : Type} (visit : ℤ → σ → σ) (hs : Holds max (stack, h) l)
    (hfuel : max < fuel) (s : σ) :
    stackForeach visit fuel stack h s = .ok (0, visitAll visit l s) := by
  obtain ⟨rfl, -, hle, nodes, hnodes, rfl⟩ := hs
  obtain ⟨top, hload, hfirst⟩ := hnodes.load_eq
  rw [List.length_map] at hle
  rw [stackForeach, hload, ok_bind, hfirst.walk_eq visit (hle.trans_lt hfuel)]
  rfl

end Functions

/-- **One call on the linked stack** does what it does on the list. -/
theorem call_bounded {max fuel : ℕ} (hfuel : max < fuel) (call : StackCall)
    (m : Allocator (Node ℤ)) {s : LinkStack × Heap (Node ℤ)} {l : List ℤ} (hs : Holds max s l) :
    ∃ s', LinkStack.call fuel (call, m) s = .ok ((boundedCall max call l).1, s') ∧
      Holds max s' (boundedCall max call l).2 := by
  obtain ⟨stack, h⟩ := s
  cases call with
  | push data =>
      obtain ⟨stack', h', hpush, hs'⟩ := stackPush_eq hs m data
      refine ⟨(stack', h'), ?_, hs'⟩
      rw [LinkStack.call, hpush]
      rfl
  | pop data =>
      cases l with
      | nil =>
          refine ⟨(stack, h), ?_, hs⟩
          rw [LinkStack.call, stackPop_nil hs data]
          rfl
      | cons x l =>
          obtain ⟨stack', h', hpop, hs'⟩ := stackPop_cons hs data
          refine ⟨(stack', h'), ?_, hs'⟩
          rw [LinkStack.call, hpop]
          rfl
  | isempty =>
      refine ⟨(stack, h), ?_, hs⟩
      have hempty : stackIsempty stack = l.isEmpty := by
        rw [Bool.eq_iff_iff, List.isEmpty_iff_length_eq_zero, ← hs.2.1]
        exact beq_iff_eq
      rw [LinkStack.call, boundedCall, hempty]
  | isfull =>
      refine ⟨(stack, h), ?_, hs⟩
      rw [LinkStack.call, boundedCall, stackIsfull, hs.1, hs.2.1]
  | foreach =>
      refine ⟨(stack, h), ?_, hs⟩
      rw [LinkStack.call, stackForeach_eq record hs hfuel, visitAll_record]
      rfl

end LinkStack

/-! ### Both stacks -/

/-- A bounded list stays bounded. -/
theorem boundedCall_length {max : ℕ} (call : StackCall) {l : List ℤ} (h : l.length ≤ max) :
    (boundedCall max call l).2.length ≤ max := by
  cases call with
  | push data =>
      rw [boundedCall, length_pushTo max l data h]
      exact min_le_right _ _
  | pop data =>
      cases l with
      | nil => exact h
      | cons x l => exact Nat.le_of_succ_le h
  | isempty | isfull | foreach => exact h

/-- **The array stack and the linked stack give the same answers**, and these
are the answers of a list of at most `max` entries. -/
theorem stacks_agree (max : ℕ) (calls : List (StackCall × Allocator (Node ℤ)))
    (m : Allocator (Node ℤ)) (h : Heap (Node ℤ)) {fuel : ℕ} (hfuel : max < fuel) :
    let ops := calls.map Prod.fst
    (outcomes seqCall ops (stackInit max)).1 = (outcomes (boundedCall max) ops []).1 ∧
    (∃ s, run (LinkStack.call fuel) calls (LinkStack.stackInit m h max) =
      .ok ((outcomes (boundedCall max) ops []).1, s)) ∧
    (outcomes (boundedCall max) ops []).2.length ≤ max := by
  intro ops
  refine ⟨?_, ?_, ?_⟩
  · exact outcomes_eq (fun call _ _ hs => seqCall_bounded call hs) (stackInit_holds max) ops
  · have hstep : ∀ (c : StackCall × Allocator (Node ℤ)) s l, LinkStack.Holds max s l →
        ∃ s', LinkStack.call fuel c s = .ok ((boundedCall max c.1 l).1, s') ∧
          LinkStack.Holds max s' (boundedCall max c.1 l).2 :=
      fun c _ _ hs => LinkStack.call_bounded hfuel c.1 c.2 hs
    obtain ⟨s, hrun, -⟩ := run_eq_outcomes hstep (LinkStack.stackInit_holds m h max) calls
    exact ⟨s, hrun⟩
  · let P : List ℤ → Prop := fun l => l.length ≤ max
    have hstep : ∀ call l, P l → P (boundedCall max call l).2 :=
      fun call _ hl => boundedCall_length call hl
    exact outcomes_invariant hstep (show P [] from Nat.zero_le max) ops

/-- Two pushes and two pops on stacks for one entry. -/
theorem stacks_agree_short :
    let m := firstFree (Node ℤ)
    let calls := [(.push 5, m), (.push 6, m), (.foreach, m), (.pop 0, m), (.pop 7, m)]
    let ops := calls.map Prod.fst
    (outcomes seqCall ops (stackInit 1)).1 = (outcomes (boundedCall 1) ops []).1 ∧
    (∃ s, run (LinkStack.call 2) calls (LinkStack.stackInit m .empty 1) =
      .ok ((outcomes (boundedCall 1) ops []).1, s)) ∧
    (outcomes (boundedCall 1) ops []).2.length ≤ 1 :=
  stacks_agree 1 _ (firstFree (Node ℤ)) .empty Nat.one_lt_two

end CodeSnippet
