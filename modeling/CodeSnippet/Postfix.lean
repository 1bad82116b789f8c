/-
CodeSnippet/Postfix.lean

Postfix expressions and the stack machines that read them.  A machine has a
stack of limited capacity: it ignores what does not fit, and where an operand is
missing it goes on with something else.  It computes an expression if the stack
has room for the depth of the expression (`run_tokens`), and otherwise there is
an operand that it never looks at (`exists_refused`, `run_refused`).
-/
import CodeSnippet.ArrayStack

namespace Postfix

open Memory

variable {N O V : Type*}

/-! ### Expressions -/

/-- Expressions over operands `N` and binary operators `O`. -/
inductive Tree (N O : Type*)
  | num (n : N)
  | bin (o : O) (l r : Tree N O)

inductive Token (N O : Type*)
  | num (n : N)
  | op (o : O)

namespace Tree

/-- The postfix form. -/
def tokens : Tree N O → List (Token N O)
  | num n => [.num n]
  | bin o l r => l.tokens ++ (r.tokens ++ [.op o])

/-- How many operands wait at the same time. -/
def depth : Tree N O → ℕ
  | num _ => 1
  | bin _ l r => max l.depth (1 + r.depth)

/-- The expression without its operands. -/
def shape : Tree N O → Tree Unit O
  | num _ => num ()
  | bin o l r => bin o l.shape r.shape

theorem depth_pos (e : Tree N O) : 0 < e.depth := by
  induction e with
  | num n => exact Nat.zero_lt_one
  | bin o l r ihl _ => exact ihl.trans_le (le_max_left ..)

theorem depth_shape (e : Tree N O) : e.shape.depth = e.depth := by
  induction e with
  | num n => rfl
  | bin o l r ihl ihr => rw [shape, depth, ihl, ihr, depth]

end Tree

/-! ### Machines -/

/-- A stack machine.  `miss` is what becomes of an operand of the last operation
when the next one finds none on the stack. -/
structure Machine (N O V : Type*) where
  cap : ℕ
  num : N → V
  op : O → V → V → Option V
  miss : V → V

/-- The stack and the operands of the last operation. -/
structure State (V : Type*) where
  stack : List V
  left : V
  right : V

namespace Machine

variable (M : Machine N O V)

def step (st : State V) : Token N O → Option (State V)
  | .num n => some { st with stack := pushTo M.cap st.stack (M.num n) }
  | .op o =>
      let right := st.stack.headD (M.miss st.right)
      let left := st.stack.tail.headD (M.miss st.left)
      (M.op o left right).map fun v => ⟨pushTo M.cap st.stack.tail.tail v, left, right⟩

def run (st : State V) : List (Token N O) → Option (State V)
  | [] => some st
  | t :: ts => (M.step st t).bind fun st => run st ts

/-- The value of an expression. -/
def eval : Tree N O → Option V
  | .num n => some (M.num n)
  | .bin o l r => do
      let x ← eval l
      let y ← eval r
      M.op o x y

theorem run_cons (st : State V) (t : Token N O) (ts : List (Token N O)) :
    M.run st (t :: ts) = (M.step st t).bind fun st => M.run st ts := rfl

theorem run_append (st : State V) (ts us : List (Token N O)) :
    M.run st (ts ++ us) = (M.run st ts).bind fun st => M.run st us := by
  induction ts generalizing st with
  | nil => rfl
  | cons t ts ih =>
      rw [List.cons_append, run_cons, run_cons, Option.bind_assoc]
      congr 1
      funext st
      exact ih st

variable {M}

theorem eval_bin {o : O} {l r : Tree N O} {v : V} (h : M.eval (.bin o l r) = some v) :
    ∃ x y, M.eval l = some x ∧ M.eval r = some y ∧ M.op o x y = some v := by
  obtain ⟨x, hx, h⟩ := Option.bind_eq_some_iff.mp h
  obtain ⟨y, hy, h⟩ := Option.bind_eq_some_iff.mp h
  exact ⟨x, y, hx, hy, h⟩

/-- **With room on the stack an expression is computed**, and nothing else on
the stack changes. -/
theorem run_tokens {e : Tree N O} {v : V} (h : M.eval e = some v) (st : State V)
    (hroom : st.stack.length + e.depth ≤ M.cap) :
    ∃ left right, M.run st e.tokens = some ⟨v :: st.stack, left, right⟩ := by
  induction e generalizing v st with
  | num n =>
      obtain rfl := Option.some.inj h
      refine ⟨st.left, st.right, ?_⟩
      have hpush : pushTo M.cap st.stack (M.num n) = M.num n :: st.stack := if_pos hroom
      rw [Tree.tokens, run_cons, step, hpush]
      rfl
  | bin o l r ihl ihr =>
      obtain ⟨x, y, hx, hy, hv⟩ := eval_bin h
      rw [Tree.depth] at hroom
      obtain ⟨a, b, hl⟩ := ihl hx st (by omega)
      obtain ⟨a', b', hr⟩ := ihr hy ⟨x :: st.stack, a, b⟩ (by
        rw [List.length_cons]
        omega)
      refine ⟨x, y, ?_⟩
      have hpush : pushTo M.cap st.stack v = v :: st.stack := if_pos (by omega)
      rw [Tree.tokens, run_append, hl, Option.bind_some, run_append, hr, Option.bind_some, run_cons,
        step]
      show ((M.op o x y).map _).bind _ = _
      rw [hv, Option.map_some, Option.bind_some, List.tail_cons, List.tail_cons, hpush]
      rfl

end Machine

/-! ### Heights -/

/-- The length of a stack of capacity `cap` after some tokens. -/
def height (cap : ℕ) : ℕ → List (Token N O) → ℕ
  | h, [] => h
  | h, .num _ :: ts => height cap (min (h + 1) cap) ts
  | h, .op _ :: ts => height cap (min (h - 2 + 1) cap) ts

theorem height_append (cap h : ℕ) (ts us : List (Token N O)) :
    height cap h (ts ++ us) = height cap (height cap h ts) us := by
  induction ts generalizing h with
  | nil => rfl
  | cons t ts ih =>
      cases t with
      | num n => exact ih _
      | op o => exact ih _

/-- An expression for which there is room adds one entry. -/
theorem height_tokens {cap h : ℕ} {e : Tree N O} (hroom : h + e.depth ≤ cap) :
    height cap h e.tokens = h + 1 := by
  induction e generalizing h with
  | num n => exact min_eq_left hroom
  | bin o l r ihl ihr =>
      rw [Tree.depth] at hroom
      have hr := r.depth_pos
      rw [Tree.tokens, height_append, ihl (by omega), height_append, ihr (by omega)]
      show min (h + 1 + 1 - 2 + 1) cap = h + 1
      omega

/-- The stack of a machine has this height. -/
theorem Machine.run_height {M : Machine N O V} {st st' : State V} {ts : List (Token N O)}
    (hle : st.stack.length ≤ M.cap) (h : M.run st ts = some st') :
    st'.stack.length = height M.cap st.stack.length ts := by
  induction ts generalizing st with
  | nil =>
      obtain rfl := Option.some.inj h
      rfl
  | cons t ts ih =>
      obtain ⟨st₁, hstep, hrun⟩ := Option.bind_eq_some_iff.mp h
      cases t with
      | num n =>
          obtain rfl := Option.some.inj hstep
          have hlen := length_pushTo M.cap st.stack (M.num n) hle
          rw [ih (by rw [hlen]; exact min_le_right ..) hrun, hlen]
          rfl
      | op o =>
          obtain ⟨v, -, rfl⟩ := Option.map_eq_some_iff.mp hstep
          have htail : st.stack.tail.tail.length = st.stack.length - 2 := by
            rw [List.length_tail, List.length_tail, Nat.sub_sub]
          have hlen := length_pushTo M.cap st.stack.tail.tail v (by omega)
          rw [htail] at hlen
          rw [ih (by rw [hlen]; exact min_le_right ..) hrun, hlen]
          rfl

/-! ### Operands that are refused -/

/-- An expression with one operand taken out. -/
inductive Ctx (N O : Type*)
  | here
  | left (o : O) (c : Ctx N O) (r : Tree N O)
  | right (o : O) (l : Tree N O) (c : Ctx N O)

namespace Ctx

def plug : Ctx N O → N → Tree N O
  | here, n => .num n
  | left o c r, n => .bin o (c.plug n) r
  | right o l c, n => .bin o l (c.plug n)

/-- The tokens before the operand. -/
def before : Ctx N O → List (Token N O)
  | here => []
  | left _ c _ => c.before
  | right _ l c => l.tokens ++ c.before

/-- The tokens behind it. -/
def behind : Ctx N O → List (Token N O)
  | here => []
  | left o c r => c.behind ++ (r.tokens ++ [.op o])
  | right o _ c => c.behind ++ [.op o]

theorem plug_tokens (c : Ctx N O) (n : N) :
    (c.plug n).tokens = c.before ++ .num n :: c.behind := by
  induction c with
  | here => rfl
  | left o c r ih => rw [plug, Tree.tokens, ih, before, behind, List.append_assoc, List.cons_append]
  | right o l c ih =>
      rw [plug, Tree.tokens, ih, before, behind]
      simp only [List.append_assoc, List.cons_append]

/-- The context without its operands. -/
def shape : Ctx N O → Ctx Unit O
  | here => here
  | left o c r => left o c.shape r.shape
  | right o l c => right o l.shape c.shape

theorem shape_plug (c : Ctx N O) (n : N) : (c.plug n).shape = c.shape.plug () := by
  induction c with
  | here => rfl
  | left o c r ih => rw [plug, Tree.shape, ih, shape, plug]
  | right o l c ih => rw [plug, Tree.shape, ih, shape, plug]

end Ctx

theorem height_shape_tokens (cap h : ℕ) (e : Tree N O) :
    height cap h e.shape.tokens = height cap h e.tokens := by
  induction e generalizing h with
  | num n => rfl
  | bin o l r ihl ihr =>
      rw [Tree.shape, Tree.tokens, Tree.tokens, height_append, height_append, height_append,
        height_append, ihl, ihr]
      rfl

theorem height_shape_before (cap h : ℕ) (c : Ctx N O) :
    height cap h c.shape.before = height cap h c.before := by
  induction c generalizing h with
  | here => rfl
  | left o c r ih => exact ih h
  | right o l c ih =>
      rw [Ctx.shape, Ctx.before, Ctx.before, height_append, height_append, height_shape_tokens, ih]

/-- **Without room some operand comes when the stack is full.** -/
theorem exists_refused {cap h : ℕ} {e : Tree N O} (hle : h ≤ cap) (hover : cap < h + e.depth) :
    ∃ (c : Ctx N O) (n : N), e = c.plug n ∧ height cap h c.before = cap := by
  induction e generalizing h with
  | num n =>
      rw [Tree.depth] at hover
      exact ⟨.here, n, rfl, show h = cap by omega⟩
  | bin o l r ihl ihr =>
      rw [Tree.depth] at hover
      by_cases hl : cap < h + l.depth
      · obtain ⟨c, n, rfl, hfull⟩ := ihl hle hl
        exact ⟨.left o c r, n, rfl, hfull⟩
      · have hpos := l.depth_pos
        have hheight : height cap h l.tokens = h + 1 := height_tokens (by omega)
        obtain ⟨c, n, rfl, hfull⟩ := ihr (h := h + 1) (by omega) (by omega)
        refine ⟨.right o l c, n, rfl, ?_⟩
        rw [Ctx.before, height_append, hheight, hfull]

/-- **The machine never looks at such an operand.** -/
theorem Machine.run_refused {M : Machine N O V} {st : State V} (hle : st.stack.length ≤ M.cap)
    {c : Ctx N O} (hfull : height M.cap st.stack.length c.before = M.cap) (n n' : N) :
    M.run st (c.plug n).tokens = M.run st (c.plug n').tokens := by
  rw [Ctx.plug_tokens, Ctx.plug_tokens, run_append, run_append]
  rcases hbefore : M.run st c.before with _ | st'
  · rfl
  · have hlen := run_height hle hbefore
    have hpush : ∀ v, pushTo M.cap st'.stack v = st'.stack := by
      intro v
      exact if_neg (by omega)
    rw [Option.bind_some, Option.bind_some, run_cons, run_cons, step, step, hpush, hpush]

end Postfix
