/-
CodeSnippet/ExpressionOperation.lean

The evaluator of src/algorithm/tree/app/expressionOperation: it keeps trees on a
stack of 64 pointers, and calculates their values after the end of the input.
A pointer to a node is the tree below it; every node has one owner.

Main results:
  * `mainLoop_line` — on a line the program is a stack machine that builds
    trees.
  * `caculate_treeOf` — the value of the tree of an expression.
  * `expressionOperation_eq` — with at most 64 operands waiting the program
    reports this value.
-/
import CodeSnippet.PostfixLine

namespace CodeSnippet

open Memory Postfix

namespace ExpressionOperation

/-! ### Trees -/

/-- A `bitnode_t *`. -/
inductive Bitree
  | null
  | node (data : ℤ) (left right : Bitree)
  deriving DecidableEq

/-- `bitnode_alloc`, when the allocation succeeds. -/
def bitnodeAlloc (data : ℤ) : Bitree := .node data .null .null

def Bitree.isNull : Bitree → Bool
  | null => true
  | node .. => false

/-- The `switch` in `caculate`. -/
def operation (data left right : ℤ) : Option ℤ :=
  if data = code '+' then checkedInt (left + right)
  else if data = code '-' then checkedInt (left - right)
  else if data = code '*' then checkedInt (left * right)
  else if data = code '/' then checkedDiv left right
  else if data = code '%' then checkedMod left right
  else some 0

/-- `caculate`; there is no value at a null pointer. -/
def caculate : Bitree → Option ℤ
  | .null => none
  | .node data left right =>
      if left.isNull && right.isNull then some data
      else do
        let x ← caculate left
        let y ← caculate right
        operation data x y

/-! ### Printing -/

/-- `%3c` and `%3d` -/
def padded (l : List UInt8) : List UInt8 := List.replicate (3 - l.length) (chr ' ') ++ l

def printfData (data : ℤ) : List UInt8 :=
  if data = code '+' ∨ data = code '-' ∨ data = code '*' ∨ data = code '/' ∨ data = code '%' then
    padded [putchar data]
  else padded (bytes (toString data))

/-- What `inorder_fn` prints; it looks into every node it meets. -/
def inorderFn : Bitree → Option (List UInt8)
  | .null => none
  | .node data left right =>
      if left.isNull && right.isNull then some (printfData data)
      else do
        let l ← inorderFn left
        let r ← inorderFn right
        return bytes "(" ++ l ++ bytes ")" ++ printfData data ++ bytes "(" ++ r ++ bytes ")"

/-- What `bitree_postorder` prints. -/
def bitreePostorder : Bitree → List UInt8
  | .null => []
  | .node data left right => bitreePostorder left ++ bitreePostorder right ++ printfData data

/-! ### The stack -/

/-- `push`; the message about a full stack goes to stderr. -/
def push (stack : ArrayStack Bitree) (data : Bitree) : ArrayStack Bitree :=
  if h : stack.top < stack.buf.size then stack.store data h else stack

/-- `pop`; the message about an empty stack goes to stderr. -/
def pop (stack : ArrayStack Bitree) : Bitree × ArrayStack Bitree :=
  if stack.top = 0 then (.null, stack) else (stack.last, stack.drop)

/-- `buf` and `top` at the start. -/
def emptyStack : ArrayStack Bitree := ⟨⟨64, fun _ => .null⟩, 0, Nat.zero_le _⟩

theorem push_contents (stack : ArrayStack Bitree) (data : Bitree) :
    (push stack data).contents = pushTo stack.max stack.contents data ∧
      (push stack data).max = stack.max := by
  have hlen := stack.contents_length
  unfold push pushTo
  split
  · rename_i hroom
    rw [if_pos (show stack.contents.length < stack.max by rw [hlen]; exact hroom)]
    exact ⟨ArrayStack.store_contents data hroom, rfl⟩
  · rename_i hfull
    rw [if_neg (show ¬ stack.contents.length < stack.max by rw [hlen]; exact hfull)]
    exact ⟨rfl, rfl⟩

theorem pop_contents (stack : ArrayStack Bitree) :
    (pop stack).1 = stack.contents.headD .null ∧ (pop stack).2.contents = stack.contents.tail ∧
      (pop stack).2.max = stack.max := by
  unfold pop
  split
  · rename_i hempty
    have hnil := ArrayStack.contents_eq_nil hempty
    rw [hnil]
    exact ⟨rfl, rfl, rfl⟩
  · rename_i hpos
    rw [ArrayStack.contents_of_pos (Nat.pos_of_ne_zero hpos)]
    exact ⟨rfl, rfl, rfl⟩

/-! ### The program -/

/-- The token reader: an operator or another character, `EOF`, or 0 for a
number. -/
def getop (s : Block UInt8) (inp : List UInt8) : Option (ℤ × Block UInt8 × List UInt8) := do
  let (s, c, inp) ← skipBlanks s inp
  if isdigit (storedByte c) then
    let (s, i, c, inp) ← readRun isdigit s 0 inp
    let s ← s.store i 0
    let inp := if c ≠ eof then storedByte c :: inp else inp
    return (0, s, inp)
  else
    let s ← s.store 1 0
    return (c, s, inp)

/-- The stack, and the trees in `root`. -/
structure State where
  stack : ArrayStack Bitree
  root : List Bitree

/-- The `switch` in `main`. -/
def operate (ch : ℤ) (s : Block UInt8) (st : State) : Option State :=
  if ch = 0 then
    some { st with stack := push st.stack (bitnodeAlloc (atoi (cString s))) }
  else if ch = code '+' ∨ ch = code '-' ∨ ch = code '*' ∨ ch = code '/' ∨ ch = code '%' then
    let (right, stack) := pop st.stack
    let (left, stack) := pop stack
    some { st with stack := push stack (.node ch left right) }
  else if ch = code '\n' then
    let (root, stack) := pop st.stack
    if st.root.length < 8 then some ⟨stack, st.root ++ [root]⟩ else none
  else some st

/-- `while ((ch = getop(s)) != EOF)`: the trees in `root`. -/
def mainLoop : ℕ → Block UInt8 → State → List UInt8 → Option (List Bitree)
  | 0, _, _, _ => none
  | fuel + 1, s, st, inp => do
      let (ch, s, inp) ← getop s inp
      if ch = eof then return st.root
      else
        let st ← operate ch s st
        mainLoop fuel s st inp

/-- The trees that the program builds from its input. -/
def buildTrees (inp : List UInt8) : Option (List Bitree) :=
  mainLoop (inp.length + 1) ⟨8, fun _ => 0⟩ ⟨emptyStack, []⟩ inp

/-- What is printed for a tree, without the headings. -/
structure Report where
  postorder : List UInt8
  inorder : List UInt8
  result : ℤ

def report (root : Bitree) : Option Report := do
  let inorder ← inorderFn root
  let result ← caculate root
  return ⟨bitreePostorder root, inorder, result⟩

/-- `main` -/
def expressionOperation (inp : List UInt8) : Option (List Report) := do
  let root ← buildTrees inp
  root.mapM report

/-! ### The tree of an expression -/

def treeOf : PostfixExpr → Bitree
  | .num w => bitnodeAlloc (decimal w)
  | .bin op l r => .node op.code (treeOf l) (treeOf r)

theorem treeOf_isNull (e : PostfixExpr) : (treeOf e).isNull = false := by
  cases e with
  | num w => rfl
  | bin op l r => rfl

theorem operation_code (op : Op) (x y : ℤ) : operation op.code x y = op.apply x y := by
  cases op <;> rfl

/-- **The tree of an expression has its value.** -/
theorem caculate_treeOf (e : PostfixExpr) : caculate (treeOf e) = e.value := by
  induction e with
  | num w => rfl
  | bin op l r ihl ihr =>
      rw [treeOf, caculate, treeOf_isNull, Bool.false_and, if_neg Bool.false_ne_true, ihl, ihr,
        PostfixExpr.value]
      simp only [operation_code]

/-- The tree can be printed. -/
theorem inorderFn_treeOf (e : PostfixExpr) : ∃ l, inorderFn (treeOf e) = some l := by
  induction e with
  | num w => exact ⟨_, rfl⟩
  | bin op l r ihl ihr =>
      obtain ⟨a, ha⟩ := ihl
      obtain ⟨b, hb⟩ := ihr
      rw [treeOf, inorderFn, treeOf_isNull, Bool.false_and, if_neg Bool.false_ne_true, ha, hb]
      exact ⟨_, rfl⟩

/-! ### Reading a line -/

/-- A character that is no operand. -/
theorem getop_operator {s : Block UInt8} (hs : s.size = 8) {b : List UInt8} {c : UInt8}
    (hb : ∀ d ∈ b, isblank d = true) (hblank : isblank c = false) (hdigit : isdigit c = false)
    (rest : List UInt8) :
    ∃ s', getop s (b ++ c :: rest) = some ((c.toNat : ℤ), s', rest) ∧ s'.size = 8 := by
  obtain ⟨s₁, hskip, hsize, -⟩ := skipBlanks_text (show 0 < s.size by omega) hb hblank rest
  refine ⟨s₁.set 1 0, ?_, hsize.trans hs⟩
  rw [getop, hskip]
  simp only [Option.bind_eq_bind, Option.bind_some, storedByte_toNat]
  rw [if_neg (ne_true_of_eq_false hdigit), Block.store_eq (by omega)]
  rfl

/-- A number. -/
theorem getop_number {s : Block UInt8} (hs : s.size = 8) {b w rest : List UInt8}
    (hb : ∀ d ∈ b, isblank d = true) (hw : IsNumber w)
    (hrest : ∀ c ∈ rest.head?, isdigit c = false) :
    ∃ s', getop s (b ++ (w ++ rest)) = some (0, s', rest) ∧ s'.size = 8 ∧ cString s' = w := by
  obtain ⟨hne, hlen, hdigits⟩ := hw
  obtain ⟨c, w, rfl⟩ := List.exists_cons_of_ne_nil hne
  have hc := hdigits c (List.mem_cons_self ..)
  obtain ⟨s₁, hskip, hsize, hcell⟩ := skipBlanks_text (show 0 < s.size by omega) hb
    (ExpressionConvert.isblank_eq_false_of_isdigit hc) (w ++ rest)
  obtain ⟨htake, hdrop⟩ := run_eq (fun d hd => hdigits d (List.mem_cons_of_mem _ hd)) hrest
  obtain ⟨s', hrun, hsize', -, hstring⟩ :=
    readRun_cString (show isdigit 0 = false from rfl) (hsize.trans hs) (hcell.symm ▸ hc) (w ++ rest) (by
      rw [hcell, htake]
      exact hlen)
  rw [htake, hdrop] at hrun
  rw [hcell, htake] at hstring
  refine ⟨s'.set (w.length + 1) 0, ?_, hsize', hstring⟩
  rw [List.length_cons] at hlen
  rw [getop, List.cons_append, hskip]
  simp only [Option.bind_eq_bind, Option.bind_some, storedByte_toNat]
  rw [if_pos hc, hrun, Option.bind_some]
  simp only
  rw [Block.store_eq (by omega), Option.bind_some, ungetc_eq]
  rfl

theorem getop_end {s : Block UInt8} (hs : s.size = 8) : ∃ s', getop s [] = some (eof, s', []) := by
  refine ⟨(s.set 0 eofByte).set 1 0, ?_⟩
  rw [getop, skipBlanks, Block.store_eq (by omega)]
  simp only [Option.bind_eq_bind, Option.bind_some, Option.pure_def]
  rw [if_neg (by decide), Block.store_eq (by rw [Block.set_size]; omega)]
  rfl

/-! ### The stack machine -/

/-- The program as a stack machine: in the place of an operand that is missing
there is a null pointer. -/
def machine : Machine (List UInt8) Op Bitree where
  cap := 64
  num w := bitnodeAlloc (decimal w)
  op op left right := some (.node op.code left right)
  miss _ := .null

theorem eval_eq_treeOf (e : PostfixExpr) : machine.eval e = some (treeOf e) := by
  induction e with
  | num w => rfl
  | bin op l r ihl ihr =>
      rw [Machine.eval, ihl, ihr]
      rfl

/-- **On a line the program is the machine**, and stores what is on top of the
stack in the end. -/
theorem mainLoop_line {ts : List (Token (List UInt8) Op)} {text : List UInt8} (h : Line ts text)
    (hts : Numbers ts) {fuel : ℕ} (hfuel : text.length < fuel) {s : Block UInt8} (hs : s.size = 8)
    {stack : ArrayStack Bitree} (hmax : stack.max = 64) {root : List Bitree}
    (hroot : root.length < 8) (left right : Bitree) :
    mainLoop fuel s ⟨stack, root⟩ text =
      (machine.run ⟨stack.contents, left, right⟩ ts).map fun m => root ++ [m.stack.headD .null] := by
  induction h generalizing fuel s stack left right with
  | @newline b hb =>
      obtain ⟨fuel, rfl⟩ := Nat.exists_eq_add_of_lt hfuel
      obtain ⟨s', hget, hs'⟩ := getop_operator hs hb (c := chr '\n') rfl rfl []
      obtain ⟨hpop, -, -⟩ := pop_contents stack
      obtain ⟨s'', hend⟩ := getop_end hs'
      have hoperate : operate (chr '\n').toNat s' ⟨stack, root⟩ =
          some ⟨(pop stack).2, root ++ [(pop stack).1]⟩ := by
        rw [operate, if_neg (by decide), if_neg (by decide), if_pos (by decide)]
        exact if_pos hroot
      rw [List.length_append, List.length_singleton, mainLoop, hget]
      simp only [Option.bind_eq_bind, Option.bind_some]
      rw [if_neg (by decide), hoperate, Option.bind_some,
        show b.length + 1 + fuel = (b.length + fuel) + 1 by omega, mainLoop, hend]
      simp only [Option.bind_eq_bind, Option.bind_some]
      rw [if_pos trivial, hpop]
      rfl
  | @num b w ts text hb hnext h ih =>
      obtain ⟨fuel, rfl⟩ := Nat.exists_eq_add_of_lt hfuel
      have hw := hts w (List.mem_cons_self ..)
      have hpos := List.length_pos_iff.mpr hw.1
      have hts' : Numbers ts := fun w' hw' => hts w' (List.mem_cons_of_mem _ hw')
      obtain ⟨s', hget, hs', hstring⟩ := getop_number hs hb hw hnext
      obtain ⟨hpush, hkeep⟩ := push_contents stack (bitnodeAlloc (decimal w))
      have hoperate : operate 0 s' ⟨stack, root⟩ =
          some ⟨push stack (bitnodeAlloc (decimal w)), root⟩ := by
        rw [operate, if_pos rfl, hstring, atoi_digits hw.1 hw.2.2]
      rw [mainLoop, hget]
      simp only [Option.bind_eq_bind, Option.bind_some]
      rw [if_neg (by decide), hoperate, Option.bind_some, ih hts' (by
        rw [List.length_append, List.length_append]
        omega) hs' (hkeep.trans hmax) left right, Machine.run_cons, Machine.step, hpush, hmax]
      rfl
  | @op b op ts text hb h ih =>
      obtain ⟨fuel, rfl⟩ := Nat.exists_eq_add_of_lt hfuel
      have hts' : Numbers ts := fun w' hw' => hts w' (List.mem_cons_of_mem _ hw')
      obtain ⟨s', hget, hs'⟩ := getop_operator hs hb (c := op.byte)
        (by cases op <;> rfl) (by cases op <;> rfl) text
      obtain ⟨hright, hstack₁, hmax₁⟩ := pop_contents stack
      obtain ⟨hleft, hstack₂, hmax₂⟩ := pop_contents (pop stack).2
      rw [hstack₁] at hleft hstack₂
      obtain ⟨hpush, hkeep⟩ := push_contents (pop (pop stack).2).2
        (.node op.code (stack.contents.tail.headD .null) (stack.contents.headD .null))
      have hoperate : operate op.byte.toNat s' ⟨stack, root⟩ =
          some ⟨push (pop (pop stack).2).2 (.node op.code
            (stack.contents.tail.headD .null) (stack.contents.headD .null)), root⟩ := by
        have hcode : ((op.byte.toNat : ℕ) : ℤ) = op.code := by cases op <;> rfl
        rw [operate, hcode, if_neg (by cases op <;> decide), if_pos (by cases op <;> decide),
          ← hright, ← hleft]
      have hmax₃ : (pop (pop stack).2).2.max = 64 := hmax₂.trans (hmax₁.trans hmax)
      rw [hstack₂, hmax₃] at hpush
      rw [mainLoop, hget]
      simp only [Option.bind_eq_bind, Option.bind_some]
      rw [if_neg (by cases op <;> decide), hoperate, Option.bind_some, ih hts' (by
        rw [List.length_append, List.length_cons]
        omega) hs' (hkeep.trans hmax₃) (stack.contents.tail.headD .null)
        (stack.contents.headD .null), Machine.run_cons, Machine.step, hpush]
      rfl

/-- **With room on the stack the program builds the tree of the expression.** -/
theorem buildTrees_eq {e : PostfixExpr} (h : e.WellFormed) {text : List UInt8}
    (htext : Line e.tokens text) (hdepth : e.depth ≤ 64) :
    buildTrees text = some [treeOf e] := by
  obtain ⟨left, right, hrun⟩ := Machine.run_tokens (eval_eq_treeOf e) ⟨[], .null, .null⟩
    (show 0 + e.depth ≤ 64 by omega)
  have hroot : ([] : List Bitree).length < 8 := Nat.zero_lt_succ 7
  rw [buildTrees, mainLoop_line htext (numbers_tokens h) (Nat.lt_succ_self _) rfl rfl hroot .null
    .null]
  show (machine.run ⟨[], .null, .null⟩ e.tokens).map _ = _
  rw [hrun]
  rfl

/-- **And reports its value.** -/
theorem expressionOperation_eq {e : PostfixExpr} {v : ℤ} (h : e.WellFormed)
    (hv : e.value = some v) {text : List UInt8} (htext : Line e.tokens text)
    (hdepth : e.depth ≤ 64) :
    ∃ postorder inorder, expressionOperation text = some [⟨postorder, inorder, v⟩] := by
  obtain ⟨inorder, hinorder⟩ := inorderFn_treeOf e
  refine ⟨bitreePostorder (treeOf e), inorder, ?_⟩
  have hreport : report (treeOf e) = some ⟨bitreePostorder (treeOf e), inorder, v⟩ := by
    rw [report, hinorder, caculate_treeOf, hv]
    rfl
  rw [expressionOperation, buildTrees_eq h htext hdepth]
  show List.mapM report [treeOf e] = _
  rw [List.mapM_cons, hreport]
  rfl

end ExpressionOperation

end CodeSnippet
