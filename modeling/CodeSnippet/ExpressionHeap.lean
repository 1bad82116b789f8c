/-
CodeSnippet/ExpressionHeap.lean

The evaluator of src/algorithm/tree/app/expressionOperation on the heap, where
the stack and `root` hold pointers and every node is allocated.  It does what
ExpressionOperation.lean says of trees: the trees on the stack and in `root` have
no node in common, so each is freed once, and what is never freed are the trees
that stay on the stack and the numbers that were pushed on a full stack.

Main results:
  * `operate_sim` — one token.
  * `finish_eq` — printing and freeing the trees.
  * `expressionOperation_heap` — the program, for every input.
-/
import CodeSnippet.BitreeHeap
import CodeSnippet.FindSort

namespace CodeSnippet

open Memory BitreeHeap

namespace ExpressionHeap

/-! ### Source -/

section Stack

variable {α : Type}

/-- `push` -/
def push (stack : ArrayStack α) (data : α) : ArrayStack α :=
  if h : stack.top < stack.buf.size then stack.store data h else stack

/-- `pop`, which returns `null` for an empty stack. -/
def pop (null : α) (stack : ArrayStack α) : α × ArrayStack α :=
  if stack.top = 0 then (null, stack) else (stack.last, stack.drop)

end Stack

/-- The stack, the pointers in `root`, and the heap. -/
structure State where
  stack : ArrayStack Ptr
  root : List Ptr
  heap : Heap (TreeNode ℤ)

/-- The `switch` in `main`. -/
def operate (malloc : Option (Allocator (TreeNode ℤ))) (ch : ℤ) (s : Block UInt8) (st : State) :
    Option State :=
  if ch = 0 then
    let (node, h) := bitnodeAlloc malloc st.heap (atoi (cString s))
    if node ≠ none then some { st with stack := push st.stack node, heap := h }
    else some { st with heap := h }
  else if ch = code '+' ∨ ch = code '-' ∨ ch = code '*' ∨ ch = code '/' ∨ ch = code '%' then
    let (node, h) := bitnodeAlloc malloc st.heap ch
    if node ≠ none then do
      let (right, stack) := pop none st.stack
      let n ← (h.load node).toOption
      let h ← (h.store node { n with right := right }).toOption
      let (left, stack) := pop none stack
      let n ← (h.load node).toOption
      let h ← (h.store node { n with left := left }).toOption
      some { st with stack := push stack node, heap := h }
    else some { st with heap := h }
  else if ch = code '\n' then
    let (root, stack) := pop none st.stack
    if st.root.length < 8 then some { st with stack := stack, root := st.root ++ [root] } else none
  else some st

/-- `while ((ch = getop(s)) != EOF)`, where `malloc i` is what the pass `i` of
the loop finds. -/
def mainLoop (malloc : ℕ → Option (Allocator (TreeNode ℤ))) :
    ℕ → ℕ → Block UInt8 → State → List UInt8 → Option State
  | 0, _, _, _, _ => none
  | fuel + 1, i, s, st, inp => do
      let (ch, s, inp) ← ExpressionOperation.getop s inp
      if ch = eof then return st
      else
        let st ← operate (malloc i) ch s st
        mainLoop malloc fuel (i + 1) s st inp

def caculate : ℕ → Heap (TreeNode ℤ) → Ptr → Option ℤ
  | 0, _, _ => none
  | fuel + 1, h, root => do
      let n ← (h.load root).toOption
      if n.left = none ∧ n.right = none then some n.data
      else do
        let left ← caculate fuel h n.left
        let right ← caculate fuel h n.right
        ExpressionOperation.operation n.data left right

/-- What `inorder_fn` prints. -/
def inorderFn : ℕ → Heap (TreeNode ℤ) → Ptr → Option (List UInt8)
  | 0, _, _ => none
  | fuel + 1, h, root => do
      let n ← (h.load root).toOption
      if n.left = none ∧ n.right = none then some (ExpressionOperation.printfData n.data)
      else do
        let l ← inorderFn fuel h n.left
        let r ← inorderFn fuel h n.right
        return bytes "(" ++ l ++ bytes ")" ++ ExpressionOperation.printfData n.data ++
          bytes "(" ++ r ++ bytes ")"

/-- `printf_data`, behind what has been printed. -/
def printfData (data : ℤ) (out : List UInt8) : List UInt8 :=
  out ++ ExpressionOperation.printfData data

/-- `for (int i = 0; i < n; i++)`: what is printed for the trees, each of which
is freed before the next one is printed. -/
def finish (depth : ℕ) :
    List Ptr → Heap (TreeNode ℤ) → Option (List ExpressionOperation.Report × Heap (TreeNode ℤ))
  | [], h => some ([], h)
  | root :: roots, h => do
      let (_, postorder) ← (bitreePostorder printfData depth h root []).toOption
      let inorder ← inorderFn depth h root
      let result ← caculate depth h root
      let (_, h) ← (bitreeDestory depth h root).toOption
      let (reports, h) ← finish depth roots h
      return (⟨postorder, inorder, result⟩ :: reports, h)

/-- `main` -/
def expressionOperation (malloc : ℕ → Option (Allocator (TreeNode ℤ))) (depth : ℕ)
    (inp : List UInt8) (h : Heap (TreeNode ℤ)) :
    Option (List ExpressionOperation.Report × Heap (TreeNode ℤ)) := do
  let st ← mainLoop malloc (inp.length + 1) 0 ⟨8, fun _ => 0⟩
    ⟨⟨⟨64, fun _ => none⟩, 0, Nat.zero_le _⟩, [], h⟩ inp
  finish depth st.root st.heap

/-! ### The same on trees -/

/-- A character for which a node is allocated. -/
def Allocates (ch : ℤ) : Prop :=
  ch = 0 ∨ ch = code '+' ∨ ch = code '-' ∨ ch = code '*' ∨ ch = code '/' ∨ ch = code '%'

instance (ch : ℤ) : Decidable (Allocates ch) := inferInstanceAs (Decidable (_ ∨ _))

/-- One token on trees: without a node it is left out. -/
def operateTree (ok : Bool) (ch : ℤ) (s : Block UInt8) (st : ExpressionOperation.State) :
    Option ExpressionOperation.State :=
  if ok = false ∧ Allocates ch then some st else ExpressionOperation.operate ch s st

/-- The nodes that a token loses: a number that does not fit on the stack. -/
def lostNodes (ok : Bool) (ch : ℤ) (st : ExpressionOperation.State) : ℕ :=
  if ok = true ∧ ch = 0 ∧ st.stack.max ≤ st.stack.contents.length then 1 else 0

/-- The loop on trees, with the number of lost nodes. -/
def treeLoop (ok : ℕ → Bool) :
    ℕ → ℕ → Block UInt8 → ExpressionOperation.State → ℕ → List UInt8 →
      Option (ExpressionOperation.State × ℕ)
  | 0, _, _, _, _, _ => none
  | fuel + 1, i, s, st, lost, inp => do
      let (ch, s, inp) ← ExpressionOperation.getop s inp
      if ch = eof then return (st, lost)
      else
        let st' ← operateTree (ok i) ch s st
        treeLoop ok fuel (i + 1) s st' (lost + lostNodes (ok i) ch st) inp

/-- The trees that the program builds, on the stack and in `root`, and the number
of lost nodes. -/
def buildTrees (ok : ℕ → Bool) (inp : List UInt8) : Option (ExpressionOperation.State × ℕ) :=
  treeLoop ok (inp.length + 1) 0 ⟨8, fun _ => 0⟩ ⟨ExpressionOperation.emptyStack, []⟩ 0 inp

/-- **Without failing allocations** it is the program of ExpressionOperation.lean. -/
theorem treeLoop_true (fuel i : ℕ) (s : Block UInt8) (st : ExpressionOperation.State) (lost : ℕ)
    (inp : List UInt8) :
    (treeLoop (fun _ => true) fuel i s st lost inp).map (·.1.root) =
      ExpressionOperation.mainLoop fuel s st inp := by
  induction fuel generalizing i s st lost inp with
  | zero => rfl
  | succ fuel ih =>
      rw [treeLoop, ExpressionOperation.mainLoop]
      rcases ExpressionOperation.getop s inp with _ | ⟨ch, s, inp⟩
      · rfl
      simp only [Option.bind_eq_bind, Option.bind_some]
      by_cases hch : ch = eof
      · rw [if_pos hch, if_pos hch]
        rfl
      rw [if_neg hch, if_neg hch, operateTree, if_neg (fun h => Bool.noConfusion h.1)]
      rcases ExpressionOperation.operate ch s st with _ | st'
      · rfl
      · exact ih ..

/-! ### Trees in the heap -/

/-- The tree that ExpressionOperation.lean has in the place of a pointer. -/
def bitree : BinaryTree (ℕ × ℤ) → ExpressionOperation.Bitree
  | .nil => .null
  | .node (_, data) left right => .node data (bitree left) (bitree right)

theorem bitree_toTree (t : BinaryTree (ℕ × ℤ)) : (bitree t).toTree = treeData t := by
  induction t with
  | nil => rfl
  | node n l r ihl ihr =>
      rw [bitree, ExpressionOperation.Bitree.toTree, ihl, ihr]
      rfl

/-- The addresses of some trees. -/
def forestAddrs (ts : List (BinaryTree (ℕ × ℤ))) : List ℕ := ts.flatMap treeAddrs

theorem forestAddrs_append (ts ts' : List (BinaryTree (ℕ × ℤ))) :
    forestAddrs (ts ++ ts') = forestAddrs ts ++ forestAddrs ts' :=
  List.flatMap_append

theorem forestAddrs_cons (t : BinaryTree (ℕ × ℤ)) (ts : List (BinaryTree (ℕ × ℤ))) :
    forestAddrs (t :: ts) = treeAddrs t ++ forestAddrs ts :=
  List.flatMap_cons

/-- What `pop` takes from the trees on the stack. -/
theorem forestAddrs_pop (ts : List (BinaryTree (ℕ × ℤ))) :
    forestAddrs ts = treeAddrs (ts.headD .nil) ++ forestAddrs ts.tail := by
  cases ts with
  | nil => rfl
  | cons t ts => exact forestAddrs_cons t ts

section Stack

variable {α : Type}

theorem push_contents (stack : ArrayStack α) (data : α) :
    (push stack data).contents = pushTo stack.max stack.contents data ∧
      (push stack data).max = stack.max := by
  rw [pushTo, stack.contents_length, push]
  by_cases hroom : stack.top < stack.buf.size
  · rw [dif_pos hroom, if_pos (show stack.top < stack.max from hroom)]
    exact ⟨ArrayStack.store_contents data hroom, rfl⟩
  · rw [dif_neg hroom, if_neg (show ¬ stack.top < stack.max from hroom)]
    exact ⟨rfl, rfl⟩

theorem pop_contents (null : α) (stack : ArrayStack α) :
    (pop null stack).1 = stack.contents.headD null ∧
      (pop null stack).2.contents = stack.contents.tail ∧ (pop null stack).2.max = stack.max := by
  rw [pop]
  by_cases hempty : stack.top = 0
  · rw [if_pos hempty]
    have hnil := ArrayStack.contents_eq_nil hempty
    exact ⟨by rw [hnil]; rfl, by rw [hnil]; rfl, rfl⟩
  · rw [if_neg hempty, ArrayStack.contents_of_pos (Nat.pos_of_ne_zero hempty)]
    exact ⟨rfl, rfl, rfl⟩

end Stack

/-- **The program on the heap and the program on trees.**  The pointers on the
stack and in `root` lead to trees without common nodes, which together with the
lost nodes are what is allocated besides `h₀`. -/
structure Sim (h₀ : Heap (TreeNode ℤ)) (height : ℕ) (st : State) (ps : ExpressionOperation.State)
    (onStack inRoot : List (BinaryTree (ℕ × ℤ))) (lost : List ℕ) : Prop where
  stack : st.stack.contents = onStack.map rootPtr
  root : st.root = inRoot.map rootPtr
  tree_stack : ps.stack.contents = onStack.map bitree
  tree_root : ps.root = inRoot.map bitree
  max : st.stack.max = 64
  tree_max : ps.stack.max = 64
  trees : ∀ t ∈ onStack ++ inRoot, TreeAt st.heap (rootPtr t) t
  height_le : ∀ t ∈ onStack ++ inRoot, t.height ≤ height
  extended : h₀.Extends st.heap (forestAddrs (onStack ++ inRoot) ++ lost)
  nodup : (forestAddrs (onStack ++ inRoot) ++ lost).Nodup

section Steps

variable {h₀ : Heap (TreeNode ℤ)} {k : ℕ} {st : State} {ps : ExpressionOperation.State}
  {onStack inRoot : List (BinaryTree (ℕ × ℤ))} {lost : List ℕ}

theorem Sim.mono (hs : Sim h₀ k st ps onStack inRoot lost) :
    Sim h₀ (k + 1) st ps onStack inRoot lost :=
  { hs with height_le := fun t ht => (hs.height_le t ht).trans (Nat.le_succ k) }

theorem map_headD {α β : Type} (f : α → β) (l : List α) (x : α) :
    (l.map f).headD (f x) = f (l.headD x) := by
  cases l <;> rfl

/-- What `pop` returns is a tree. -/
theorem headD_at {h : Heap (TreeNode ℤ)} {ts : List (BinaryTree (ℕ × ℤ))}
    (hts : ∀ t ∈ ts, TreeAt h (rootPtr t) t) :
    TreeAt h (rootPtr (ts.headD .nil)) (ts.headD .nil) := by
  cases ts with
  | nil => exact rfl
  | cons t ts => exact hts t (List.mem_cons_self ..)

theorem height_headD {ts : List (BinaryTree (ℕ × ℤ))} (hts : ∀ t ∈ ts, t.height ≤ k) :
    (ts.headD .nil).height ≤ k := by
  cases ts with
  | nil => exact Nat.zero_le k
  | cons t ts => exact hts t (List.mem_cons_self ..)

theorem Sim.length_le (hs : Sim h₀ k st ps onStack inRoot lost) : onStack.length ≤ 64 := by
  have hle := st.stack.contents_length_le
  rwa [hs.stack, hs.max, List.length_map] at hle

/-- **A node for an operator** becomes the root over the two trees that are
popped. -/
theorem Sim.operator (hs : Sim h₀ k st ps onStack inRoot lost) (m : Allocator (TreeNode ℤ)) (ch : ℤ)
    {stack : ArrayStack Ptr} {treeStack : ArrayStack ExpressionOperation.Bitree}
    (hstack : stack.contents = pushTo 64 (onStack.tail.tail.map rootPtr) (some (m.malloc st.heap)))
    (hmax : stack.max = 64)
    (htree : treeStack.contents = pushTo 64 (onStack.tail.tail.map bitree)
      (.node ch (bitree (onStack.tail.headD .nil)) (bitree (onStack.headD .nil))))
    (htmax : treeStack.max = 64) :
    ∃ onStack', Sim h₀ (k + 1)
      { st with
        stack := stack
        heap := st.heap.set (m.malloc st.heap)
          (some ⟨ch, rootPtr (onStack.tail.headD .nil), rootPtr (onStack.headD .nil)⟩) }
      { ps with stack := treeStack } onStack' inRoot lost := by
  have hfree := m.fresh st.heap
  generalize m.malloc st.heap = a at hstack hfree ⊢
  have hroom : onStack.tail.tail.length < 64 := by
    have hle := hs.length_le
    rw [List.length_tail, List.length_tail]
    omega
  rw [pushTo, List.length_map, if_pos hroom] at hstack htree
  have hon : ∀ t ∈ onStack, t ∈ onStack ++ inRoot := fun t ht => List.mem_append_left _ ht
  have htail : ∀ t ∈ onStack.tail, t ∈ onStack ++ inRoot :=
    fun t ht => hon t (List.mem_of_mem_tail ht)
  have hrest : ∀ t ∈ onStack.tail.tail ++ inRoot, t ∈ onStack ++ inRoot := by
    intro t ht
    rcases List.mem_append.mp ht with ht | ht
    · exact htail t (List.mem_of_mem_tail ht)
    · exact List.mem_append_right _ ht
  have hright := headD_at fun t ht => hs.trees t (hon t ht)
  have hleft := headD_at fun t ht => hs.trees t (htail t ht)
  have hrh := height_headD fun t ht => hs.height_le t (hon t ht)
  have hlh := height_headD fun t ht => hs.height_le t (htail t ht)
  -- the new tree has the nodes of the two that were popped, and its root
  have hperm : (forestAddrs ((.node (a, ch) (onStack.tail.headD .nil) (onStack.headD .nil) ::
      onStack.tail.tail) ++ inRoot) ++ lost).Perm
      (a :: (forestAddrs (onStack ++ inRoot) ++ lost)) := by
    rw [forestAddrs_append, forestAddrs_append, forestAddrs_cons, forestAddrs_pop onStack,
      forestAddrs_pop onStack.tail, treeAddrs_node, List.perm_iff_count]
    intro b
    simp only [List.count_append, List.count_cons]
    omega
  refine ⟨.node (a, ch) (onStack.tail.headD .nil) (onStack.headD .nil) :: onStack.tail.tail,
    hstack, hs.root, htree, hs.tree_root, hmax, htmax, fun t ht => ?_, fun t ht => ?_, ?_, ?_⟩
  · rcases List.mem_cons.mp ht with rfl | ht
    · exact ⟨rfl, _, _, Heap.set_cell_self .., hleft.set (hleft.notMem_of_free hfree) _,
        hright.set (hright.notMem_of_free hfree) _⟩
    · have hold := hs.trees t (hrest t ht)
      exact hold.set (hold.notMem_of_free hfree) _
  · rcases List.mem_cons.mp ht with rfl | ht
    · exact Nat.succ_le_succ (max_le hlh hrh)
    · exact (hs.height_le t (hrest t ht)).trans (Nat.le_succ k)
  · exact (hs.extended.alloc hfree _).congr fun b => hperm.mem_iff.symm
  · refine hperm.nodup_iff.mpr (List.nodup_cons.mpr ⟨fun hmem => ?_, hs.nodup⟩)
    exact ((hs.extended.free_iff a).mp hfree).1 hmem

/-- **A node for a number** is pushed, or lost on a full stack. -/
theorem Sim.number (hs : Sim h₀ k st ps onStack inRoot lost) (m : Allocator (TreeNode ℤ)) (x : ℤ) :
    ∃ onStack' lost', Sim h₀ (k + 1)
      { st with
        stack := push st.stack (some (m.malloc st.heap))
        heap := st.heap.set (m.malloc st.heap) (some ⟨x, none, none⟩) }
      { ps with stack := ExpressionOperation.push ps.stack (ExpressionOperation.bitnodeAlloc x) }
      onStack' inRoot lost' ∧
      lost'.length = lost.length + if 64 ≤ onStack.length then 1 else 0 := by
  have hfree := m.fresh st.heap
  generalize m.malloc st.heap = a at hfree ⊢
  obtain ⟨hpush, hmax⟩ := push_contents st.stack (some a)
  obtain ⟨htree, htmax⟩ := ExpressionOperation.push_contents ps.stack
    (ExpressionOperation.bitnodeAlloc x)
  rw [hs.max, hs.stack, pushTo, List.length_map] at hpush
  rw [hs.tree_max, hs.tree_stack, pushTo, List.length_map] at htree
  have hnotMem : a ∉ forestAddrs (onStack ++ inRoot) ++ lost :=
    ((hs.extended.free_iff a).mp hfree).1
  have hold : ∀ t ∈ onStack ++ inRoot,
      TreeAt (st.heap.set a (some ⟨x, none, none⟩)) (rootPtr t) t :=
    fun t ht => (hs.trees t ht).set ((hs.trees t ht).notMem_of_free hfree) _
  have hheight : ∀ t ∈ onStack ++ inRoot, t.height ≤ k + 1 :=
    fun t ht => (hs.height_le t ht).trans (Nat.le_succ k)
  by_cases hroom : onStack.length < 64
  · rw [if_pos hroom] at hpush htree
    rw [if_neg (Nat.not_le.mpr hroom)]
    have hperm : (forestAddrs ((.node (a, x) .nil .nil :: onStack) ++ inRoot) ++ lost).Perm
        (a :: (forestAddrs (onStack ++ inRoot) ++ lost)) := .refl _
    refine ⟨.node (a, x) .nil .nil :: onStack, lost, ⟨hpush, hs.root, htree, hs.tree_root,
      hmax.trans hs.max, htmax.trans hs.tree_max, fun t ht => ?_, fun t ht => ?_, ?_, ?_⟩, rfl⟩
    · rcases List.mem_cons.mp ht with rfl | ht
      · exact ⟨rfl, none, none, Heap.set_cell_self .., rfl, rfl⟩
      · exact hold t ht
    · rcases List.mem_cons.mp ht with rfl | ht
      · exact Nat.succ_le_succ (Nat.zero_le k)
      · exact hheight t ht
    · exact (hs.extended.alloc hfree _).congr fun b => hperm.mem_iff.symm
    · exact hperm.nodup_iff.mpr (List.nodup_cons.mpr ⟨hnotMem, hs.nodup⟩)
  · rw [if_neg hroom] at hpush htree
    rw [if_pos (Nat.le_of_not_lt hroom)]
    have hperm : (forestAddrs (onStack ++ inRoot) ++ a :: lost).Perm
        (a :: (forestAddrs (onStack ++ inRoot) ++ lost)) := List.perm_middle
    exact ⟨onStack, a :: lost, ⟨hpush, hs.root, htree, hs.tree_root, hmax.trans hs.max,
      htmax.trans hs.tree_max, hold, hheight,
      (hs.extended.alloc hfree _).congr fun b => hperm.mem_iff.symm,
      hperm.nodup_iff.mpr (List.nodup_cons.mpr ⟨hnotMem, hs.nodup⟩)⟩, rfl⟩

/-- **A tree that is popped into `root`.** -/
theorem Sim.newline (hs : Sim h₀ k st ps onStack inRoot lost) :
    Sim h₀ k { st with stack := (pop none st.stack).2, root := st.root ++ [(pop none st.stack).1] }
      ⟨(ExpressionOperation.pop ps.stack).2, ps.root ++ [(ExpressionOperation.pop ps.stack).1]⟩
      onStack.tail (inRoot ++ [onStack.headD .nil]) lost := by
  obtain ⟨hpop, hstack, hmax⟩ := pop_contents none st.stack
  obtain ⟨htpop, htstack, htmax⟩ := ExpressionOperation.pop_contents ps.stack
  rw [hs.stack] at hpop hstack
  rw [hs.tree_stack] at htpop htstack
  have hperm : (forestAddrs (onStack.tail ++ (inRoot ++ [onStack.headD .nil])) ++ lost).Perm
      (forestAddrs (onStack ++ inRoot) ++ lost) := by
    rw [forestAddrs_append, forestAddrs_append, forestAddrs_append, forestAddrs_cons,
      forestAddrs_pop onStack, List.perm_iff_count]
    intro b
    simp only [List.count_append, forestAddrs, List.flatMap_nil, List.append_nil]
    omega
  have hcases : ∀ t ∈ onStack.tail ++ (inRoot ++ [onStack.headD .nil]),
      t ∈ onStack ++ inRoot ∨ t = onStack.headD .nil := by
    intro t ht
    rw [List.mem_append, List.mem_append, List.mem_singleton] at ht
    rcases ht with ht | ht | ht
    · exact .inl (List.mem_append_left _ (List.mem_of_mem_tail ht))
    · exact .inl (List.mem_append_right _ ht)
    · exact .inr ht
  have hon : ∀ t ∈ onStack, t ∈ onStack ++ inRoot := fun t ht => List.mem_append_left _ ht
  refine ⟨?_, ?_, ?_, ?_, hmax.trans hs.max, htmax.trans hs.tree_max, fun t ht => ?_,
    fun t ht => ?_, hs.extended.congr fun b => hperm.mem_iff.symm, hperm.nodup_iff.mpr hs.nodup⟩
  · rw [hstack, List.map_tail]
  · rw [hpop, hs.root, List.map_append, List.map_singleton]
    exact congrArg (List.map rootPtr inRoot ++ [·]) (map_headD rootPtr onStack .nil)
  · rw [htstack, List.map_tail]
  · rw [htpop, hs.tree_root, List.map_append, List.map_singleton]
    exact congrArg (List.map bitree inRoot ++ [·]) (map_headD bitree onStack .nil)
  · rcases hcases t ht with ht | rfl
    · exact hs.trees t ht
    · exact headD_at fun t ht => hs.trees t (hon t ht)
  · rcases hcases t ht with ht | rfl
    · exact hs.height_le t ht
    · exact height_headD fun t ht => hs.height_le t (hon t ht)

/-- The result on the heap for the one on trees, with the number of lost nodes. -/
def Simulates (h₀ : Heap (TreeNode ℤ)) (k n : ℕ) :
    Option ExpressionOperation.State → Option State → Prop
  | none, result => result = none
  | some ps, result => ∃ st onStack inRoot lost, result = some st ∧
      Sim h₀ k st ps onStack inRoot lost ∧ lost.length = n

/-- The node of an operator, behind the two stores. -/
theorem operate_operator (st : State) (m : Allocator (TreeNode ℤ)) {ch : ℤ} (s : Block UInt8)
    (hzero : ch ≠ 0)
    (hop : ch = code '+' ∨ ch = code '-' ∨ ch = code '*' ∨ ch = code '/' ∨ ch = code '%') :
    operate (some m) ch s st = some { st with
      stack := push (pop none (pop none st.stack).2).2 (some (m.malloc st.heap))
      heap := st.heap.set (m.malloc st.heap)
        (some ⟨ch, (pop none (pop none st.stack).2).1, (pop none st.stack).1⟩) } := by
  rw [operate, if_neg hzero, if_pos hop]
  simp only [bitnodeAlloc, ne_eq, Option.some_ne_none, not_false_eq_true, if_true,
    Heap.load_eq (Heap.set_cell_self ..), Heap.store_eq (Heap.set_cell_self ..), Heap.set_set,
    Except.toOption, Option.bind_eq_bind, Option.bind_some]

/-- **One token.** -/
theorem operate_sim (hs : Sim h₀ k st ps onStack inRoot lost)
    (malloc : Option (Allocator (TreeNode ℤ))) (ch : ℤ) (s : Block UInt8) :
    Simulates h₀ (k + 1) (lost.length + lostNodes malloc.isSome ch ps)
      (operateTree malloc.isSome ch s ps) (operate malloc ch s st) := by
  have hlength : ps.stack.contents.length = onStack.length := by
    rw [hs.tree_stack, List.length_map]
  have hlost : lostNodes malloc.isSome ch ps =
      if malloc.isSome = true ∧ ch = 0 ∧ 64 ≤ onStack.length then 1 else 0 := by
    rw [lostNodes, hs.tree_max, hlength]
  by_cases hzero : ch = 0
  · -- a number
    rcases malloc with _ | m
    · rw [operateTree, if_pos ⟨rfl, .inl hzero⟩, operate, if_pos hzero]
      exact ⟨st, onStack, inRoot, lost, rfl, hs.mono, rfl⟩
    · rw [operateTree, if_neg (fun h => Bool.noConfusion h.1), operate, if_pos hzero,
        ExpressionOperation.operate, if_pos hzero]
      obtain ⟨onStack', lost', hs', hlost'⟩ := hs.number m (atoi (cString s))
      refine ⟨_, onStack', inRoot, lost', rfl, hs', ?_⟩
      rw [hlost', hlost]
      simp [hzero]
  have hnone : ¬ (malloc.isSome = true ∧ ch = 0 ∧ 64 ≤ onStack.length) := fun h => hzero h.2.1
  rw [hlost, if_neg hnone, Nat.add_zero]
  by_cases hop : ch = code '+' ∨ ch = code '-' ∨ ch = code '*' ∨ ch = code '/' ∨ ch = code '%'
  · rcases malloc with _ | m
    · rw [operateTree, if_pos ⟨rfl, .inr hop⟩, operate, if_neg hzero, if_pos hop]
      exact ⟨st, onStack, inRoot, lost, rfl, hs.mono, rfl⟩
    · rw [operateTree, if_neg (fun h => Bool.noConfusion h.1), operate_operator st m s hzero hop,
        ExpressionOperation.operate, if_neg hzero, if_pos hop]
      -- what is popped, from both stacks
      obtain ⟨hr, hstack₁, hmax₁⟩ := pop_contents none st.stack
      obtain ⟨hl, hstack₂, hmax₂⟩ := pop_contents none (pop none st.stack).2
      obtain ⟨htr, htstack₁, htmax₁⟩ := ExpressionOperation.pop_contents ps.stack
      obtain ⟨htl, htstack₂, htmax₂⟩ :=
        ExpressionOperation.pop_contents (ExpressionOperation.pop ps.stack).2
      rw [hs.stack] at hr hstack₁
      rw [hs.tree_stack] at htr htstack₁
      rw [hstack₁, ← List.map_tail] at hl hstack₂
      rw [htstack₁, ← List.map_tail] at htl htstack₂
      rw [← List.map_tail] at hstack₂ htstack₂
      have hr : (pop none st.stack).1 = rootPtr (onStack.headD .nil) :=
        hr.trans (map_headD rootPtr onStack .nil)
      have hl : (pop none (pop none st.stack).2).1 = rootPtr (onStack.tail.headD .nil) :=
        hl.trans (map_headD rootPtr onStack.tail .nil)
      have htr : (ExpressionOperation.pop ps.stack).1 = bitree (onStack.headD .nil) :=
        htr.trans (map_headD bitree onStack .nil)
      have htl : (ExpressionOperation.pop (ExpressionOperation.pop ps.stack).2).1 =
          bitree (onStack.tail.headD .nil) :=
        htl.trans (map_headD bitree onStack.tail .nil)
      obtain ⟨hpush, hmax⟩ := push_contents (pop none (pop none st.stack).2).2
        (some (m.malloc st.heap))
      obtain ⟨htpush, htmax⟩ := ExpressionOperation.push_contents
        (ExpressionOperation.pop (ExpressionOperation.pop ps.stack).2).2
        (.node ch (bitree (onStack.tail.headD .nil)) (bitree (onStack.headD .nil)))
      rw [hmax₂, hmax₁, hs.max] at hmax hpush
      rw [htmax₂, htmax₁, hs.tree_max] at htmax htpush
      rw [hstack₂] at hpush
      rw [htstack₂] at htpush
      obtain ⟨onStack', hs'⟩ := hs.operator m ch hpush hmax htpush htmax
      rw [hr, hl]
      refine ⟨_, onStack', inRoot, lost, rfl, ?_, rfl⟩
      rw [← htr, ← htl] at hs'
      exact hs'
  · have hkeep : ¬ (malloc.isSome = false ∧ Allocates ch) := fun h => h.2.elim hzero hop
    rw [operateTree, if_neg hkeep, operate, if_neg hzero, if_neg hop, ExpressionOperation.operate,
      if_neg hzero, if_neg hop]
    by_cases hnewline : ch = code '\n'
    · rw [if_pos hnewline, if_pos hnewline]
      have hlength : st.root.length = ps.root.length := by
        rw [hs.root, hs.tree_root, List.length_map, List.length_map]
      show Simulates _ _ _ (if ps.root.length < 8 then _ else _)
        (if st.root.length < 8 then _ else _)
      rw [hlength]
      by_cases hroom : ps.root.length < 8
      · rw [if_pos hroom, if_pos hroom]
        exact ⟨_, _, _, lost, rfl, hs.newline.mono, rfl⟩
      · rw [if_neg hroom, if_neg hroom]
        rfl
    · rw [if_neg hnewline, if_neg hnewline]
      exact ⟨st, onStack, inRoot, lost, rfl, hs.mono, rfl⟩

theorem Sim.mono_le {k' : ℕ} (hk : k ≤ k') (hs : Sim h₀ k st ps onStack inRoot lost) :
    Sim h₀ k' st ps onStack inRoot lost :=
  { hs with height_le := fun t ht => (hs.height_le t ht).trans hk }

/-- **The loop.**  In `fuel` passes the trees become at most so much higher. -/
theorem mainLoop_sim (malloc : ℕ → Option (Allocator (TreeNode ℤ))) (fuel i : ℕ)
    (s : Block UInt8) (inp : List UInt8) (hs : Sim h₀ k st ps onStack inRoot lost) :
    match treeLoop (fun i => (malloc i).isSome) fuel i s ps lost.length inp with
    | none => mainLoop malloc fuel i s st inp = none
    | some (ps', n) => Simulates h₀ (k + fuel) n (some ps') (mainLoop malloc fuel i s st inp) := by
  induction fuel generalizing k i s inp st ps onStack inRoot lost with
  | zero => rfl
  | succ fuel ih =>
      rw [treeLoop, mainLoop]
      rcases ExpressionOperation.getop s inp with _ | ⟨ch, s, inp⟩
      · rfl
      simp only [Option.bind_eq_bind, Option.bind_some]
      by_cases hch : ch = eof
      · rw [if_pos hch, if_pos hch]
        exact ⟨st, onStack, inRoot, lost, rfl, hs.mono_le (Nat.le_add_right ..), rfl⟩
      rw [if_neg hch, if_neg hch]
      have hstep := operate_sim hs (malloc i) ch s
      rcases htree : operateTree (malloc i).isSome ch s ps with _ | ps'
      · rw [htree] at hstep
        rw [show operate (malloc i) ch s st = none from hstep]
        rfl
      rw [htree] at hstep
      obtain ⟨st', onStack', inRoot', lost', hoperate, hs', hlost⟩ := hstep
      rw [hoperate]
      simp only [Option.bind_some]
      have hrest := ih (i + 1) s inp hs'
      rw [hlost, Nat.add_assoc, Nat.add_comm 1 fuel] at hrest
      exact hrest

end Steps

/-! ### Printing and freeing -/

section Trees

variable {h : Heap (TreeNode ℤ)} {p : Ptr} {t : BinaryTree (ℕ × ℤ)} {fuel : ℕ}

theorem bitree_isNull (ht : TreeAt h p t) : (bitree t).isNull = true ↔ p = none := by
  cases t with
  | nil => exact iff_of_true rfl ht
  | node n l r => exact iff_of_false nofun fun hp => Option.some_ne_none _ (ht.1.symm.trans hp)

/-- The test for a leaf. -/
theorem isNull_and {p' : Ptr} {t' : BinaryTree (ℕ × ℤ)} (ht : TreeAt h p t) (ht' : TreeAt h p' t') :
    ((bitree t).isNull && (bitree t').isNull) = true ↔ p = none ∧ p' = none := by
  rw [Bool.and_eq_true, bitree_isNull ht, bitree_isNull ht']

theorem caculate_eq (ht : TreeAt h p t) (hfuel : t.height < fuel) :
    caculate fuel h p = ExpressionOperation.caculate (bitree t) := by
  induction t generalizing p fuel with
  | nil =>
      obtain ⟨fuel, rfl⟩ := Nat.exists_eq_add_one_of_ne_zero (Nat.ne_zero_of_lt hfuel)
      obtain rfl : p = none := ht
      rfl
  | node n l r ihl ihr =>
      obtain ⟨fuel, rfl⟩ := Nat.exists_eq_add_one_of_ne_zero (Nat.ne_zero_of_lt hfuel)
      obtain ⟨rfl, left, right, ha, hl, hr⟩ := ht
      obtain ⟨hlh, hrh⟩ := max_lt_iff.mp (Nat.lt_of_succ_lt_succ hfuel)
      have hleaf := isNull_and hl hr
      rw [caculate, Heap.load_eq ha, bitree, ExpressionOperation.caculate, ← ihl hl hlh,
        ← ihr hr hrh]
      by_cases hnull : left = none ∧ right = none
      · rw [if_pos (hleaf.mpr hnull)]
        exact if_pos hnull
      · rw [if_neg fun h => hnull (hleaf.mp h)]
        exact if_neg hnull

theorem inorderFn_eq (ht : TreeAt h p t) (hfuel : t.height < fuel) :
    inorderFn fuel h p = ExpressionOperation.inorderFn (bitree t) := by
  induction t generalizing p fuel with
  | nil =>
      obtain ⟨fuel, rfl⟩ := Nat.exists_eq_add_one_of_ne_zero (Nat.ne_zero_of_lt hfuel)
      obtain rfl : p = none := ht
      rfl
  | node n l r ihl ihr =>
      obtain ⟨fuel, rfl⟩ := Nat.exists_eq_add_one_of_ne_zero (Nat.ne_zero_of_lt hfuel)
      obtain ⟨rfl, left, right, ha, hl, hr⟩ := ht
      obtain ⟨hlh, hrh⟩ := max_lt_iff.mp (Nat.lt_of_succ_lt_succ hfuel)
      have hleaf := isNull_and hl hr
      rw [inorderFn, Heap.load_eq ha, bitree, ExpressionOperation.inorderFn, ← ihl hl hlh,
        ← ihr hr hrh]
      by_cases hnull : left = none ∧ right = none
      · rw [if_pos (hleaf.mpr hnull)]
        exact if_pos hnull
      · rw [if_neg fun h => hnull (hleaf.mp h)]
        exact if_neg hnull

theorem visitAll_printfData (t : BinaryTree (ℕ × ℤ)) (out : List UInt8) :
    Calls.visitAll printfData (treeData t).postorder out =
      out ++ ExpressionOperation.bitreePostorder (bitree t) := by
  induction t generalizing out with
  | nil => exact (List.append_nil out).symm
  | node n l r ihl ihr =>
      rw [treeData_node, BinaryTree.postorder, Calls.visitAll_append, Calls.visitAll_append, ihl,
        ihr, bitree, ExpressionOperation.bitreePostorder, Calls.visitAll_cons, Calls.visitAll_nil,
        printfData, List.append_assoc, List.append_assoc, List.append_assoc]

end Trees

/-- **The trees are printed as trees and freed**, or the program stops where the
one on trees does. -/
theorem finish_eq {depth : ℕ} {ts : List (BinaryTree (ℕ × ℤ))} {h : Heap (TreeNode ℤ)}
    (hts : ∀ t ∈ ts, TreeAt h (rootPtr t) t) (hdepth : ∀ t ∈ ts, t.height < depth)
    (hnodup : (forestAddrs ts).Nodup) :
    finish depth (ts.map rootPtr) h = ((ts.map bitree).mapM ExpressionOperation.report).map
      fun reports => (reports, h.without (forestAddrs ts)) := by
  induction ts generalizing h with
  | nil =>
      show some ([], h) = some ([], h.without [])
      rw [Heap.without_nil]
  | cons t ts ih =>
      obtain ⟨ht, hts⟩ := List.forall_mem_cons.mp hts
      obtain ⟨hd, hdepth⟩ := List.forall_mem_cons.mp hdepth
      rw [forestAddrs_cons, List.nodup_append] at hnodup
      obtain ⟨htnodup, hrest, hapart⟩ := hnodup
      have hkeep : ∀ t' ∈ ts, ∀ a ∈ treeAddrs t', a ∉ treeAddrs t := by
        intro t' ht' a ha hmem
        exact hapart a hmem a (List.mem_flatMap.mpr ⟨t', ht', ha⟩) rfl
      have hfinish := ih (h := h.without (treeAddrs t))
        (fun t' ht' => (hts t' ht').without (hkeep t' ht')) hdepth hrest
      have hdestory := bitreeDestory_eq ⟨ht, htnodup⟩ hd
      have hpost : bitreePostorder printfData depth h (rootPtr t) [] =
          .ok ((BitreeInit.bitreePostorder printfData (treeData t) []).1,
            ExpressionOperation.bitreePostorder (bitree t)) := by
        rw [bitreePostorder_eq ht hd]
        refine congrArg Except.ok (Prod.ext rfl ?_)
        rw [BitreeInit.bitreePostorder_visits, visitAll_printfData, List.nil_append]
      rw [List.map_cons, finish, hpost, inorderFn_eq ht hd, caculate_eq ht hd, hdestory,
        List.map_cons, List.mapM_cons, ExpressionOperation.report]
      simp only [Except.toOption, Option.bind_eq_bind, Option.bind_some]
      rw [hfinish, Heap.without_without, ← forestAddrs_cons]
      rcases ExpressionOperation.inorderFn (bitree t) with _ | inorder
      · rfl
      rcases ExpressionOperation.caculate (bitree t) with _ | result
      · rfl
      rcases (ts.map bitree).mapM ExpressionOperation.report with _ | reports
      · rfl
      · rfl

/-! ### The program -/

/-- The nodes of a tree. -/
def size (t : ExpressionOperation.Bitree) : ℕ := t.toTree.numNodes

theorem treeAddrs_length (t : BinaryTree (ℕ × ℤ)) : (treeAddrs t).length = size (bitree t) := by
  rw [size, bitree_toTree]
  induction t with
  | nil => rfl
  | node n l r ihl ihr =>
      rw [treeAddrs_node, List.length_append, List.length_cons, ihl, ihr, treeData_node,
        BinaryTree.numNodes, Nat.add_assoc]

theorem forestAddrs_length (ts : List (BinaryTree (ℕ × ℤ))) :
    (forestAddrs ts).length = ((ts.map bitree).map size).sum := by
  rw [forestAddrs, List.length_flatMap, List.map_map]
  exact congrArg List.sum (List.map_congr_left fun t _ => treeAddrs_length t)

/-- **The program on the heap** prints what the program on trees prints, or stops
where this one does.  If it comes to its end, the nodes that are left are those
of the trees that are still on the stack and those of the lost numbers. -/
theorem expressionOperation_heap (malloc : ℕ → Option (Allocator (TreeNode ℤ))) (inp : List UInt8)
    (h : Heap (TreeNode ℤ)) {depth : ℕ} (hdepth : inp.length + 1 < depth) :
    let built := buildTrees (fun i => (malloc i).isSome) inp
    (expressionOperation malloc depth inp h).map (·.1) =
      (built.bind fun b => b.1.root.mapM ExpressionOperation.report) ∧
    ((∀ i, (malloc i).isSome) → (expressionOperation malloc depth inp h).map (·.1) =
      ExpressionOperation.expressionOperation inp) ∧
    ∀ st lost reports h', built = some (st, lost) →
      expressionOperation malloc depth inp h = some (reports, h') →
      ∃ left, h.Extends h' left ∧ left.Nodup ∧
        left.length = (st.stack.contents.map size).sum + lost := by
  intro built
  have hstart : Sim h 0 ⟨⟨⟨64, fun _ => none⟩, 0, Nat.zero_le _⟩, [], h⟩
      ⟨ExpressionOperation.emptyStack, []⟩ [] [] [] :=
    ⟨rfl, rfl, rfl, rfl, rfl, rfl, fun _ ht => absurd ht List.not_mem_nil,
      fun _ ht => absurd ht List.not_mem_nil, .refl h, List.nodup_nil⟩
  have hloop := mainLoop_sim malloc (inp.length + 1) 0 ⟨8, fun _ => 0⟩ inp hstart
  have hprint : (expressionOperation malloc depth inp h).map (·.1) =
      (built.bind fun b => b.1.root.mapM ExpressionOperation.report) ∧
      ∀ st lost reports h', built = some (st, lost) →
        expressionOperation malloc depth inp h = some (reports, h') →
        ∃ left, h.Extends h' left ∧ left.Nodup ∧
          left.length = (st.stack.contents.map size).sum + lost := by
    rcases hbuilt : built with _ | ⟨ps, n⟩
    · have hnone : mainLoop malloc (inp.length + 1) 0 ⟨8, fun _ => 0⟩
          ⟨⟨⟨64, fun _ => none⟩, 0, Nat.zero_le _⟩, [], h⟩ inp = none := by
        rw [show treeLoop (fun i => (malloc i).isSome) (inp.length + 1) 0 ⟨8, fun _ => 0⟩
          ⟨ExpressionOperation.emptyStack, []⟩ ([] : List ℕ).length inp = none from hbuilt] at hloop
        exact hloop
      rw [expressionOperation, hnone]
      exact ⟨rfl, nofun⟩
    · rw [show treeLoop (fun i => (malloc i).isSome) (inp.length + 1) 0 ⟨8, fun _ => 0⟩
        ⟨ExpressionOperation.emptyStack, []⟩ ([] : List ℕ).length inp = some (ps, n) from hbuilt]
        at hloop
      obtain ⟨st, onStack, inRoot, lost, hmain, hs, hlost⟩ := hloop
      -- the trees in `root` are apart from one another and from what stays
      have hnodup := hs.nodup
      rw [forestAddrs_append, List.append_assoc, List.nodup_append] at hnodup
      obtain ⟨hson, hrest, hapart⟩ := hnodup
      obtain ⟨hroot, hslost, hapart'⟩ := List.nodup_append.mp hrest
      have hin : ∀ t ∈ inRoot, t ∈ onStack ++ inRoot := fun t ht => List.mem_append_right _ ht
      have hdepth : ∀ t ∈ inRoot, t.height < depth :=
        fun t ht => (hs.height_le t (hin t ht)).trans_lt (by omega)
      have hfinish := finish_eq (fun t ht => hs.trees t (hin t ht)) hdepth hroot
      rw [← hs.root, ← hs.tree_root] at hfinish
      rw [expressionOperation, hmain]
      simp only [Option.bind_eq_bind, Option.bind_some, hfinish]
      refine ⟨?_, ?_⟩
      · rw [Option.map_map]
        exact Option.map_id'
      · rintro ps' n' reports h' hps hreports
        obtain ⟨rfl, rfl⟩ := Prod.mk.inj (Option.some.inj hps)
        obtain ⟨reports', -, hret⟩ := Option.map_eq_some_iff.mp hreports
        obtain ⟨rfl, rfl⟩ := Prod.mk.inj hret
        refine ⟨forestAddrs onStack ++ lost, ?_, ?_, ?_⟩
        · have hx : h.Extends st.heap (forestAddrs inRoot ++ (forestAddrs onStack ++ lost)) := by
            refine hs.extended.congr fun a => ?_
            simp only [forestAddrs_append, List.mem_append]
            rw [or_assoc, or_left_comm]
          refine hx.without fun a ha hmem => ?_
          rcases List.mem_append.mp hmem with hmem | hmem
          · exact hapart a hmem a (List.mem_append_left _ ha) rfl
          · exact hapart' a ha a hmem rfl
        · refine List.nodup_append.mpr ⟨hson, hslost, fun a ha b hb => ?_⟩
          exact hapart a ha b (List.mem_append_right _ hb)
        · rw [List.length_append, forestAddrs_length, hlost, hs.tree_stack]
  refine ⟨hprint.1, fun hall => ?_, hprint.2⟩
  have hok : (fun i => (malloc i).isSome) = fun _ => true := funext hall
  rw [hprint.1, ExpressionOperation.expressionOperation, ExpressionOperation.buildTrees,
    ← treeLoop_true _ 0 _ _ 0, show built = treeLoop _ _ 0 _ _ 0 inp from rfl, hok]
  cases treeLoop (fun _ => true) (inp.length + 1) 0 ⟨8, fun _ => 0⟩
    ⟨ExpressionOperation.emptyStack, []⟩ 0 inp <;> rfl

/-- `expressionOperation_heap` for a sum. -/
theorem expressionOperation_heap_sum :
    (expressionOperation (fun _ => some (firstFree _)) 9 (bytes "1 22+\n") .empty).map (·.1) =
      ExpressionOperation.expressionOperation (bytes "1 22+\n") :=
  (expressionOperation_heap (fun _ => some (firstFree _)) (bytes "1 22+\n") .empty
    (by decide)).2.1 fun _ => rfl

end ExpressionHeap

end CodeSnippet
