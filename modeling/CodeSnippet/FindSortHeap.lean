/-
CodeSnippet/FindSortHeap.lean

The program src/algorithm/tree/app/findSort on the heap: it reads numbers,
inserts them into a tree, prints the tree and searches it, and frees it.
`insert_node` writes the pointer that its call for a subtree returns back into
the node, so that the tree behind the root is the one of FindSort.lean.

Main results:
  * `insertNode_eq`, `find_eq` — the functions on pointers.
  * `findSort_main` — what the program prints, and that it frees what it has
    allocated, whatever calls of `malloc` fail.
-/
import CodeSnippet.BitreeHeap
import CodeSnippet.FindSort

namespace CodeSnippet

open Memory BitreeHeap ExpressionOperation

namespace FindSortHeap

/-! ### Source -/

/-- `insert_node`, for so many nested calls. -/
def insertNode (malloc : Option (Allocator (TreeNode ℤ))) :
    ℕ → Heap (TreeNode ℤ) → Ptr → ℤ → Except Fault (Ptr × Heap (TreeNode ℤ))
  | 0, _, _, _ => .error .fuel
  | fuel + 1, h, root, data =>
      if root = none then .ok (bitnodeAlloc malloc h data)
      else do
        let n ← h.load root
        if data < n.data then
          let (left, h) ← insertNode malloc fuel h n.left data
          let n ← h.load root
          let h ← h.store root { n with left := left }
          .ok (root, h)
        else if data > n.data then
          let (right, h) ← insertNode malloc fuel h n.right data
          let n ← h.load root
          let h ← h.store root { n with right := right }
          .ok (root, h)
        else .ok (root, h)

def find : ℕ → Heap (TreeNode ℤ) → Ptr → ℤ → Except Fault Ptr
  | 0, _, _, _ => .error .fuel
  | fuel + 1, h, root, data =>
      if root = none then .ok none
      else do
        let n ← h.load root
        if data = n.data then .ok root
        else if data < n.data then find fuel h n.left data
        else find fuel h n.right data

/-- `print_data`, behind what has been printed. -/
def printData (data : ℤ) (out : List UInt8) : List UInt8 := out ++ padded (bytes (toString data))

def preorder (depth : ℕ) (h : Heap (TreeNode ℤ)) (root : Ptr) (out : List UInt8) :
    Except Fault (List UInt8) := do
  let (_, out) ← bitreePreorder printData depth h root (out ++ bytes "Preorder:\n")
  .ok (out ++ bytes "\n")

def inorder (depth : ℕ) (h : Heap (TreeNode ℤ)) (root : Ptr) (out : List UInt8) :
    Except Fault (List UInt8) := do
  let (_, out) ← bitreeInorder printData depth h root (out ++ bytes "Inorder:\n")
  .ok (out ++ bytes "\n")

def postorder (depth : ℕ) (h : Heap (TreeNode ℤ)) (root : Ptr) (out : List UInt8) :
    Except Fault (List UInt8) := do
  let (_, out) ← bitreePostorder printData depth h root (out ++ bytes "Postorder:\n")
  .ok (out ++ bytes "\n")

def sort (depth : ℕ) (h : Heap (TreeNode ℤ)) (root : Ptr) (out : List UInt8) :
    Except Fault (List UInt8) := do
  let (_, out) ← bitreeInorder printData depth h root (out ++ bytes "Sort:\n")
  .ok (out ++ bytes "\n")

/-- `scanf("%d", &x)`, on the numbers that are left to read.  Where none is left
`x` stays as it is. -/
def scanf (x : ℤ) : List ℤ → ℤ × List ℤ
  | [] => (x, [])
  | y :: inp => (y, inp)

/-- `for (i = 0; i < n; ++i)`, for the passes from `i` on. -/
def insertLoop (malloc : ℕ → Option (Allocator (TreeNode ℤ))) (depth : ℕ) :
    ℕ → ℕ → ℤ → List ℤ → Ptr → Heap (TreeNode ℤ) →
      Except Fault (List ℤ × Ptr × Heap (TreeNode ℤ))
  | 0, _, _, inp, root, h => .ok (inp, root, h)
  | n + 1, i, data, inp, root, h => do
      let (data, inp) := scanf data inp
      let (root, h) ← insertNode (malloc i) depth h root data
      insertLoop malloc depth n (i + 1) data inp root h

/-- `main`, with what is printed.  `data` and `f` are what these variables hold
at first, and `malloc i` is what the loop finds in its pass `i`. -/
def main (malloc : ℕ → Option (Allocator (TreeNode ℤ))) (depth : ℕ) (data f : ℤ) (inp : List ℤ)
    (h : Heap (TreeNode ℤ)) : Except Fault (List UInt8 × ℤ × Heap (TreeNode ℤ)) := do
  let (n, inp) := scanf 0 inp
  let (inp, root, h) ← insertLoop malloc depth n.toNat 0 data inp none h
  let out ← preorder depth h root []
  let out ← inorder depth h root out
  let out ← postorder depth h root out
  let out ← sort depth h root out
  let (f, _) := scanf f inp
  let tmp ← find depth h root f
  let out ←
    if tmp = none then
      .ok (out ++ bytes "number " ++ bytes (toString f) ++ bytes " didn't found.\n")
    else do
      let n ← h.load tmp
      .ok (out ++ bytes "number " ++ bytes (toString n.data) ++ bytes " found.\n")
  let (_, h) ← bitreeDestory depth h root
  .ok (out, 0, h)

/-! ### Insertion -/

/-- Insertion, when there is a node for it. -/
def insertIf (ok : Bool) (t : BinaryTree ℤ) (x : ℤ) : BinaryTree ℤ := if ok then t.insert x else t

theorem insertIf_toTree (ok : Bool) (root : Bitree) (x : ℤ) :
    insertIf ok root.toTree x = (FindSort.insertNode ok root x).toTree := by
  cases ok with
  | false => rw [FindSort.insertNode_false]; rfl
  | true => exact (FindSort.insertNode_true root x).symm

theorem insertIf_node (ok : Bool) (y x : ℤ) (l r : BinaryTree ℤ) :
    insertIf ok (.node y l r) x = if x < y then .node y (insertIf ok l x) r
      else if y < x then .node y l (insertIf ok r x) else .node y l r := by
  cases ok with
  | true => rfl
  | false =>
      show BinaryTree.node y l r = if x < y then .node y l r else if y < x then .node y l r
        else .node y l r
      rw [ite_self, ite_self]

theorem height_insertIf (ok : Bool) (t : BinaryTree ℤ) (x : ℤ) :
    (insertIf ok t x).height ≤ t.height + 1 := by
  induction t with
  | nil => cases ok <;> simp [insertIf, BinaryTree.insert, BinaryTree.height]
  | node y l r ihl ihr =>
      rw [insertIf_node]
      split
      · simp only [BinaryTree.height]
        omega
      · split
        · simp only [BinaryTree.height]
          omega
        · exact Nat.le_succ _

/-- **`insert_node` on the heap** builds the tree with the value, from the nodes
that were there and at most one new one. -/
theorem insertNode_eq {h : Heap (TreeNode ℤ)} {p : Ptr} {t : BinaryTree (ℕ × ℤ)}
    (ht : Owned h p t) {fuel : ℕ} (hfuel : t.height < fuel)
    (malloc : Option (Allocator (TreeNode ℤ))) (data : ℤ) :
    ∃ p' h' t', insertNode malloc fuel h p data = .ok (p', h') ∧ Owned h' p' t' ∧
      treeData t' = insertIf malloc.isSome (treeData t) data ∧
      h.Changes h' (treeAddrs t) (treeAddrs t') := by
  induction t generalizing h p fuel with
  | nil =>
      obtain ⟨fuel, rfl⟩ := Nat.exists_eq_add_one_of_ne_zero (Nat.ne_zero_of_lt hfuel)
      rw [insertNode, if_pos (show p = none from ht.at_ptr)]
      cases malloc with
      | none => exact ⟨none, h, .nil, rfl, .null, rfl, .refl h _⟩
      | some m =>
          obtain ⟨hleaf, hchanges⟩ := Owned.leaf h (m.fresh h) data
          exact ⟨some (m.malloc h), _, .node (m.malloc h, data) .nil .nil, rfl, hleaf, rfl,
            hchanges⟩
  | node n l r ihl ihr =>
      obtain ⟨fuel, rfl⟩ := Nat.exists_eq_add_one_of_ne_zero (Nat.ne_zero_of_lt hfuel)
      obtain ⟨a, x⟩ := n
      obtain ⟨rfl, hal, har, hapart, left, right, ha, hl, hr⟩ := Owned.node_iff.mp ht
      obtain ⟨hlh, hrh⟩ := max_lt_iff.mp (Nat.lt_of_succ_lt_succ hfuel)
      rw [insertNode, if_neg (Option.some_ne_none a), Heap.load_eq ha, ok_bind, treeData_node,
        insertIf_node]
      rcases lt_trichotomy data x with hlt | rfl | hgt
      · obtain ⟨left', h', l', hins, hl', hdata, hchanges⟩ := ihl hl hlh
        obtain ⟨ha', hnode, hchanges⟩ := Owned.store_left ha hal har hapart hr hl' hchanges
        refine ⟨some a, h'.set a (some ⟨x, left', right⟩), .node (a, x) l' r, ?_, hnode, ?_,
          hchanges⟩
        · simp only [if_pos hlt, hins, ok_bind, Heap.load_eq ha', Heap.store_eq ha']
        · rw [treeData_node, hdata, if_pos hlt]
      · -- the value is there already
        refine ⟨some a, h, .node (a, data) l r, ?_, ht, ?_, .refl h _⟩
        · simp only [if_neg (lt_irrefl data), gt_iff_lt]
        · rw [if_neg (lt_irrefl data), if_neg (lt_irrefl data), treeData_node]
      · obtain ⟨right', h', r', hins, hr', hdata, hchanges⟩ := ihr hr hrh
        obtain ⟨ha', hnode, hchanges⟩ := Owned.store_right ha hal har hapart hl hr' hchanges
        refine ⟨some a, h'.set a (some ⟨x, left, right'⟩), .node (a, x) l r', ?_, hnode, ?_,
          hchanges⟩
        · simp only [if_neg hgt.not_gt, gt_iff_lt, if_pos hgt, hins, ok_bind, Heap.load_eq ha',
            Heap.store_eq ha']
        · rw [treeData_node, hdata, if_neg hgt.not_gt, if_pos hgt]

/-! ### Search -/

/-- **`find` on the heap** returns the node that the search in the tree finds. -/
theorem find_eq {h : Heap (TreeNode ℤ)} {p : Ptr} {t : BinaryTree (ℕ × ℤ)} (ht : TreeAt h p t)
    {fuel : ℕ} (hfuel : t.height < fuel) (data : ℤ) :
    ∃ q s, find fuel h p data = .ok q ∧ TreeAt h q s ∧ treeData s = (treeData t).find data := by
  induction t generalizing p fuel with
  | nil =>
      obtain ⟨fuel, rfl⟩ := Nat.exists_eq_add_one_of_ne_zero (Nat.ne_zero_of_lt hfuel)
      exact ⟨none, .nil, if_pos ht, rfl, rfl⟩
  | node n l r ihl ihr =>
      obtain ⟨fuel, rfl⟩ := Nat.exists_eq_add_one_of_ne_zero (Nat.ne_zero_of_lt hfuel)
      obtain ⟨a, x⟩ := n
      have hnode := ht
      obtain ⟨rfl, left, right, ha, hl, hr⟩ := ht
      obtain ⟨hlh, hrh⟩ := max_lt_iff.mp (Nat.lt_of_succ_lt_succ hfuel)
      rw [find, if_neg (Option.some_ne_none a), Heap.load_eq ha, ok_bind, treeData_node,
        BinaryTree.find]
      show ∃ q s, (if data = x then _ else if data < x then _ else _) = _ ∧ _
      split
      · exact ⟨some a, _, rfl, hnode, rfl⟩
      · split
        · exact ihl hl hlh
        · exact ihr hr hrh

/-! ### The loop -/

/-- What the loop inserts from its pass `i` on, and whether there is a node. -/
def calls (malloc : ℕ → Option (Allocator (TreeNode ℤ))) :
    ℕ → ℕ → ℤ → List ℤ → List (ℤ × Bool)
  | 0, _, _, _ => []
  | n + 1, i, data, inp =>
      let (data, inp) := scanf data inp
      (data, (malloc i).isSome) :: calls malloc n (i + 1) data inp

theorem scanf_snd (x : ℤ) (inp : List ℤ) : (scanf x inp).2 = inp.tail := by
  cases inp <;> rfl

/-- **The loop** makes the insertions into the tree, and owns its nodes besides
the heap `h₀` of the start. -/
theorem insertLoop_eq (malloc : ℕ → Option (Allocator (TreeNode ℤ))) {depth : ℕ}
    {h₀ : Heap (TreeNode ℤ)} (n i : ℕ) (data : ℤ) (inp : List ℤ) {root : Ptr}
    {h : Heap (TreeNode ℤ)} {t : BinaryTree (ℕ × ℤ)} {b : Bitree} (ht : Owned h root t)
    (hb : treeData t = b.toTree) (hx : h₀.Extends h (treeAddrs t))
    (hdepth : t.height + n < depth) :
    ∃ root' h' t', insertLoop malloc depth n i data inp root h = .ok (inp.drop n, root', h') ∧
      Owned h' root' t' ∧ h₀.Extends h' (treeAddrs t') ∧ t'.height < depth ∧
      treeData t' = ((calls malloc n i data inp).foldl
        (fun root call => FindSort.insertNode call.2 root call.1) b).toTree := by
  induction n generalizing i data inp root h t b with
  | zero => exact ⟨root, h, t, rfl, ht, hx, hdepth, hb⟩
  | succ n ih =>
      obtain ⟨root₁, h₁, t₁, hins, ht₁, hdata, hchanges⟩ :=
        insertNode_eq ht (by omega : t.height < depth) (malloc i) (scanf data inp).1
      have hheight : t₁.height ≤ t.height + 1 := by
        have hpure := height_insertIf (malloc i).isSome (treeData t) (scanf data inp).1
        rwa [← hdata, treeData_height, treeData_height] at hpure
      rw [hb, insertIf_toTree] at hdata
      obtain ⟨root', h', t', hloop, hend⟩ := ih (i + 1) (scanf data inp).1 (scanf data inp).2 ht₁
        hdata (hchanges.extends_all ht₁.at_ptr.allocated hx) (by omega)
      refine ⟨root', h', t', ?_, hend⟩
      rw [insertLoop]
      rw [scanf_snd, List.drop_tail] at hloop
      simp only [hins, ok_bind, scanf_snd, hloop]

/-! ### The program -/

/-- Some numbers as they are printed. -/
def printed (l : List ℤ) : List UInt8 := l.flatMap fun x => padded (bytes (toString x))

theorem visitAll_printData (l : List ℤ) (out : List UInt8) :
    Calls.visitAll printData l out = out ++ printed l := by
  induction l generalizing out with
  | nil => exact (List.append_nil out).symm
  | cons x l ih => rw [Calls.visitAll_cons, ih, printData, List.append_assoc]; rfl

section Printing

variable {h : Heap (TreeNode ℤ)} {root : Ptr} {t : BinaryTree (ℕ × ℤ)} {depth : ℕ}

theorem preorder_eq (ht : TreeAt h root t) (hdepth : t.height < depth) (out : List UInt8) :
    preorder depth h root out =
      .ok (out ++ bytes "Preorder:\n" ++ printed (treeData t).preorder ++ bytes "\n") := by
  rw [preorder, bitreePreorder_eq ht hdepth, ok_bind]
  show Except.ok ((BitreeInit.bitreePreorder printData (treeData t) _).2 ++ bytes "\n") = _
  rw [BitreeInit.bitreePreorder_visits, visitAll_printData]

theorem inorder_eq (ht : TreeAt h root t) (hdepth : t.height < depth) (out : List UInt8) :
    inorder depth h root out =
      .ok (out ++ bytes "Inorder:\n" ++ printed (treeData t).values ++ bytes "\n") := by
  rw [inorder, bitreeInorder_eq ht hdepth, ok_bind]
  show Except.ok ((BitreeInit.bitreeInorder printData (treeData t) _).2 ++ bytes "\n") = _
  rw [BitreeInit.bitreeInorder_visits, visitAll_printData]

theorem postorder_eq (ht : TreeAt h root t) (hdepth : t.height < depth) (out : List UInt8) :
    postorder depth h root out =
      .ok (out ++ bytes "Postorder:\n" ++ printed (treeData t).postorder ++ bytes "\n") := by
  rw [postorder, bitreePostorder_eq ht hdepth, ok_bind]
  show Except.ok ((BitreeInit.bitreePostorder printData (treeData t) _).2 ++ bytes "\n") = _
  rw [BitreeInit.bitreePostorder_visits, visitAll_printData]

theorem sort_eq (ht : TreeAt h root t) (hdepth : t.height < depth) (out : List UInt8) :
    sort depth h root out =
      .ok (out ++ bytes "Sort:\n" ++ printed (treeData t).values ++ bytes "\n") := by
  rw [sort, bitreeInorder_eq ht hdepth, ok_bind]
  show Except.ok ((BitreeInit.bitreeInorder printData (treeData t) _).2 ++ bytes "\n") = _
  rw [BitreeInit.bitreeInorder_visits, visitAll_printData]

end Printing

/-- The values of the tree are the values that could be inserted, ascending. -/
theorem values_insertNodes (calls : List (ℤ × Bool)) :
    (FindSort.insertNodes calls).toTree.values = (FindSort.succeeded calls).toFinset.sort := by
  have hvalues := BinaryTree.ordered_iff_values.mp (FindSort.insertNodes_ordered calls)
  have hmem : (FindSort.insertNodes calls).toTree.values.toFinset =
      (FindSort.succeeded calls).toFinset := by
    ext x
    rw [List.mem_toFinset, List.mem_toFinset, FindSort.mem_insertNodes, FindSort.mem_succeeded]
  rw [← hmem, (List.toFinset_sort (· ≤ ·) (hvalues.imp ne_of_lt)).mpr (hvalues.imp le_of_lt)]

/-- **The program.**  Whatever it reads and whatever calls of `malloc` fail, it
prints the walks of the tree that the other insertions make, then the inserted
values in ascending order, then whether the last number is one of them; and its
heap is the one it was started with. -/
theorem findSort_main (malloc : ℕ → Option (Allocator (TreeNode ℤ))) {depth : ℕ} (data f₀ : ℤ)
    (inp : List ℤ) (h : Heap (TreeNode ℤ)) (hdepth : (scanf 0 inp).1.toNat < depth) :
    let n := (scanf 0 inp).1.toNat
    let calls := calls malloc n 0 data inp.tail
    let root := FindSort.insertNodes calls
    let sorted := (FindSort.succeeded calls).toFinset.sort
    let f := (scanf f₀ (inp.tail.drop n)).1
    main malloc depth data f₀ inp h = .ok (
      bytes "Preorder:\n" ++ printed root.toTree.preorder ++ bytes "\n" ++
      bytes "Inorder:\n" ++ printed sorted ++ bytes "\n" ++
      bytes "Postorder:\n" ++ printed root.toTree.postorder ++ bytes "\n" ++
      bytes "Sort:\n" ++ printed sorted ++ bytes "\n" ++
      (if f ∈ sorted then bytes "number " ++ bytes (toString f) ++ bytes " found.\n"
        else bytes "number " ++ bytes (toString f) ++ bytes " didn't found.\n"), 0, h) := by
  intro n calls root sorted f
  obtain ⟨p, h', t, hloop, ht, hx, hheight, htree⟩ := insertLoop_eq malloc n 0 data inp.tail
    Owned.null (b := .null) rfl (Heap.Extends.refl h) (by simpa [BinaryTree.height] using hdepth)
  have hroot : treeData t = root.toTree := htree
  have hvalues : root.toTree.values = sorted := values_insertNodes calls
  obtain ⟨q, s, hfind, hs, hfound⟩ := find_eq ht.at_ptr hheight f
  rw [hroot] at hfound
  have hdestory := bitreeDestory_eq ht hheight
  rw [hx.without_eq] at hdestory
  have htail := scanf_snd 0 inp
  rw [← htail] at hloop
  show (insertLoop malloc depth n 0 data (scanf 0 inp).2 none h >>= _) = _
  rw [hloop, ok_bind]
  simp only [ok_bind, preorder_eq ht.at_ptr hheight, inorder_eq ht.at_ptr hheight,
    postorder_eq ht.at_ptr hheight, sort_eq ht.at_ptr hheight, hroot, hvalues, List.nil_append]
  show (find depth h' p (scanf f₀ (List.drop n (scanf 0 inp).2)).1 >>= _) = _
  rw [htail, show (scanf f₀ (List.drop n inp.tail)).1 = f from rfl, hfind, ok_bind]
  by_cases hmem : f ∈ sorted
  · -- the node that was found has the number
    have hord := FindSort.insertNodes_ordered calls
    obtain ⟨l, r, hnode, -⟩ := hord.find_mem (x := f) (by rw [hvalues]; exact hmem)
    rw [hnode] at hfound
    cases s with
    | nil => cases hfound
    | node n l r =>
        obtain ⟨a, x⟩ := n
        obtain ⟨rfl, -, -⟩ := BinaryTree.node.inj hfound
        obtain ⟨rfl, left, right, ha, -, -⟩ := hs
        rw [if_neg (Option.some_ne_none a), if_pos hmem, Heap.load_eq ha]
        simp only [ok_bind, hdestory, List.append_assoc]
  · rw [BinaryTree.find_notMem (by rw [hvalues]; exact hmem)] at hfound
    cases s with
    | node n l r => cases hfound
    | nil =>
        rw [if_pos (show q = none from hs), if_neg hmem]
        simp only [ok_bind, hdestory, List.append_assoc]

/-- `findSort_main` for three numbers, where the second one finds no node. -/
theorem findSort_main_threeNumbers :
    ∃ out, main (fun i => if i = 1 then none else some (firstFree _)) 4 0 0 [3, 2, 5, 1, 5]
      Heap.empty = .ok (out, 0, Heap.empty) :=
  ⟨_, findSort_main _ 0 0 _ _ (by decide)⟩

end FindSortHeap

end CodeSnippet
