/-
CodeSnippet/BitreeHeap.lean

The functions of src/algorithm/tree/bitree on pointers.  A tree in the heap is
walked as the tree behind its pointer, `bitree_init` builds the tree of
BitreeInit.lean whatever calls of `malloc` fail, and `bitree_destory` frees every
node once.

Main results:
  * `bitreePreorder_eq`, `bitreeInorder_eq`, `bitreePostorder_eq` — the walks.
  * `bitreeDestory_eq` — what is freed.
  * `bitreeInit_builds` — the tree in the heap is the tree of `BitreeInit.bitreeInit`.
  * `bitreeInit_destory` — in the end the heap is what it was.
-/
import CodeSnippet.BitreeInit
import CodeSnippet.TreeHeap

namespace CodeSnippet

open Memory

namespace BitreeHeap

/-! ### Source -/

/-- `bitnode_alloc`; without an allocator `malloc` returns `NULL`. -/
def bitnodeAlloc (malloc : Option (Allocator (TreeNode ℤ))) (h : Heap (TreeNode ℤ)) (data : ℤ) :
    Ptr × Heap (TreeNode ℤ) :=
  match malloc with
  | none => (none, h)
  | some m => (some (m.malloc h), h.set (m.malloc h) (some ⟨data, none, none⟩))

def bitnodeFree (h : Heap (TreeNode ℤ)) (node : Ptr) : Except Fault (ℤ × Heap (TreeNode ℤ)) :=
  if node = none then .ok (-1, h)
  else do
    let h ← h.free node
    .ok (0, h)

/-- `bitree_destory`, for so many nested calls. -/
def bitreeDestory : ℕ → Heap (TreeNode ℤ) → Ptr → Except Fault (ℤ × Heap (TreeNode ℤ))
  | 0, _, _ => .error .fuel
  | fuel + 1, h, root =>
      if root = none then .ok (-1, h)
      else do
        let n ← h.load root
        let (_, h) ← bitreeDestory fuel h n.left
        let n ← h.load root
        let (_, h) ← bitreeDestory fuel h n.right
        let (_, h) ← bitnodeFree h root
        .ok (0, h)

section Walks

variable {σ : Type} (visit : ℤ → σ → σ)

def bitreePreorder : ℕ → Heap (TreeNode ℤ) → Ptr → σ → Except Fault (ℤ × σ)
  | 0, _, _, _ => .error .fuel
  | fuel + 1, h, root, s =>
      if root = none then .ok (-1, s)
      else do
        let n ← h.load root
        let s := visit n.data s
        let (_, s) ← bitreePreorder fuel h n.left s
        let (_, s) ← bitreePreorder fuel h n.right s
        .ok (0, s)

def bitreeInorder : ℕ → Heap (TreeNode ℤ) → Ptr → σ → Except Fault (ℤ × σ)
  | 0, _, _, _ => .error .fuel
  | fuel + 1, h, root, s =>
      if root = none then .ok (-1, s)
      else do
        let n ← h.load root
        let (_, s) ← bitreeInorder fuel h n.left s
        let s := visit n.data s
        let (_, s) ← bitreeInorder fuel h n.right s
        .ok (0, s)

def bitreePostorder : ℕ → Heap (TreeNode ℤ) → Ptr → σ → Except Fault (ℤ × σ)
  | 0, _, _, _ => .error .fuel
  | fuel + 1, h, root, s =>
      if root = none then .ok (-1, s)
      else do
        let n ← h.load root
        let (_, s) ← bitreePostorder fuel h n.left s
        let (_, s) ← bitreePostorder fuel h n.right s
        let s := visit n.data s
        .ok (0, s)

end Walks

def bitreeGetlevel : ℕ → Heap (TreeNode ℤ) → Ptr → Except Fault ℕ
  | 0, _, _ => .error .fuel
  | fuel + 1, h, root =>
      if root = none then .ok 0
      else do
        let n ← h.load root
        let leftlevel ← bitreeGetlevel fuel h n.left
        let rightlevel ← bitreeGetlevel fuel h n.right
        .ok (if leftlevel > rightlevel then leftlevel + 1 else rightlevel + 1)

/-- `bitree_init`, with the number of calls of `malloc` so far.  There is no
result when a number overflows. -/
def bitreeInit (malloc : ℕ → Option (Allocator (TreeNode ℤ))) :
    ℕ → ℕ → Heap (TreeNode ℤ) → ℤ → ℤ → Option (Ptr × ℕ × Heap (TreeNode ℤ))
  | 0, _, _, _, _ => none
  | fuel + 1, calls, h, start, last =>
      if start > last then some (none, calls, h)
      else
        let (root, h) := bitnodeAlloc (malloc calls) h start
        if root = none then some (none, calls + 1, h)
        else do
          let twice ← checkedInt (start * 2)
          let (left, calls, h) ← bitreeInit malloc fuel (calls + 1) h twice last
          let n ← (h.load root).toOption
          let h ← (h.store root { n with left := left }).toOption
          let twice ← checkedInt (start * 2)
          let twiceAndOne ← checkedInt (twice + 1)
          let (right, calls, h) ← bitreeInit malloc fuel calls h twiceAndOne last
          let n ← (h.load root).toOption
          let h ← (h.store root { n with right := right }).toOption
          some (root, calls, h)

/-! ### Walks -/

section Walks

variable {h : Heap (TreeNode ℤ)} {p : Ptr} {t : BinaryTree (ℕ × ℤ)} {fuel : ℕ} {σ : Type}

/-- **Preorder** visits the tree behind the pointer. -/
theorem bitreePreorder_eq (ht : TreeAt h p t) (hfuel : t.height < fuel) (visit : ℤ → σ → σ)
    (s : σ) :
    bitreePreorder visit fuel h p s = .ok (BitreeInit.bitreePreorder visit (treeData t) s) := by
  induction t generalizing p fuel s with
  | nil =>
      obtain ⟨fuel, rfl⟩ := Nat.exists_eq_add_one_of_ne_zero (Nat.ne_zero_of_lt hfuel)
      exact if_pos ht
  | node n l r ihl ihr =>
      obtain ⟨fuel, rfl⟩ := Nat.exists_eq_add_one_of_ne_zero (Nat.ne_zero_of_lt hfuel)
      obtain ⟨a, x⟩ := n
      obtain ⟨rfl, left, right, ha, hl, hr⟩ := ht
      obtain ⟨hlh, hrh⟩ := max_lt_iff.mp (Nat.lt_of_succ_lt_succ hfuel)
      rw [bitreePreorder, if_neg (Option.some_ne_none a), Heap.load_eq ha, ok_bind]
      show (bitreePreorder visit fuel h left _ >>= _) = _
      rw [ihl hl hlh, ok_bind]
      show (bitreePreorder visit fuel h right _ >>= _) = _
      rw [ihr hr hrh]
      rfl

theorem bitreeInorder_eq (ht : TreeAt h p t) (hfuel : t.height < fuel) (visit : ℤ → σ → σ)
    (s : σ) :
    bitreeInorder visit fuel h p s = .ok (BitreeInit.bitreeInorder visit (treeData t) s) := by
  induction t generalizing p fuel s with
  | nil =>
      obtain ⟨fuel, rfl⟩ := Nat.exists_eq_add_one_of_ne_zero (Nat.ne_zero_of_lt hfuel)
      exact if_pos ht
  | node n l r ihl ihr =>
      obtain ⟨fuel, rfl⟩ := Nat.exists_eq_add_one_of_ne_zero (Nat.ne_zero_of_lt hfuel)
      obtain ⟨a, x⟩ := n
      obtain ⟨rfl, left, right, ha, hl, hr⟩ := ht
      obtain ⟨hlh, hrh⟩ := max_lt_iff.mp (Nat.lt_of_succ_lt_succ hfuel)
      rw [bitreeInorder, if_neg (Option.some_ne_none a), Heap.load_eq ha, ok_bind]
      show (bitreeInorder visit fuel h left s >>= _) = _
      rw [ihl hl hlh, ok_bind]
      show (bitreeInorder visit fuel h right _ >>= _) = _
      rw [ihr hr hrh]
      rfl

theorem bitreePostorder_eq (ht : TreeAt h p t) (hfuel : t.height < fuel) (visit : ℤ → σ → σ)
    (s : σ) :
    bitreePostorder visit fuel h p s = .ok (BitreeInit.bitreePostorder visit (treeData t) s) := by
  induction t generalizing p fuel s with
  | nil =>
      obtain ⟨fuel, rfl⟩ := Nat.exists_eq_add_one_of_ne_zero (Nat.ne_zero_of_lt hfuel)
      exact if_pos ht
  | node n l r ihl ihr =>
      obtain ⟨fuel, rfl⟩ := Nat.exists_eq_add_one_of_ne_zero (Nat.ne_zero_of_lt hfuel)
      obtain ⟨a, x⟩ := n
      obtain ⟨rfl, left, right, ha, hl, hr⟩ := ht
      obtain ⟨hlh, hrh⟩ := max_lt_iff.mp (Nat.lt_of_succ_lt_succ hfuel)
      rw [bitreePostorder, if_neg (Option.some_ne_none a), Heap.load_eq ha, ok_bind]
      show (bitreePostorder visit fuel h left s >>= _) = _
      rw [ihl hl hlh, ok_bind]
      show (bitreePostorder visit fuel h right _ >>= _) = _
      rw [ihr hr hrh]
      rfl

theorem bitreeGetlevel_eq (ht : TreeAt h p t) (hfuel : t.height < fuel) :
    bitreeGetlevel fuel h p = .ok (BitreeInit.bitreeGetlevel (treeData t)) := by
  induction t generalizing p fuel with
  | nil =>
      obtain ⟨fuel, rfl⟩ := Nat.exists_eq_add_one_of_ne_zero (Nat.ne_zero_of_lt hfuel)
      exact if_pos ht
  | node n l r ihl ihr =>
      obtain ⟨fuel, rfl⟩ := Nat.exists_eq_add_one_of_ne_zero (Nat.ne_zero_of_lt hfuel)
      obtain ⟨a, x⟩ := n
      obtain ⟨rfl, left, right, ha, hl, hr⟩ := ht
      obtain ⟨hlh, hrh⟩ := max_lt_iff.mp (Nat.lt_of_succ_lt_succ hfuel)
      rw [bitreeGetlevel, if_neg (Option.some_ne_none a), Heap.load_eq ha, ok_bind]
      show (bitreeGetlevel fuel h left >>= _) = _
      rw [ihl hl hlh, ok_bind]
      show (bitreeGetlevel fuel h right >>= _) = _
      rw [ihr hr hrh]
      rfl

end Walks

/-! ### Freeing -/

/-- **`bitree_destory` frees the nodes of the tree**, each once, and no others. -/
theorem bitreeDestory_eq {h : Heap (TreeNode ℤ)} {p : Ptr} {t : BinaryTree (ℕ × ℤ)}
    (ht : Owned h p t) {fuel : ℕ} (hfuel : t.height < fuel) :
    bitreeDestory fuel h p = .ok (if p = none then -1 else 0, h.without (treeAddrs t)) := by
  induction t generalizing h p fuel with
  | nil =>
      obtain ⟨fuel, rfl⟩ := Nat.exists_eq_add_one_of_ne_zero (Nat.ne_zero_of_lt hfuel)
      rw [treeAddrs_nil, Heap.without_nil, if_pos (show p = none from ht.at_ptr)]
      exact if_pos ht.at_ptr
  | node n l r ihl ihr =>
      obtain ⟨fuel, rfl⟩ := Nat.exists_eq_add_one_of_ne_zero (Nat.ne_zero_of_lt hfuel)
      obtain ⟨a, x⟩ := n
      obtain ⟨rfl, hal, har, hapart, left, right, ha, hl, hr⟩ := Owned.node_iff.mp ht
      obtain ⟨hlh, hrh⟩ := max_lt_iff.mp (Nat.lt_of_succ_lt_succ hfuel)
      -- the root and the right subtree are still there behind the first call
      have ha₁ : (h.without (treeAddrs l)).cell a = some ⟨x, left, right⟩ :=
        (Heap.without_cell_ne hal h).trans ha
      have hr₁ : Owned (h.without (treeAddrs l)) right r :=
        hr.congr fun b hb => Heap.without_cell_ne (fun hbl => hapart b hbl hb) h
      have ha₂ : (h.without (treeAddrs l ++ treeAddrs r)).cell a = some ⟨x, left, right⟩ := by
        rw [← Heap.without_without, Heap.without_cell_ne har, ha₁]
      rw [bitreeDestory, if_neg (Option.some_ne_none a), Heap.load_eq ha, ok_bind]
      show (bitreeDestory fuel h left >>= _) = _
      rw [ihl hl hlh, ok_bind]
      show ((h.without (treeAddrs l)).load (some a) >>= _) = _
      rw [Heap.load_eq ha₁, ok_bind]
      show (bitreeDestory fuel _ right >>= _) = _
      rw [ihr hr₁ hrh, ok_bind, Heap.without_without]
      show (bitnodeFree _ (some a) >>= _) = _
      rw [bitnodeFree, if_neg (Option.some_ne_none a), Heap.free_eq ha₂, Heap.set_none,
        Heap.without_without, if_neg (Option.some_ne_none a)]
      refine congrArg (fun h => Except.ok (0, h)) (Heap.without_congr (fun b => ?_) h)
      rw [treeAddrs_node, List.append_assoc]
      simp only [List.mem_append, List.mem_cons, List.not_mem_nil, or_false]
      rw [or_comm (a := b ∈ treeAddrs r)]

/-! ### Building -/

/-- The result that `bitree_init` should have on the heap `h`: the tree is made
of new nodes. -/
def Builds (h : Heap (TreeNode ℤ)) :
    Option (BinaryTree ℤ × ℕ) → Option (Ptr × ℕ × Heap (TreeNode ℤ)) → Prop
  | none, result => result = none
  | some (t, calls), result => ∃ p h' t', result = some (p, calls, h') ∧ Owned h' p t' ∧
      treeData t' = t ∧ h.Changes h' [] (treeAddrs t')

/-- **`bitree_init` builds the tree of `BitreeInit.bitreeInit`**, and has a
result where this has one. -/
theorem bitreeInit_builds (malloc : ℕ → Option (Allocator (TreeNode ℤ))) (fuel calls : ℕ)
    (h : Heap (TreeNode ℤ)) (start last : ℤ) :
    Builds h (BitreeInit.bitreeInit (fun i => (malloc i).isSome) fuel calls start last)
      (bitreeInit malloc fuel calls h start last) := by
  induction fuel generalizing calls h start with
  | zero => rfl
  | succ fuel ih =>
      rw [BitreeInit.bitreeInit, bitreeInit]
      by_cases hend : start > last
      · rw [if_pos hend, if_pos hend]
        exact ⟨none, h, .nil, rfl, .null, rfl, .refl h []⟩
      rw [if_neg hend, if_neg hend]
      rcases hmalloc : malloc calls with _ | m
      · exact ⟨none, h, .nil, rfl, .null, rfl, .refl h []⟩
      rw [if_neg (show ¬ (some m).isSome = false by simp)]
      generalize ha : m.malloc h = a
      have hroot : bitnodeAlloc (some m) h start =
          (some a, h.set a (some ⟨start, none, none⟩)) := by
        rw [← ha]
        rfl
      rw [hroot]
      simp only [if_neg (Option.some_ne_none a)]
      -- the node, which gets its subtrees one behind the other
      obtain ⟨hleaf, hchanges₁⟩ := Owned.leaf h (ha ▸ m.fresh h) start
      generalize h.set a (some ⟨start, none, none⟩) = h₁ at hleaf hchanges₁
      obtain ⟨-, hal, har, hapart, _, _, ha₁, hnull, hr₁⟩ := Owned.node_iff.mp hleaf
      obtain rfl := hnull.at_ptr
      obtain rfl := hr₁.at_ptr
      rcases checkedInt (start * 2) with _ | twice
      · rfl
      simp only [Option.bind_eq_bind, Option.bind_some]
      have hleft := ih (calls + 1) h₁ twice
      rcases hpure : BitreeInit.bitreeInit (fun i => (malloc i).isSome) fuel (calls + 1) twice last
        with _ | ⟨l, calls₁⟩
      · rw [hpure] at hleft
        rw [show bitreeInit malloc fuel (calls + 1) h₁ twice last = none from hleft]
        rfl
      rw [hpure] at hleft
      obtain ⟨left, h₂, l, hleft, hl, rfl, hgl⟩ := hleft
      obtain ⟨ha₂, hnode, hchanges₂⟩ := Owned.store_left ha₁ hal har hapart hr₁ hl hgl
      simp only [hleft, Option.bind_some]
      rw [Heap.load_eq ha₂]
      simp only [Except.toOption, Option.bind_some]
      rw [Heap.store_eq ha₂]
      simp only [Option.bind_some]
      generalize h₂.set a (some ⟨start, left, none⟩) = h₃ at hnode hchanges₂
      obtain ⟨-, hal, har, hapart, _, _, ha₃, hl₃, hnull⟩ := Owned.node_iff.mp hnode
      obtain rfl := hnull.at_ptr
      rcases checkedInt (twice + 1) with _ | twiceAndOne
      · rfl
      simp only [Option.bind_some]
      have hright := ih calls₁ h₃ twiceAndOne
      rcases hpure : BitreeInit.bitreeInit (fun i => (malloc i).isSome) fuel calls₁ twiceAndOne last
        with _ | ⟨r, calls₂⟩
      · rw [hpure] at hright
        rw [show bitreeInit malloc fuel calls₁ h₃ twiceAndOne last = none from hright]
        rfl
      rw [hpure] at hright
      obtain ⟨right, h₄, r, hright, hr, rfl, hgr⟩ := hright
      obtain ⟨ha₄, hnode, hchanges₃⟩ := Owned.store_right ha₃ hal har hapart hl₃ hr hgr
      simp only [hright, Option.bind_some]
      rw [Heap.load_eq ha₄]
      simp only [Option.bind_some]
      rw [Heap.store_eq ha₄]
      exact ⟨some a, _, .node (a, start) l r, rfl, hnode, rfl,
        (hchanges₁.trans hchanges₂).trans hchanges₃⟩

/-- **From `bitree_init` to `bitree_destory`.**  Where `bitree_init` comes to an
end, whatever calls of `malloc` fail in it, the functions find the tree of
`BitreeInit.bitreeInit` behind the pointer that it returns, and `bitree_destory`
leaves the heap that was there at the start. -/
theorem bitreeInit_destory (malloc : ℕ → Option (Allocator (TreeNode ℤ)))
    (h : Heap (TreeNode ℤ)) {start last : ℤ}
    (hends : last < start ∨ (1 ≤ start ∧ last < start * 2 ^ (30 - Nat.log 2 start.toNat))) :
    ∃ fuel t calls p h',
      BitreeInit.bitreeInit (fun i => (malloc i).isSome) fuel 0 start last = some (t, calls) ∧
      bitreeInit malloc fuel 0 h start last = some (p, calls, h') ∧
      ∀ depth, t.height < depth →
        (∀ (σ : Type) (visit : ℤ → σ → σ) (s : σ),
          bitreePreorder visit depth h' p s = .ok (BitreeInit.bitreePreorder visit t s) ∧
          bitreeInorder visit depth h' p s = .ok (BitreeInit.bitreeInorder visit t s) ∧
          bitreePostorder visit depth h' p s = .ok (BitreeInit.bitreePostorder visit t s)) ∧
        bitreeGetlevel depth h' p = .ok (BitreeInit.bitreeGetlevel t) ∧
        bitreeDestory depth h' p = .ok (if p = none then -1 else 0, h) := by
  have hpure : ∃ fuel t calls,
      BitreeInit.bitreeInit (fun i => (malloc i).isSome) fuel 0 start last = some (t, calls) := by
    rcases hends with hend | ⟨hstart, hlast⟩
    · exact ⟨1, .nil, 0, if_pos hend⟩
    · obtain ⟨t, calls, hrun⟩ := BitreeInit.bitreeInit_ends (fun i => (malloc i).isSome) hstart
        (BitreeInit.fits_of_lt hstart hlast) (Nat.lt_succ_self _) 0
      exact ⟨_, t, calls, hrun⟩
  obtain ⟨fuel, t, calls, hpure⟩ := hpure
  have hbuilds := bitreeInit_builds malloc fuel 0 h start last
  rw [hpure] at hbuilds
  obtain ⟨p, h', t, hinit, ht, rfl, hchanges⟩ := hbuilds
  refine ⟨fuel, treeData t, calls, p, h', hpure, hinit, fun depth hdepth => ?_⟩
  rw [treeData_height] at hdepth
  refine ⟨fun σ visit s => ⟨bitreePreorder_eq ht.at_ptr hdepth visit s,
    bitreeInorder_eq ht.at_ptr hdepth visit s, bitreePostorder_eq ht.at_ptr hdepth visit s⟩,
    bitreeGetlevel_eq ht.at_ptr hdepth, ?_⟩
  rw [bitreeDestory_eq ht hdepth]
  have hx := hchanges.extends_all ht.at_ptr.allocated (Heap.Extends.refl h)
  rw [hx.without_eq]

/-- `bitreeInit_destory` for six nodes, the fourth of which is refused. -/
theorem bitreeInit_destory_sixNodes : ∃ fuel calls p h' depth,
    bitreeInit (fun i => if i = 3 then none else some (firstFree _)) fuel 0 Heap.empty 1 6 =
      some (p, calls, h') ∧
    bitreeDestory depth h' p = .ok (if p = none then -1 else 0, Heap.empty) := by
  have hends : (6 : ℤ) < 1 ∨ (1 ≤ (1 : ℤ) ∧ (6 : ℤ) < 1 * 2 ^ (30 - Nat.log 2 (Int.toNat 1))) :=
    .inr ⟨le_rfl, by norm_num⟩
  obtain ⟨fuel, t, calls, p, h', -, hinit, hall⟩ :=
    bitreeInit_destory (fun i => if i = 3 then none else some (firstFree _)) Heap.empty hends
  exact ⟨fuel, calls, p, h', t.height + 1, hinit, (hall _ (Nat.lt_succ_self _)).2.2⟩

end BitreeHeap

end CodeSnippet
