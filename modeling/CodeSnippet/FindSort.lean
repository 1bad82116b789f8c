/-
CodeSnippet/FindSort.lean

The search trees of src/algorithm/tree/app/findSort, with the node allocation
and the walks of src/algorithm/tree/bitree.  A tree is its `BinaryTree`
(`Bitree.toTree`), and the functions are those of SearchTree.lean on it.

Main results:
  * `insertNodes_spec` — order, walk, search and failing insertions, after any
    insertions.
  * `insertNodes_preorder` — a tree is built again by inserting its preorder.
-/
import CodeSnippet.Calls
import CodeSnippet.ExpressionOperation
import CodeSnippet.SearchTree

namespace CodeSnippet

open Calls ExpressionOperation

namespace FindSort

/-! ### Source -/

/-- `bitnode_alloc`, where `ok` says whether `malloc` has a node. -/
def bitnodeAlloc (ok : Bool) (data : ℤ) : Bitree :=
  if ok then ExpressionOperation.bitnodeAlloc data else .null

/-- `insert_node`.  At most one node is allocated, and `ok` says if it can be. -/
def insertNode (ok : Bool) : Bitree → ℤ → Bitree
  | .null, data => bitnodeAlloc ok data
  | .node d left right, data =>
      if data < d then .node d (insertNode ok left data) right
      else if d < data then .node d left (insertNode ok right data)
      else .node d left right

def find : Bitree → ℤ → Bitree
  | .null, _ => .null
  | .node d left right, data =>
      if data = d then .node d left right
      else if data < d then find left data
      else find right data

section Walks

variable {σ : Type*} (visit : ℤ → σ → σ)

/-- `bitree_preorder`: its return code, and what the calls of `visit` leave. -/
def bitreePreorder : Bitree → σ → ℤ × σ
  | .null, s => (-1, s)
  | .node data left right, s =>
      let s := visit data s
      let s := (bitreePreorder left s).2
      (0, (bitreePreorder right s).2)

/-- `bitree_inorder` -/
def bitreeInorder : Bitree → σ → ℤ × σ
  | .null, s => (-1, s)
  | .node data left right, s =>
      let s := (bitreeInorder left s).2
      let s := visit data s
      (0, (bitreeInorder right s).2)

end Walks

/-- The values that `bitree_preorder` visits. -/
def preorder (root : Bitree) : List ℤ := (bitreePreorder record root []).2

/-- The values that `bitree_inorder` visits. -/
def inorder (root : Bitree) : List ℤ := (bitreeInorder record root []).2

/-- Calls of `insert_node`, from the first to the last, on a tree that is
`NULL` at the start. -/
def insertNodes (calls : List (ℤ × Bool)) : Bitree :=
  calls.foldl (fun root call => insertNode call.2 root call.1) .null

end FindSort

namespace ExpressionOperation

/-! ### The tree -/

def Bitree.toTree : Bitree → BinaryTree ℤ
  | null => .nil
  | node data left right => .node data left.toTree right.toTree

theorem Bitree.toTree_injective : Function.Injective toTree := by
  intro t t' h
  induction t generalizing t' with
  | null =>
      cases t' with
      | null => rfl
      | node d l r => cases h
  | node d l r ihl ihr =>
      cases t' with
      | null => cases h
      | node d' l' r' =>
          obtain ⟨rfl, hl, hr⟩ := BinaryTree.node.inj h
          rw [ihl hl, ihr hr]

end ExpressionOperation

namespace FindSort

theorem insertNode_true (root : Bitree) (data : ℤ) :
    (insertNode true root data).toTree = root.toTree.insert data := by
  induction root with
  | null => rfl
  | node d l r ihl ihr =>
      rw [insertNode, Bitree.toTree, BinaryTree.insert, ← ihl, ← ihr]
      split
      · rfl
      · split
        · rfl
        · rfl

/-- **Without a node nothing changes.** -/
theorem insertNode_false (root : Bitree) (data : ℤ) : insertNode false root data = root := by
  induction root with
  | null => rfl
  | node d l r ihl ihr => rw [insertNode, ihl, ihr, ite_self, ite_self]

theorem find_toTree (root : Bitree) (data : ℤ) :
    (find root data).toTree = root.toTree.find data := by
  induction root with
  | null => rfl
  | node d l r ihl ihr =>
      rw [find, Bitree.toTree, BinaryTree.find, ← ihl, ← ihr]
      split
      · rfl
      · split
        · rfl
        · rfl

theorem bitreePreorder_eq {σ : Type*} (visit : ℤ → σ → σ) (root : Bitree) (s : σ) :
    (bitreePreorder visit root s).2 = visitAll visit root.toTree.preorder s := by
  induction root generalizing s with
  | null => rfl
  | node d l r ihl ihr =>
      rw [bitreePreorder, ihl, ihr, Bitree.toTree, BinaryTree.preorder, visitAll_cons,
        visitAll_append]

theorem bitreeInorder_eq {σ : Type*} (visit : ℤ → σ → σ) (root : Bitree) (s : σ) :
    (bitreeInorder visit root s).2 = visitAll visit root.toTree.values s := by
  induction root generalizing s with
  | null => rfl
  | node d l r ihl ihr =>
      rw [bitreeInorder, ihl, ihr, Bitree.toTree, BinaryTree.values, visitAll_append,
        visitAll_cons]

theorem preorder_eq (root : Bitree) : preorder root = root.toTree.preorder := by
  rw [preorder, bitreePreorder_eq, visitAll_record, List.nil_append]

theorem inorder_eq (root : Bitree) : inorder root = root.toTree.values := by
  rw [inorder, bitreeInorder_eq, visitAll_record, List.nil_append]

/-! ### Histories -/

/-- The values whose insertion finds a node. -/
def succeeded (calls : List (ℤ × Bool)) : List ℤ := (calls.filter (·.2)).map (·.1)

theorem mem_succeeded {x : ℤ} {calls : List (ℤ × Bool)} :
    x ∈ succeeded calls ↔ (x, true) ∈ calls := by
  rw [succeeded, List.mem_map]
  constructor
  · rintro ⟨⟨y, ok⟩, hmem, rfl⟩
    obtain ⟨hmem, rfl⟩ := List.mem_filter.mp hmem
    exact hmem
  · intro hmem
    exact ⟨(x, true), List.mem_filter.mpr ⟨hmem, rfl⟩, rfl⟩

/-- **A history builds the tree of its successful insertions.** -/
theorem insertNodes_toTree (calls : List (ℤ × Bool)) :
    (insertNodes calls).toTree = BinaryTree.nil.insertAll (succeeded calls) := by
  induction calls using List.reverseRecOn with
  | nil => rfl
  | append_singleton calls call ih =>
      obtain ⟨data, ok⟩ := call
      -- the last call meets the tree that the others have built
      rw [insertNodes, List.foldl_append, ← insertNodes, succeeded, List.filter_append,
        List.map_append, BinaryTree.insertAll_append, ← succeeded, ← ih]
      cases ok with
      | false => exact congrArg Bitree.toTree (insertNode_false _ data)
      | true => exact insertNode_true _ data

theorem insertNodes_ordered (calls : List (ℤ × Bool)) : (insertNodes calls).toTree.Ordered := by
  rw [insertNodes_toTree]
  have hnil : (BinaryTree.nil : BinaryTree ℤ).Ordered := trivial
  exact hnil.insertAll _

theorem mem_insertNodes {x : ℤ} {calls : List (ℤ × Bool)} :
    x ∈ (insertNodes calls).toTree.values ↔ (x, true) ∈ calls := by
  rw [insertNodes_toTree, BinaryTree.mem_insertAll, mem_succeeded]
  exact or_iff_left List.not_mem_nil

/-- **The tree after any insertions**, some of which found no node: it is
ordered; the inorder walk visits the values that were inserted, ascending;
`find` finds these and no others; and an insertion changes nothing if its value
is there or there is no node for it. -/
theorem insertNodes_spec (calls : List (ℤ × Bool)) :
    (insertNodes calls).toTree.Ordered ∧
    ((inorder (insertNodes calls)).Pairwise (· < ·) ∧
      ∀ x, x ∈ inorder (insertNodes calls) ↔ (x, true) ∈ calls) ∧
    (∀ x, if (x, true) ∈ calls then
        ∃ l r, find (insertNodes calls) x = .node x l r ∧
          BinaryTree.Below (Bitree.node x l r).toTree (insertNodes calls).toTree
      else find (insertNodes calls) x = .null) ∧
    (∀ x ok, (x, true) ∈ calls ∨ ok = false → insertNode ok (insertNodes calls) x =
      insertNodes calls) := by
  have hord := insertNodes_ordered calls
  rw [inorder_eq]
  refine ⟨hord, ⟨BinaryTree.ordered_iff_values.mp hord, fun x => mem_insertNodes⟩, ?_, ?_⟩
  · intro x
    have hfind := find_toTree (insertNodes calls) x
    split
    · rename_i hmem
      -- the tree that the library finds is the one that `find` returns
      obtain ⟨l, r, hnode, hbelow⟩ := hord.find_mem (mem_insertNodes.mpr hmem)
      rw [← hfind] at hnode
      rcases hroot : find (insertNodes calls) x with _ | ⟨d, l', r'⟩
      · rw [hroot] at hnode
        cases hnode
      · rw [hroot] at hnode
        obtain ⟨rfl, rfl, rfl⟩ := BinaryTree.node.inj hnode
        exact ⟨l', r', rfl, hbelow⟩
    · rename_i hmem
      apply Bitree.toTree_injective
      rw [hfind]
      exact BinaryTree.find_notMem fun hx => hmem (mem_insertNodes.mp hx)
  · intro x ok hno
    cases ok with
    | false => exact insertNode_false _ x
    | true =>
        have hmem := hno.resolve_right nofun
        apply Bitree.toTree_injective
        rw [insertNode_true, hord.insert_mem (mem_insertNodes.mpr hmem)]

/-- **Preorder builds the tree again.** -/
theorem insertNodes_preorder (values : List ℤ) :
    let root := insertNodes (values.map (·, true))
    insertNodes ((preorder root).map (·, true)) = root := by
  intro root
  have hsucceeded : ∀ l : List ℤ, succeeded (l.map (·, true)) = l := by
    intro l
    rw [succeeded, List.filter_eq_self.mpr fun call hcall => ?_, List.map_map]
    · exact List.map_id l
    · obtain ⟨x, -, rfl⟩ := List.mem_map.mp hcall
      rfl
  apply Bitree.toTree_injective
  rw [insertNodes_toTree, hsucceeded, preorder_eq]
  exact (insertNodes_ordered _).insertAll_preorder

end FindSort

end CodeSnippet
