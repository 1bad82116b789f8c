/-
CodeSnippet/SearchTree.lean

Binary search trees over a linear order.  A tree is ordered if at every node the
left subtree has smaller values and the right subtree larger ones; this is the
same as saying that its values ascend from left to right
(`ordered_iff_values`).  Insertion keeps the order and adds one value, and
inserting the values of a tree in preorder builds the tree again
(`insertAll_preorder`).
-/
import Mathlib

namespace BinaryTree

variable {α : Type*}

/-- The values from left to right. -/
def values : BinaryTree α → List α
  | nil => []
  | node x l r => l.values ++ x :: r.values

/-- The values, every node in front of its subtrees. -/
def preorder : BinaryTree α → List α
  | nil => []
  | node x l r => x :: (l.preorder ++ r.preorder)

/-- The tree itself, or a tree below it. -/
inductive Below : BinaryTree α → BinaryTree α → Prop
  | here (t : BinaryTree α) : Below t t
  | left {s l : BinaryTree α} (x : α) (r : BinaryTree α) (h : Below s l) : Below s (node x l r)
  | right {s r : BinaryTree α} (x : α) (l : BinaryTree α) (h : Below s r) : Below s (node x l r)

@[simp] theorem mem_values_node {x y : α} {l r : BinaryTree α} :
    y ∈ (node x l r).values ↔ y ∈ l.values ∨ y = x ∨ y ∈ r.values := by
  rw [values, List.mem_append, List.mem_cons]

theorem mem_preorder {y : α} {t : BinaryTree α} : y ∈ t.preorder ↔ y ∈ t.values := by
  induction t with
  | nil => exact Iff.rfl
  | node x l r ihl ihr =>
      rw [preorder, List.mem_cons, List.mem_append, ihl, ihr, mem_values_node]
      exact or_left_comm

section Order

variable [LinearOrder α]

/-- Every node's left subtree has only smaller values, and its right subtree
only larger ones. -/
def Ordered : BinaryTree α → Prop
  | nil => True
  | node x l r => (∀ y ∈ l.values, y < x) ∧ (∀ y ∈ r.values, x < y) ∧ l.Ordered ∧ r.Ordered

/-- **The values of an ordered tree ascend**, and of no other tree. -/
theorem ordered_iff_values {t : BinaryTree α} : t.Ordered ↔ t.values.Pairwise (· < ·) := by
  induction t with
  | nil => exact iff_of_true trivial List.Pairwise.nil
  | node x l r ihl ihr =>
      rw [Ordered, values, List.pairwise_append, List.pairwise_cons, ihl, ihr]
      constructor
      · rintro ⟨hl, hr, hlo, hro⟩
        refine ⟨hlo, ⟨hr, hro⟩, fun y hy z hz => ?_⟩
        rcases List.mem_cons.mp hz with rfl | hz
        · exact hl y hy
        · exact (hl y hy).trans (hr z hz)
      · rintro ⟨hlo, ⟨hr, hro⟩, hcross⟩
        exact ⟨fun y hy => hcross y hy x (List.mem_cons_self ..), hr, hlo, hro⟩

/-! ### Insertion -/

/-- Insertion at a leaf; a value that is already there stays alone. -/
def insert : BinaryTree α → α → BinaryTree α
  | nil, x => node x nil nil
  | node y l r, x =>
      if x < y then node y (l.insert x) r else if y < x then node y l (r.insert x) else node y l r

theorem insert_of_lt {x y : α} (h : x < y) (l r : BinaryTree α) :
    (node y l r).insert x = node y (l.insert x) r :=
  if_pos h

theorem insert_of_gt {x y : α} (h : y < x) (l r : BinaryTree α) :
    (node y l r).insert x = node y l (r.insert x) := by
  rw [insert, if_neg h.not_gt, if_pos h]

theorem insert_self (x : α) (l r : BinaryTree α) : (node x l r).insert x = node x l r := by
  rw [insert, if_neg (lt_irrefl x), if_neg (lt_irrefl x)]

/-- Insertion adds one value. -/
theorem mem_insert {x y : α} {t : BinaryTree α} :
    y ∈ (t.insert x).values ↔ y = x ∨ y ∈ t.values := by
  induction t with
  | nil => simp [insert, values]
  | node z l r ihl ihr =>
      rcases lt_trichotomy x z with hlt | rfl | hgt
      · rw [insert_of_lt hlt, mem_values_node, mem_values_node, ihl, or_assoc]
      · -- the value is the root's
        rw [insert_self, mem_values_node]
        exact ⟨.inr, fun h => h.elim (fun e => .inr (.inl e)) id⟩
      · rw [insert_of_gt hgt, mem_values_node, mem_values_node, ihr]
        constructor
        · rintro (h | h | h | h)
          · exact .inr (.inl h)
          · exact .inr (.inr (.inl h))
          · exact .inl h
          · exact .inr (.inr (.inr h))
        · rintro (h | h | h | h)
          · exact .inr (.inr (.inl h))
          · exact .inl h
          · exact .inr (.inl h)
          · exact .inr (.inr (.inr h))

/-- **Insertion keeps the order.** -/
theorem Ordered.insert {t : BinaryTree α} (h : t.Ordered) (x : α) : (t.insert x).Ordered := by
  induction t with
  | nil => exact ⟨fun y hy => absurd hy List.not_mem_nil, fun y hy => absurd hy List.not_mem_nil,
      trivial, trivial⟩
  | node z l r ihl ihr =>
      obtain ⟨hl, hr, hlo, hro⟩ := h
      rcases lt_trichotomy x z with hlt | rfl | hgt
      · rw [insert_of_lt hlt]
        refine ⟨fun y hy => ?_, hr, ihl hlo, hro⟩
        rcases mem_insert.mp hy with rfl | hy
        · exact hlt
        · exact hl y hy
      · rw [insert_self]
        exact ⟨hl, hr, hlo, hro⟩
      · rw [insert_of_gt hgt]
        refine ⟨hl, fun y hy => ?_, hlo, ihr hro⟩
        rcases mem_insert.mp hy with rfl | hy
        · exact hgt
        · exact hr y hy

/-- On which side of the root a value of an ordered tree is. -/
theorem Ordered.mem_cases {x z : α} {l r : BinaryTree α} (h : (node z l r).Ordered)
    (hx : x ∈ (node z l r).values) : (x < z ∧ x ∈ l.values) ∨ x = z ∨ (z < x ∧ x ∈ r.values) := by
  rcases mem_values_node.mp hx with hx | hx | hx
  · exact .inl ⟨h.1 x hx, hx⟩
  · exact .inr (.inl hx)
  · exact .inr (.inr ⟨h.2.1 x hx, hx⟩)

/-- Inserting a value that is there changes nothing. -/
theorem Ordered.insert_mem {t : BinaryTree α} (h : t.Ordered) {x : α} (hx : x ∈ t.values) :
    t.insert x = t := by
  induction t with
  | nil => exact absurd hx List.not_mem_nil
  | node z l r ihl ihr =>
      rcases h.mem_cases hx with ⟨hlt, hx⟩ | rfl | ⟨hgt, hx⟩
      · rw [insert_of_lt hlt, ihl h.2.2.1 hx]
      · exact insert_self ..
      · rw [insert_of_gt hgt, ihr h.2.2.2 hx]

/-! ### Search -/

/-- The tree below whose root is the value, or the empty tree. -/
def find : BinaryTree α → α → BinaryTree α
  | nil, _ => nil
  | node y l r, x => if x = y then node y l r else if x < y then l.find x else r.find x

/-- **Search finds what is there.** -/
theorem Ordered.find_mem {t : BinaryTree α} (h : t.Ordered) {x : α} (hx : x ∈ t.values) :
    ∃ l r, t.find x = node x l r ∧ Below (node x l r) t := by
  induction t with
  | nil => exact absurd hx List.not_mem_nil
  | node z l r ihl ihr =>
      rcases h.mem_cases hx with ⟨hlt, hx⟩ | rfl | ⟨hgt, hx⟩
      · obtain ⟨l', r', hfind, hbelow⟩ := ihl h.2.2.1 hx
        rw [find, if_neg hlt.ne, if_pos hlt]
        exact ⟨l', r', hfind, .left z r hbelow⟩
      · rw [find, if_pos rfl]
        exact ⟨l, r, rfl, .here _⟩
      · obtain ⟨l', r', hfind, hbelow⟩ := ihr h.2.2.2 hx
        rw [find, if_neg hgt.ne', if_neg hgt.not_gt]
        exact ⟨l', r', hfind, .right z l hbelow⟩

/-- It finds nothing else, in any tree. -/
theorem find_notMem {t : BinaryTree α} {x : α} (hx : x ∉ t.values) : t.find x = nil := by
  induction t with
  | nil => rfl
  | node z l r ihl ihr =>
      rw [mem_values_node, not_or, not_or] at hx
      rw [find, if_neg hx.2.1, ihl hx.1, ihr hx.2.2, ite_self]

/-! ### Many insertions -/

/-- The insertion of some values, from the first to the last. -/
def insertAll (t : BinaryTree α) (xs : List α) : BinaryTree α := xs.foldl insert t

theorem insertAll_append (t : BinaryTree α) (xs ys : List α) :
    t.insertAll (xs ++ ys) = (t.insertAll xs).insertAll ys :=
  List.foldl_append

theorem Ordered.insertAll {t : BinaryTree α} (h : t.Ordered) (xs : List α) :
    (t.insertAll xs).Ordered := by
  induction xs generalizing t with
  | nil => exact h
  | cons x xs ih => exact ih (h.insert x)

theorem mem_insertAll {y : α} {t : BinaryTree α} {xs : List α} :
    y ∈ (t.insertAll xs).values ↔ y ∈ xs ∨ y ∈ t.values := by
  induction xs generalizing t with
  | nil => exact (or_iff_right List.not_mem_nil).symm
  | cons x xs ih =>
      rw [insertAll, List.foldl_cons, ← insertAll, ih, mem_insert, List.mem_cons]
      exact or_left_comm.trans or_assoc.symm

/-- Values smaller than the root only get into the left subtree. -/
theorem insertAll_of_lt {x : α} {xs : List α} (h : ∀ y ∈ xs, y < x) (l r : BinaryTree α) :
    (node x l r).insertAll xs = node x (l.insertAll xs) r := by
  induction xs generalizing l with
  | nil => rfl
  | cons y xs ih =>
      obtain ⟨hy, h⟩ := List.forall_mem_cons.mp h
      rw [insertAll, List.foldl_cons, insert_of_lt hy]
      exact ih h _

/-- Larger ones only get into the right subtree. -/
theorem insertAll_of_gt {x : α} {xs : List α} (h : ∀ y ∈ xs, x < y) (l r : BinaryTree α) :
    (node x l r).insertAll xs = node x l (r.insertAll xs) := by
  induction xs generalizing r with
  | nil => rfl
  | cons y xs ih =>
      obtain ⟨hy, h⟩ := List.forall_mem_cons.mp h
      rw [insertAll, List.foldl_cons, insert_of_gt hy]
      exact ih h _

/-- **Preorder builds the tree again.** -/
theorem Ordered.insertAll_preorder {t : BinaryTree α} (h : t.Ordered) :
    nil.insertAll t.preorder = t := by
  induction t with
  | nil => rfl
  | node x l r ihl ihr =>
      obtain ⟨hl, hr, hlo, hro⟩ := h
      -- the root comes first, then the left subtree, then the right one
      calc nil.insertAll (x :: (l.preorder ++ r.preorder))
          = ((node x nil nil).insertAll l.preorder).insertAll r.preorder :=
            insertAll_append (node x nil nil) _ _
        _ = (node x (nil.insertAll l.preorder) nil).insertAll r.preorder := by
            rw [insertAll_of_lt fun y hy => hl y (mem_preorder.mp hy)]
        _ = node x (nil.insertAll l.preorder) (nil.insertAll r.preorder) :=
            insertAll_of_gt (fun y hy => hr y (mem_preorder.mp hy)) _ _
        _ = node x l r := by rw [ihl hlo, ihr hro]

end Order

end BinaryTree
