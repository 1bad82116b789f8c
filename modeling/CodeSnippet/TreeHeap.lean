/-
CodeSnippet/TreeHeap.lean

Binary trees in the heap.  `TreeAt h p t` says that behind the pointer `p` the
heap holds the tree `t`, whose values are addresses with their data; `Owned`
adds that no cell is used twice.  The other cells of the heap do not matter
(`TreeAt.congr`), which is all that the proofs about programs on trees need.
-/
import CodeSnippet.HeapExtends
import CodeSnippet.SearchTree

namespace Memory

/-- A node in the heap. -/
structure TreeNode (α : Type) where
  data : α
  left : Ptr
  right : Ptr

variable {α : Type}

/-- The addresses of a tree. -/
def treeAddrs (t : BinaryTree (ℕ × α)) : List ℕ := t.values.map (·.1)

@[simp] theorem treeAddrs_nil : treeAddrs (.nil : BinaryTree (ℕ × α)) = [] := rfl

theorem treeAddrs_node (a : ℕ) (x : α) (l r : BinaryTree (ℕ × α)) :
    treeAddrs (.node (a, x) l r) = treeAddrs l ++ a :: treeAddrs r := by
  rw [treeAddrs, BinaryTree.values, List.map_append, List.map_cons]
  rfl

@[simp] theorem mem_treeAddrs_node {a b : ℕ} {x : α} {l r : BinaryTree (ℕ × α)} :
    b ∈ treeAddrs (.node (a, x) l r) ↔ b ∈ treeAddrs l ∨ b = a ∨ b ∈ treeAddrs r := by
  rw [treeAddrs_node, List.mem_append, List.mem_cons]

/-- The data of a tree. -/
def treeData (t : BinaryTree (ℕ × α)) : BinaryTree α := t.map (·.2)

@[simp] theorem treeData_nil : treeData (.nil : BinaryTree (ℕ × α)) = .nil := rfl

@[simp] theorem treeData_node (n : ℕ × α) (l r : BinaryTree (ℕ × α)) :
    treeData (.node n l r) = .node n.2 (treeData l) (treeData r) := rfl

theorem treeData_height (t : BinaryTree (ℕ × α)) : (treeData t).height = t.height := by
  induction t with
  | nil => rfl
  | node n l r ihl ihr => rw [treeData_node, BinaryTree.height, BinaryTree.height, ihl, ihr]

/-- The tree behind a pointer. -/
def TreeAt (h : Heap (TreeNode α)) : Ptr → BinaryTree (ℕ × α) → Prop
  | p, .nil => p = none
  | p, .node (a, x) l r =>
      p = some a ∧ ∃ left right, h.cell a = some ⟨x, left, right⟩ ∧ TreeAt h left l ∧
        TreeAt h right r

/-- The pointer to a tree. -/
def rootPtr : BinaryTree (ℕ × α) → Ptr
  | .nil => none
  | .node (a, _) _ _ => some a

namespace TreeAt

variable {h h' : Heap (TreeNode α)} {p : Ptr} {t : BinaryTree (ℕ × α)}

/-- **Only the cells of the tree matter.** -/
theorem congr (ht : TreeAt h p t) (hcell : ∀ a ∈ treeAddrs t, h'.cell a = h.cell a) :
    TreeAt h' p t := by
  induction t generalizing p with
  | nil => exact ht
  | node n l r ihl ihr =>
      obtain ⟨a, x⟩ := n
      obtain ⟨rfl, left, right, ha, hl, hr⟩ := ht
      refine ⟨rfl, left, right, ?_, ihl hl fun b hb => ?_, ihr hr fun b hb => ?_⟩
      · rw [hcell a (mem_treeAddrs_node.mpr (.inr (.inl rfl))), ha]
      · exact hcell b (mem_treeAddrs_node.mpr (.inl hb))
      · exact hcell b (mem_treeAddrs_node.mpr (.inr (.inr hb)))

theorem set (ht : TreeAt h p t) {a : ℕ} (ha : a ∉ treeAddrs t) (v : Option (TreeNode α)) :
    TreeAt (h.set a v) p t :=
  ht.congr fun _ hb => Heap.set_cell_ne (ne_of_mem_of_not_mem hb ha) h v

theorem without (ht : TreeAt h p t) {s : List ℕ} (hs : ∀ a ∈ treeAddrs t, a ∉ s) :
    TreeAt (h.without s) p t :=
  ht.congr fun a ha => Heap.without_cell_ne (hs a ha) h

/-- The cells of the tree are allocated. -/
theorem allocated (ht : TreeAt h p t) : ∀ a ∈ treeAddrs t, ∃ v, h.cell a = some v := by
  induction t generalizing p with
  | nil => exact fun a ha => absurd ha List.not_mem_nil
  | node n l r ihl ihr =>
      obtain ⟨a, x⟩ := n
      obtain ⟨rfl, left, right, ha, hl, hr⟩ := ht
      intro b hb
      rcases mem_treeAddrs_node.mp hb with hb | rfl | hb
      · exact ihl hl b hb
      · exact ⟨_, ha⟩
      · exact ihr hr b hb

theorem notMem_of_free (ht : TreeAt h p t) {a : ℕ} (ha : h.cell a = none) : a ∉ treeAddrs t := by
  intro hmem
  obtain ⟨v, hv⟩ := ht.allocated a hmem
  rw [ha] at hv
  cases hv

end TreeAt

/-- The tree behind a pointer, with every cell used once. -/
structure Owned (h : Heap (TreeNode α)) (p : Ptr) (t : BinaryTree (ℕ × α)) : Prop where
  at_ptr : TreeAt h p t
  nodup : (treeAddrs t).Nodup

namespace Owned

variable {h : Heap (TreeNode α)} {p : Ptr} {t : BinaryTree (ℕ × α)}

theorem null : Owned h none (.nil : BinaryTree (ℕ × α)) := ⟨rfl, List.nodup_nil⟩

theorem congr {h' : Heap (TreeNode α)} (ht : Owned h p t)
    (hcell : ∀ a ∈ treeAddrs t, h'.cell a = h.cell a) : Owned h' p t :=
  ⟨ht.at_ptr.congr hcell, ht.nodup⟩

/-- What a node of a tree is: a cell apart from two trees that are apart. -/
theorem node_iff {a : ℕ} {x : α} {l r : BinaryTree (ℕ × α)} :
    Owned h p (.node (a, x) l r) ↔ p = some a ∧ a ∉ treeAddrs l ∧ a ∉ treeAddrs r ∧
      (∀ b ∈ treeAddrs l, b ∉ treeAddrs r) ∧ ∃ left right, h.cell a = some ⟨x, left, right⟩ ∧
        Owned h left l ∧ Owned h right r := by
  constructor
  · rintro ⟨⟨rfl, left, right, ha, hl, hr⟩, hnodup⟩
    rw [treeAddrs_node, List.nodup_append, List.nodup_cons] at hnodup
    obtain ⟨hlnodup, ⟨har, hrnodup⟩, hapart⟩ := hnodup
    refine ⟨rfl, fun hmem => ?_, har, fun b hbl hbr => ?_, left, right, ha, ⟨hl, hlnodup⟩, hr,
      hrnodup⟩
    · exact hapart a hmem a (List.mem_cons_self ..) rfl
    · exact hapart b hbl b (List.mem_cons_of_mem _ hbr) rfl
  · rintro ⟨rfl, hal, har, hapart, left, right, ha, hl, hr⟩
    refine ⟨⟨rfl, left, right, ha, hl.at_ptr, hr.at_ptr⟩, ?_⟩
    rw [treeAddrs_node, List.nodup_append, List.nodup_cons]
    refine ⟨hl.nodup, ⟨har, hr.nodup⟩, fun b hb c hc => ?_⟩
    rcases List.mem_cons.mp hc with rfl | hc
    · exact ne_of_mem_of_not_mem hb hal
    · rintro rfl
      exact hapart b hb hc

/-- **Another left subtree**, made from the cells of the old one and new cells,
can be stored in the node. -/
theorem store_left {h' : Heap (TreeNode α)} {a : ℕ} {x : α} {l r l' : BinaryTree (ℕ × α)}
    {left right left' : Ptr} (ha : h.cell a = some ⟨x, left, right⟩) (hal : a ∉ treeAddrs l)
    (har : a ∉ treeAddrs r) (hapart : ∀ b ∈ treeAddrs l, b ∉ treeAddrs r) (hr : Owned h right r)
    (hl' : Owned h' left' l') (hchanges : h.Changes h' (treeAddrs l) (treeAddrs l')) :
    h'.cell a = some ⟨x, left, right⟩ ∧
    Owned (h'.set a (some ⟨x, left', right⟩)) (some a) (.node (a, x) l' r) ∧
    h.Changes (h'.set a (some ⟨x, left', right⟩)) (treeAddrs (.node (a, x) l r))
      (treeAddrs (.node (a, x) l' r)) := by
  obtain ⟨hal', ha'⟩ := hchanges.cell_eq ha hal
  have hkeep : ∀ b ∈ treeAddrs r, b ∉ treeAddrs l' ∧ h'.cell b = h.cell b := by
    intro b hb
    obtain ⟨v, hv⟩ := hr.at_ptr.allocated b hb
    rw [hv]
    exact hchanges.cell_eq hv fun hbl => hapart b hbl hb
  refine ⟨ha', node_iff.mpr ⟨rfl, hal', har, fun b hb hbr => (hkeep b hbr).1 hb, left', right,
    Heap.set_cell_self .., hl'.congr fun b hb => ?_, hr.congr fun b hb => ?_⟩, fun b hb => ?_,
    fun b hb hb' => ?_, fun b hb hb' => ?_⟩
  · exact Heap.set_cell_ne (ne_of_mem_of_not_mem hb hal') h' _
  · rw [Heap.set_cell_ne (ne_of_mem_of_not_mem hb har), (hkeep b hb).2]
  · rcases mem_treeAddrs_node.mp hb with hb | hb
    · exact (hchanges.fresh b hb).imp_left fun hb => mem_treeAddrs_node.mpr (.inl hb)
    · exact .inl (mem_treeAddrs_node.mpr (.inr hb))
  · rw [mem_treeAddrs_node, not_or, not_or] at hb'
    rw [Heap.set_cell_ne hb'.2.1]
    rcases mem_treeAddrs_node.mp hb with hb | hb
    · exact hchanges.freed b hb hb'.1
    · exact absurd hb (not_or.mpr hb'.2)
  · rw [mem_treeAddrs_node, not_or, not_or] at hb hb'
    rw [Heap.set_cell_ne hb.2.1, hchanges.frame b hb.1 hb'.1]

/-- Another right subtree. -/
theorem store_right {h' : Heap (TreeNode α)} {a : ℕ} {x : α} {l r r' : BinaryTree (ℕ × α)}
    {left right right' : Ptr} (ha : h.cell a = some ⟨x, left, right⟩) (hal : a ∉ treeAddrs l)
    (har : a ∉ treeAddrs r) (hapart : ∀ b ∈ treeAddrs l, b ∉ treeAddrs r) (hl : Owned h left l)
    (hr' : Owned h' right' r') (hchanges : h.Changes h' (treeAddrs r) (treeAddrs r')) :
    h'.cell a = some ⟨x, left, right⟩ ∧
    Owned (h'.set a (some ⟨x, left, right'⟩)) (some a) (.node (a, x) l r') ∧
    h.Changes (h'.set a (some ⟨x, left, right'⟩)) (treeAddrs (.node (a, x) l r))
      (treeAddrs (.node (a, x) l r')) := by
  obtain ⟨har', ha'⟩ := hchanges.cell_eq ha har
  have hkeep : ∀ b ∈ treeAddrs l, b ∉ treeAddrs r' ∧ h'.cell b = h.cell b := by
    intro b hb
    obtain ⟨v, hv⟩ := hl.at_ptr.allocated b hb
    rw [hv]
    exact hchanges.cell_eq hv (hapart b hb)
  refine ⟨ha', node_iff.mpr ⟨rfl, hal, har', fun b hb => (hkeep b hb).1, left, right',
    Heap.set_cell_self .., hl.congr fun b hb => ?_, hr'.congr fun b hb => ?_⟩, fun b hb => ?_,
    fun b hb hb' => ?_, fun b hb hb' => ?_⟩
  · rw [Heap.set_cell_ne (ne_of_mem_of_not_mem hb hal), (hkeep b hb).2]
  · exact Heap.set_cell_ne (ne_of_mem_of_not_mem hb har') h' _
  · rcases mem_treeAddrs_node.mp hb with hb | rfl | hb
    · exact .inl (mem_treeAddrs_node.mpr (.inl hb))
    · exact .inl (mem_treeAddrs_node.mpr (.inr (.inl rfl)))
    · exact (hchanges.fresh b hb).imp_left fun hb => mem_treeAddrs_node.mpr (.inr (.inr hb))
  · rw [mem_treeAddrs_node, not_or, not_or] at hb'
    rw [Heap.set_cell_ne hb'.2.1]
    rcases mem_treeAddrs_node.mp hb with hb | hb | hb
    · exact absurd hb hb'.1
    · exact absurd hb hb'.2.1
    · exact hchanges.freed b hb hb'.2.2
  · rw [mem_treeAddrs_node, not_or, not_or] at hb hb'
    rw [Heap.set_cell_ne hb.2.1, hchanges.frame b hb.2.2 hb'.2.2]

/-- A new node without subtrees. -/
theorem leaf (h : Heap (TreeNode α)) {a : ℕ} (ha : h.cell a = none) (x : α) :
    Owned (h.set a (some ⟨x, none, none⟩)) (some a) (.node (a, x) .nil .nil) ∧
    h.Changes (h.set a (some ⟨x, none, none⟩)) [] (treeAddrs (.node (a, x) .nil .nil)) := by
  refine ⟨node_iff.mpr ⟨rfl, List.not_mem_nil, List.not_mem_nil,
    fun b hb => absurd hb List.not_mem_nil, none, none, Heap.set_cell_self .., null, null⟩,
    fun b hb => .inr ?_, fun b hb => absurd hb List.not_mem_nil, fun b _ hb => ?_⟩
  · obtain rfl : b = a := by simpa using hb
    exact ha
  · exact Heap.set_cell_ne (fun he => hb (by simp [he])) h _

end Owned

end Memory
