/-
CodeSnippet/Chain.lean

Singly linked nodes on a heap.  `Segment h p l q` says that from `p` on the nodes
in `l`, each with its address, follow one another up to `q`.  A segment that ends
at the null pointer visits no node twice (`Segment.nodup`), so replacing a node
and what comes behind it leaves the nodes before it as they are
(`Segment.replace`).
-/
import CodeSnippet.Calls
import CodeSnippet.Heap

namespace Memory

variable {α : Type}

/-- A node and the pointer to the next one. -/
structure Node (α : Type) where
  data : α
  next : Ptr

/-- The nodes from `p` to `q`. -/
def Segment (h : Heap (Node α)) : Ptr → List (ℕ × α) → Ptr → Prop
  | p, [], q => p = q
  | p, (a, x) :: l, q => p = some a ∧ ∃ next, h.cell a = some ⟨x, next⟩ ∧ Segment h next l q

/-- The addresses of some nodes. -/
abbrev addrs (l : List (ℕ × α)) : List ℕ := l.map (·.1)

/-- Their data. -/
abbrev datas (l : List (ℕ × α)) : List α := l.map (·.2)

variable {h h' : Heap (Node α)} {p q : Ptr} {l l' : List (ℕ × α)}

theorem Segment.append : Segment h p (l ++ l') q ↔ ∃ m, Segment h p l m ∧ Segment h m l' q := by
  induction l generalizing p with
  | nil =>
      constructor
      · intro hs
        exact ⟨p, rfl, hs⟩
      · rintro ⟨m, rfl, hs⟩
        exact hs
  | cons n l ih =>
      constructor
      · rintro ⟨rfl, next, hn, hs⟩
        obtain ⟨m, hl, hl'⟩ := ih.mp hs
        exact ⟨m, ⟨rfl, next, hn, hl⟩, hl'⟩
      · rintro ⟨m, ⟨rfl, next, hn, hl⟩, hl'⟩
        exact ⟨rfl, next, hn, ih.mpr ⟨m, hl, hl'⟩⟩

/-- A segment depends on its own nodes only. -/
theorem Segment.congr (hs : Segment h p l q) (hcell : ∀ a ∈ addrs l, h'.cell a = h.cell a) :
    Segment h' p l q := by
  induction l generalizing p with
  | nil => exact hs
  | cons n l ih =>
      obtain ⟨rfl, next, hn, hs⟩ := hs
      obtain ⟨ha, hrest⟩ := List.forall_mem_cons.mp hcell
      exact ⟨rfl, next, ha.trans hn, ih hs hrest⟩

/-- Its nodes are allocated. -/
theorem Segment.cell_ne_none (hs : Segment h p l q) {a : ℕ} (ha : a ∈ addrs l) :
    h.cell a ≠ none := by
  induction l generalizing p with
  | nil => exact absurd ha List.not_mem_nil
  | cons n l ih =>
      obtain ⟨rfl, next, hn, hs⟩ := hs
      rcases List.mem_cons.mp ha with rfl | ha
      · rw [hn]
        exact Option.some_ne_none _
      · exact ih hs ha

/-- The nodes up to the null pointer are determined. -/
theorem Segment.unique (hs : Segment h p l none) (hs' : Segment h p l' none) : l = l' := by
  induction l generalizing p l' with
  | nil =>
      obtain rfl : p = none := hs
      cases l' with
      | nil => rfl
      | cons n l' => cases hs'.1
  | cons n l ih =>
      obtain ⟨rfl, next, hn, hs⟩ := hs
      cases l' with
      | nil => cases hs'
      | cons n' l' =>
          obtain ⟨hp, next', hn', hs'⟩ := hs'
          obtain ⟨a, x⟩ := n
          obtain ⟨a', x'⟩ := n'
          obtain rfl : a = a' := Option.some.inj hp
          obtain ⟨rfl, rfl⟩ := Node.mk.inj (Option.some.inj (hn.symm.trans hn'))
          rw [ih hs hs']

/-- The nodes of a segment are the same in every heap that has it. -/
theorem Segment.cell_eq {p' : Ptr} (hs : Segment h p l q) (hs' : Segment h' p' l q) {a : ℕ}
    (ha : a ∈ addrs l) : h'.cell a = h.cell a := by
  induction l generalizing p p' with
  | nil => exact absurd ha List.not_mem_nil
  | cons n l ih =>
      obtain ⟨rfl, next, hn, hs⟩ := hs
      obtain ⟨-, next', hn', hs'⟩ := hs'
      rcases List.mem_cons.mp ha with rfl | ha
      · -- the rest of the segment has one start
        have hnext : next = next' := by
          cases l with
          | nil => exact Eq.trans hs (Eq.symm hs')
          | cons n' l => exact hs.1.trans hs'.1.symm
        rw [hn, hn', hnext]
      · exact ih hs hs' ha

/-- **No node comes twice** on the way to the null pointer. -/
theorem Segment.nodup (hs : Segment h p l none) : (addrs l).Nodup := by
  induction l generalizing p with
  | nil => exact List.nodup_nil
  | cons n l ih =>
      have hall := hs
      obtain ⟨rfl, next, -, hs⟩ := hs
      refine List.nodup_cons.mpr ⟨fun hmem => ?_, ih hs⟩
      -- the nodes from the second visit on would be all the nodes
      obtain ⟨⟨a, x⟩, hmem, ha⟩ := List.mem_map.mp hmem
      obtain ⟨pre, post, rfl⟩ := List.append_of_mem hmem
      obtain ⟨m, -, -, hpost⟩ := Segment.append.mp hs
      have hagain : Segment h (some n.1) ((a, x) :: post) none :=
        ⟨congrArg some ha.symm, hpost⟩
      have hlength := congrArg List.length (hall.unique hagain)
      rw [List.length_cons, List.length_append] at hlength
      omega

/-- **Replacing a node and what comes behind it.** -/
theorem Segment.replace {b : ℕ} {y y' : α} {pre post post' : List (ℕ × α)}
    (hs : Segment h p (pre ++ (b, y) :: post) none) {next : Ptr}
    (hb : h'.cell b = some ⟨y', next⟩) (hpre : ∀ a ∈ addrs pre, h'.cell a = h.cell a)
    (hpost : Segment h' next post' none) : Segment h' p (pre ++ (b, y') :: post') none := by
  obtain ⟨m, hm, rfl, -⟩ := Segment.append.mp hs
  exact Segment.append.mpr ⟨some b, hm.congr hpre, rfl, next, hb, hpost⟩

/-! ### Walking -/

/-- `while (node != NULL) { visit(node->data); node = node->next; }` -/
def walk {σ : Type} (visit : α → σ → σ) (h : Heap (Node α)) : ℕ → Ptr → σ → Except Fault σ
  | 0, _, _ => .error .fuel
  | _ + 1, none, s => .ok s
  | fuel + 1, some a, s => do
      let node ← h.load (some a)
      walk visit h fuel node.next (visit node.data s)

/-- **The walk visits the nodes in their order.** -/
theorem Segment.walk_eq {σ : Type} (visit : α → σ → σ) (hs : Segment h p l none) {fuel : ℕ}
    (hfuel : l.length < fuel) (s : σ) :
    walk visit h fuel p s = .ok (Calls.visitAll visit (datas l) s) := by
  induction l generalizing p fuel s with
  | nil =>
      obtain ⟨fuel, rfl⟩ := Nat.exists_eq_add_one_of_ne_zero (Nat.ne_zero_of_lt hfuel)
      obtain rfl : p = none := hs
      rfl
  | cons n l ih =>
      obtain ⟨fuel, rfl⟩ := Nat.exists_eq_add_one_of_ne_zero (Nat.ne_zero_of_lt hfuel)
      obtain ⟨rfl, next, hn, hs⟩ := hs
      rw [walk, Heap.load_eq hn, ok_bind, ih hs (Nat.lt_of_succ_lt_succ hfuel)]
      rfl

/-- `while (node != NULL && stop(node->data) == 0) node = node->next;` -/
def seek (stop : α → Bool) (h : Heap (Node α)) : ℕ → Ptr → Except Fault Ptr
  | 0, _ => .error .fuel
  | _ + 1, none => .ok none
  | fuel + 1, some a => do
      let node ← h.load (some a)
      if stop node.data then .ok (some a) else seek stop h fuel node.next

/-- **The search ends at the first node that stops it.** -/
theorem Segment.seek_eq {stop : α → Bool} (hs : Segment h p l none) {fuel : ℕ}
    (hfuel : l.length < fuel) :
    seek stop h fuel p = .ok ((l.find? (stop ·.2)).map (·.1)) := by
  induction l generalizing p fuel with
  | nil =>
      obtain ⟨fuel, rfl⟩ := Nat.exists_eq_add_one_of_ne_zero (Nat.ne_zero_of_lt hfuel)
      obtain rfl : p = none := hs
      rfl
  | cons n l ih =>
      obtain ⟨fuel, rfl⟩ := Nat.exists_eq_add_one_of_ne_zero (Nat.ne_zero_of_lt hfuel)
      obtain ⟨rfl, next, hn, hs⟩ := hs
      rw [seek, Heap.load_eq hn, ok_bind]
      rcases hstop : stop n.2 with _ | _
      · rw [if_neg Bool.false_ne_true, ih hs (Nat.lt_of_succ_lt_succ hfuel),
          List.find?_cons_of_neg (p := fun n : ℕ × α => stop n.2) (ne_true_of_eq_false hstop)]
      · rw [if_pos rfl, List.find?_cons_of_pos (p := fun n : ℕ × α => stop n.2) hstop]
        rfl

/-! ### Relinking -/

/-- A node of its own. -/
def newNode (m : Allocator (Node α)) (h : Heap (Node α)) (data : α) : Ptr × Heap (Node α) :=
  (some (m.malloc h), h.set (m.malloc h) (some ⟨data, none⟩))

/-- `node->next = prev->next; prev->next = node;` -/
def linkAfter (h : Heap (Node α)) (prev node : Ptr) : Except Fault (Heap (Node α)) := do
  let p ← h.load prev
  let n ← h.load node
  let h ← h.store node { n with next := p.next }
  let p ← h.load prev
  h.store prev { p with next := node }

/-- `tmp = prev->next; prev->next = prev->next->next;` with `tmp` -/
def unlinkAfter (h : Heap (Node α)) (prev : Ptr) : Except Fault (Ptr × Heap (Node α)) := do
  let p ← h.load prev
  let t ← h.load p.next
  let h ← h.store prev { p with next := t.next }
  .ok (p.next, h)

/-- A free address is none of the nodes'. -/
theorem Segment.notMem_of_free (hs : Segment h p l q) {a : ℕ} (ha : h.cell a = none) :
    a ∉ addrs l :=
  fun hmem => hs.cell_ne_none hmem ha

/-- A segment does not notice what happens elsewhere. -/
theorem Segment.set (hs : Segment h p l q) {a : ℕ} (ha : a ∉ addrs l) (v : Option (Node α)) :
    Segment (h.set a v) p l q := by
  refine hs.congr fun b hb => Heap.set_cell_ne ?_ h v
  rintro rfl
  exact ha hb

/-- The addresses before a node, its own and those behind it. -/
theorem Segment.nodup_parts {b : ℕ} {y : α} {pre post : List (ℕ × α)}
    (hs : Segment h p (pre ++ (b, y) :: post) none) :
    b ∉ addrs pre ∧ b ∉ addrs post ∧ ∀ a ∈ addrs pre, a ∉ addrs post := by
  have hnodup := hs.nodup
  rw [addrs, List.map_append, List.map_cons, List.nodup_append] at hnodup
  obtain ⟨-, hpost, hcross⟩ := hnodup
  refine ⟨fun hmem => hcross b hmem b (List.mem_cons_self ..) rfl, (List.nodup_cons.mp hpost).1, ?_⟩
  intro a hpre hmem
  exact hcross a hpre a (List.mem_cons_of_mem _ hmem) rfl

/-- **Linking a node behind another** that is not in the segment. -/
theorem Segment.linkAfter_node {a b : ℕ} {x y : α} {old : Ptr} {pre post : List (ℕ × α)}
    (hs : Segment h p (pre ++ (b, y) :: post) none) (ha : h.cell a = some ⟨x, old⟩)
    (hnotMem : a ∉ addrs (pre ++ (b, y) :: post)) :
    ∃ h', linkAfter h (some b) (some a) = .ok h' ∧
      Segment h' p (pre ++ (b, y) :: (a, x) :: post) none ∧
      ∀ c, c ≠ a → c ≠ b → h'.cell c = h.cell c := by
  obtain ⟨hpre, hpost, -⟩ := hs.nodup_parts
  obtain ⟨_, -, -, next, hb, htail⟩ := Segment.append.mp hs
  rw [addrs, List.map_append, List.map_cons, List.mem_append, List.mem_cons, not_or, not_or]
    at hnotMem
  obtain ⟨hapre, hne, hapost⟩ := hnotMem
  have hne : a ≠ b := hne
  -- `b` as the second statement reads it
  have hb' : (h.set a (some ⟨x, next⟩)).cell b = some ⟨y, next⟩ := by
    rw [Heap.set_cell_ne hne.symm, hb]
  refine ⟨(h.set a (some ⟨x, next⟩)).set b (some ⟨y, some a⟩), ?_, ?_, ?_⟩
  · rw [linkAfter, Heap.load_eq hb, ok_bind, Heap.load_eq ha, ok_bind, Heap.store_eq ha, ok_bind,
      Heap.load_eq hb', ok_bind, Heap.store_eq hb']
  · -- the nodes before `b` are untouched, those behind it follow the node
    apply hs.replace (Heap.set_cell_self ..)
    · intro c hc
      have hcb : c ≠ b := fun e => hpre (e ▸ hc)
      have hca : c ≠ a := fun e => hapre (e ▸ hc)
      rw [Heap.set_cell_ne hcb, Heap.set_cell_ne hca]
    · refine ⟨rfl, next, ?_, (htail.set hapost _).set hpost _⟩
      rw [Heap.set_cell_ne hne, Heap.set_cell_self]
  · intro c hca hcb
    rw [Heap.set_cell_ne hcb, Heap.set_cell_ne hca]

/-- **Linking a new node behind another.** -/
theorem Segment.linkAfter_eq {b : ℕ} {y : α} {pre post : List (ℕ × α)}
    (hs : Segment h p (pre ++ (b, y) :: post) none) (m : Allocator (Node α)) (x : α) :
    ∃ h', linkAfter (newNode m h x).2 (some b) (newNode m h x).1 = .ok h' ∧
      Segment h' p (pre ++ (b, y) :: (m.malloc h, x) :: post) none := by
  have hfree : m.malloc h ∉ addrs (pre ++ (b, y) :: post) := hs.notMem_of_free (m.fresh h)
  obtain ⟨h', hlink, hs', -⟩ := (hs.set hfree (some ⟨x, none⟩)).linkAfter_node
    (Heap.set_cell_self ..) hfree
  exact ⟨h', hlink, hs'⟩

/-- **Unlinking the node behind another**, and freeing it. -/
theorem Segment.unlinkAfter_eq {b c : ℕ} {y z : α} {pre post : List (ℕ × α)}
    (hs : Segment h p (pre ++ (b, y) :: (c, z) :: post) none) :
    ∃ h' next, unlinkAfter h (some b) = .ok (some c, h') ∧ h'.cell c = some ⟨z, next⟩ ∧
      Segment (h'.set c none) p (pre ++ (b, y) :: post) none := by
  obtain ⟨hpre, hpost, hcross⟩ := hs.nodup_parts
  obtain ⟨hne, hbpost⟩ := List.ne_and_not_mem_of_not_mem_cons hpost
  obtain ⟨_, -, -, _, hb, htail⟩ := Segment.append.mp hs
  have hbehind : Segment h _ ([] ++ (c, z) :: post) none := htail
  have hcpost : c ∉ addrs post := hbehind.nodup_parts.2.1
  obtain ⟨rfl, next, hc, htail⟩ := htail
  have hne : b ≠ c := hne
  have hc₁ : (h.set b (some ⟨y, next⟩)).cell c = some ⟨z, next⟩ := by
    rw [Heap.set_cell_ne hne.symm, hc]
  refine ⟨h.set b (some ⟨y, next⟩), next, ?_, hc₁, ?_⟩
  · rw [unlinkAfter, Heap.load_eq hb, ok_bind, Heap.load_eq hc, ok_bind, Heap.store_eq hb, ok_bind]
  · -- `c` is freed, and none of the nodes that stay
    have hb₂ : ((h.set b (some ⟨y, next⟩)).set c none).cell b = some ⟨y, next⟩ := by
      rw [Heap.set_cell_ne hne, Heap.set_cell_self]
    apply hs.replace hb₂
    · intro a ha
      have hab : a ≠ b := fun e => hpre (e ▸ ha)
      have hac : a ≠ c := fun e => hcross a ha (e ▸ List.mem_cons_self ..)
      rw [Heap.set_cell_ne hac, Heap.set_cell_ne hab]
    · exact (htail.set hbpost _).set hcpost _

/-- Behind the last node there is nothing to unlink. -/
theorem Segment.unlinkAfter_last {b : ℕ} {y : α} {pre : List (ℕ × α)}
    (hs : Segment h p (pre ++ [(b, y)]) none) : unlinkAfter h (some b) = .error .null := by
  obtain ⟨_, -, -, next, hb, rfl⟩ := Segment.append.mp hs
  rw [unlinkAfter, Heap.load_eq hb, ok_bind, Heap.load_null, error_bind]

/-- **Other data in a node.** -/
theorem Segment.update {b : ℕ} {y : α} {pre post : List (ℕ × α)}
    (hs : Segment h p (pre ++ (b, y) :: post) none) :
    ∃ next, h.cell b = some ⟨y, next⟩ ∧
      ∀ y', Segment (h.set b (some ⟨y', next⟩)) p (pre ++ (b, y') :: post) none := by
  obtain ⟨hpre, hpost, -⟩ := hs.nodup_parts
  obtain ⟨_, -, -, next, hb, htail⟩ := Segment.append.mp hs
  refine ⟨next, hb, fun y' => ?_⟩
  apply hs.replace (Heap.set_cell_self ..)
  · intro a ha
    have hne : a ≠ b := fun e => hpre (e ▸ ha)
    exact Heap.set_cell_ne hne h _
  · exact htail.set hpost _

/-! ### Sentinels -/

/-- The nodes hang behind a sentinel. -/
def Behind (h : Heap (Node α)) (p : Ptr) (l : List (ℕ × α)) : Prop :=
  ∃ a d, p = some a ∧ Segment h p ((a, d) :: l) none

theorem newNode_behind (m : Allocator (Node α)) (h : Heap (Node α)) (d : α) :
    Behind (newNode m h d).2 (newNode m h d).1 [] :=
  ⟨m.malloc h, d, rfl, rfl, none, Heap.set_cell_self .., rfl⟩

/-- The first node is found through the sentinel. -/
theorem Behind.load_eq (hb : Behind h p l) :
    ∃ n, h.load p = .ok n ∧ Segment h n.next l none := by
  obtain ⟨a, d, rfl, -, first, ha, hfirst⟩ := hb
  exact ⟨⟨d, first⟩, Heap.load_eq ha, hfirst⟩

/-- A new node has another address than the nodes that are there. -/
theorem Behind.malloc_notMem (hb : Behind h p l) (m : Allocator (Node α)) :
    m.malloc h ∉ addrs l := by
  obtain ⟨n, -, hfirst⟩ := hb.load_eq
  exact hfirst.notMem_of_free (m.fresh h)

/-- A new node that is not linked changes nothing. -/
theorem Behind.newNode (hb : Behind h p l) (m : Allocator (Node α)) (x : α) :
    Behind (newNode m h x).2 p l := by
  obtain ⟨a, d, hp, hs⟩ := hb
  exact ⟨a, d, hp, hs.set (hs.notMem_of_free (m.fresh h)) _⟩

theorem Behind.linkAfter_eq (hb : Behind h p l) (m : Allocator (Node α)) (x : α) :
    ∃ h', linkAfter (Memory.newNode m h x).2 p (Memory.newNode m h x).1 = .ok h' ∧
      Behind h' p ((m.malloc h, x) :: l) := by
  obtain ⟨a, d, rfl, hs⟩ := hb
  have hsplit : Segment h (some a) ([] ++ (a, d) :: l) none := hs
  obtain ⟨h', hlink, hs'⟩ := hsplit.linkAfter_eq m x
  exact ⟨h', hlink, a, d, rfl, hs'⟩

theorem Behind.unlinkAfter_eq {c : ℕ} {z : α} (hb : Behind h p ((c, z) :: l)) :
    ∃ h' next, unlinkAfter h p = .ok (some c, h') ∧ h'.cell c = some ⟨z, next⟩ ∧
      Behind (h'.set c none) p l := by
  obtain ⟨a, d, rfl, hs⟩ := hb
  have hsplit : Segment h (some a) ([] ++ (a, d) :: (c, z) :: l) none := hs
  obtain ⟨h', next, hunlink, hc, hs'⟩ := hsplit.unlinkAfter_eq
  exact ⟨h', next, hunlink, hc, a, d, rfl, hs'⟩

end Memory
