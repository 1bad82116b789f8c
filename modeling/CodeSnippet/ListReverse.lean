/-
CodeSnippet/ListReverse.lean

Turning the list of src/algorithm/list/single_linklist around, and the two ways
of visiting it.  The loop of `list_reverse` takes the nodes off the old chain one
by one and links each of them behind the sentinel, in front of those that it has
taken off before.

Main results:
  * `reverseLoop_eq` — the loop, for the chain that it walks and the one that it
    builds.
  * `listReverse_reverses` — what the call does to the nodes, to what is visited
    and, made twice, to the heap.
-/
import CodeSnippet.SingleLinklist

namespace CodeSnippet

open Memory Calls

namespace SingleLinklist

/-! ### Source -/

/-- `while (node != NULL) { new = node; node = node->next; ... }` -/
def reverseLoop (head : Ptr) : ℕ → Heap (Node ℤ) → Ptr → Except Fault (Heap (Node ℤ))
  | 0, _, _ => .error .fuel
  | _ + 1, h, none => .ok h
  | fuel + 1, h, some new => do
      let n ← h.load (some new)
      let node := n.next
      let h ← linkAfter h head (some new)
      reverseLoop head fuel h node

/-- The return code and the list. -/
def listReverse (fuel : ℕ) (list : SingleLinklist) (h : Heap (Node ℤ)) :
    Except Fault (ℤ × SingleLinklist × Heap (Node ℤ)) := do
  let head ← h.load list.head
  let node := head.next
  let h ← h.store list.head { head with next := none }
  let h ← reverseLoop list.head fuel h node
  .ok (0, list, h)

/-- `visit_node` calls itself for the next node before it visits its own. -/
def visitNode {σ : Type} (visit : ℤ → σ → σ) (h : Heap (Node ℤ)) : ℕ → Ptr → σ → Except Fault σ
  | 0, _, _ => .error .fuel
  | _ + 1, none, s => .ok s
  | fuel + 1, some a, s => do
      let node ← h.load (some a)
      let s ← (if node.next ≠ none then visitNode visit h fuel node.next s else .ok s)
      .ok (visit node.data s)

def listForeachReversingly {σ : Type} (visit : ℤ → σ → σ) (fuel : ℕ) (list : SingleLinklist)
    (h : Heap (Node ℤ)) (s : σ) : Except Fault (ℤ × σ) := do
  let head ← h.load list.head
  let s ← visitNode visit h fuel head.next s
  .ok (0, s)

/-! ### Visiting -/

section Visits

variable {σ : Type} {fuel : ℕ} {list : SingleLinklist} {h : Heap (Node ℤ)} {t : List (ℕ × ℤ)}

/-- **The recursion visits the nodes from the last one on.** -/
theorem visitNode_eq (visit : ℤ → σ → σ) {p : Ptr} (hs : Segment h p t none)
    (hfuel : t.length < fuel) (s : σ) :
    visitNode visit h fuel p s = .ok (visitAll visit (datas t).reverse s) := by
  induction t generalizing p fuel with
  | nil =>
      obtain ⟨fuel, rfl⟩ := Nat.exists_eq_add_one_of_ne_zero (Nat.ne_zero_of_lt hfuel)
      obtain rfl : p = none := hs
      rfl
  | cons n t ih =>
      obtain ⟨fuel, rfl⟩ := Nat.exists_eq_add_one_of_ne_zero (Nat.ne_zero_of_lt hfuel)
      obtain ⟨rfl, next, hn, hs⟩ := hs
      have hrest : (if next ≠ none then visitNode visit h fuel next s else .ok s) =
          .ok (visitAll visit (datas t).reverse s) := by
        split
        · exact ih hs (Nat.lt_of_succ_lt_succ hfuel)
        · rename_i hnull
          -- there is no further node
          obtain rfl : next = none := not_not.mp hnull
          obtain rfl : t = [] := hs.unique (show Segment h none [] none from rfl)
          rfl
      rw [visitNode, Heap.load_eq hn, ok_bind, hrest, ok_bind]
      simp only [datas, List.map_cons, List.reverse_cons, visitAll_append]
      rfl

theorem listForeach_visits (visit : ℤ → σ → σ) (hb : Behind h list.head t)
    (hfuel : t.length < fuel) (s : σ) :
    listForeach visit fuel list h s = .ok (0, visitAll visit (datas t) s) := by
  obtain ⟨n, hload, hs⟩ := hb.load_eq
  rw [listForeach, hload, ok_bind, hs.walk_eq visit hfuel, ok_bind]

theorem listForeachReversingly_visits (visit : ℤ → σ → σ) (hb : Behind h list.head t)
    (hfuel : t.length < fuel) (s : σ) :
    listForeachReversingly visit fuel list h s = .ok (0, visitAll visit (datas t).reverse s) := by
  obtain ⟨n, hload, hs⟩ := hb.load_eq
  rw [listForeachReversingly, hload, ok_bind, visitNode_eq visit hs hfuel, ok_bind]

end Visits

/-! ### Turning around -/

variable {h : Heap (Node ℤ)} {b : ℕ} {d : ℤ} {built left : List (ℕ × ℤ)}

/-- **The loop** puts the nodes of the chain that it walks in front of those that
hang behind the sentinel, the last one first, and touches no other node. -/
theorem reverseLoop_eq {p : Ptr} (hbuilt : Segment h (some b) ((b, d) :: built) none)
    (hleft : Segment h p left none) (hdisjoint : ∀ a ∈ addrs left, a ∉ addrs ((b, d) :: built))
    {fuel : ℕ} (hfuel : left.length < fuel) :
    ∃ h', reverseLoop (some b) fuel h p = .ok h' ∧
      Segment h' (some b) ((b, d) :: (left.reverse ++ built)) none ∧
      ∀ c, c ≠ b → c ∉ addrs left → h'.cell c = h.cell c := by
  induction left generalizing h p built fuel with
  | nil =>
      obtain ⟨fuel, rfl⟩ := Nat.exists_eq_add_one_of_ne_zero (Nat.ne_zero_of_lt hfuel)
      obtain rfl : p = none := hleft
      exact ⟨h, rfl, hbuilt, fun _ _ _ => rfl⟩
  | cons n left ih =>
      obtain ⟨fuel, rfl⟩ := Nat.exists_eq_add_one_of_ne_zero (Nat.ne_zero_of_lt hfuel)
      obtain ⟨a, x⟩ := n
      have hnodup := hleft.nodup
      obtain ⟨rfl, next, ha, hrest⟩ := hleft
      obtain ⟨hnotMem, hdisjoint⟩ := List.forall_mem_cons.mp hdisjoint
      obtain ⟨haleft, -⟩ := List.nodup_cons.mp hnodup
      have hsplit : Segment h (some b) ([] ++ (b, d) :: built) none := hbuilt
      obtain ⟨h₁, hlink, hbuilt₁, hframe₁⟩ := hsplit.linkAfter_node ha hnotMem
      -- the nodes that are left are neither the sentinel nor the node that was moved
      have hcell : ∀ c ∈ addrs left, h₁.cell c = h.cell c := by
        intro c hc
        have hca : c ≠ a := fun e => haleft (e ▸ hc)
        have hcb : c ≠ b := fun e => hdisjoint c hc (e ▸ List.mem_cons_self ..)
        exact hframe₁ c hca hcb
      have hdisjoint₁ : ∀ c ∈ addrs left, c ∉ addrs ((b, d) :: (a, x) :: built) := by
        intro c hc hmem
        rcases List.mem_cons.mp hmem with rfl | hmem
        · exact hdisjoint _ hc (List.mem_cons_self ..)
        · rcases List.mem_cons.mp hmem with rfl | hmem
          · exact haleft hc
          · exact hdisjoint c hc (List.mem_cons_of_mem _ hmem)
      obtain ⟨h₂, hloop, hbuilt₂, hframe₂⟩ :=
        ih hbuilt₁ (hrest.congr hcell) hdisjoint₁ (Nat.lt_of_succ_lt_succ hfuel)
      refine ⟨h₂, ?_, ?_, ?_⟩
      · rw [reverseLoop, Heap.load_eq ha, ok_bind]
        show (linkAfter h (some b) (some a) >>= _) = _
        rw [hlink, ok_bind]
        exact hloop
      · rw [List.reverse_cons, List.append_assoc]
        exact hbuilt₂
      · intro c hcb hc
        obtain ⟨hca, hcleft⟩ := List.ne_and_not_mem_of_not_mem_cons hc
        rw [hframe₂ c hcb hcleft, hframe₁ c hca hcb]

/-- The call on a sentinel and the nodes behind it. -/
theorem listReverse_eq {list : SingleLinklist} {t : List (ℕ × ℤ)}
    (hs : Segment h list.head ((b, d) :: t) none) {fuel : ℕ} (hfuel : t.length < fuel) :
    ∃ h', listReverse fuel list h = .ok (0, list, h') ∧
      Segment h' list.head ((b, d) :: t.reverse) none ∧
      ∀ c, c ∉ addrs ((b, d) :: t) → h'.cell c = h.cell c := by
  have hnodup := hs.nodup
  obtain ⟨hhead, next, hb, hrest⟩ := hs
  obtain ⟨hbt, -⟩ := List.nodup_cons.mp hnodup
  -- the sentinel alone
  have hbuilt : Segment (h.set b (some ⟨d, none⟩)) (some b) [(b, d)] none :=
    ⟨rfl, none, Heap.set_cell_self .., rfl⟩
  have hdisjoint : ∀ a ∈ addrs t, a ∉ addrs [(b, d)] := by
    intro a ha hmem
    rw [List.mem_singleton.mp hmem] at ha
    exact hbt ha
  obtain ⟨h', hloop, hbuilt', hframe⟩ :=
    reverseLoop_eq hbuilt (hrest.set hbt _) hdisjoint hfuel
  rw [List.append_nil] at hbuilt'
  refine ⟨h', ?_, hhead ▸ hbuilt', ?_⟩
  · rw [listReverse, hhead, Heap.load_eq hb, ok_bind]
    show (h.store (some b) ⟨d, none⟩ >>= _) = _
    rw [Heap.store_eq hb, ok_bind]
    show (reverseLoop (some b) fuel _ next >>= _) = _
    rw [hloop, ok_bind]
  · intro c hc
    obtain ⟨hcb, hct⟩ := List.ne_and_not_mem_of_not_mem_cons hc
    rw [hframe c hcb hct, Heap.set_cell_ne hcb]

/-- **The list is turned around.**  The call returns, leaves the list itself as
it is, and links the same nodes in the reverse order.  Visiting them from the
first one on is then what visiting them from the last one on was before, and a
second call leaves every node of the heap as it was before the first. -/
theorem listReverse_reverses {list : SingleLinklist} {t : List (ℕ × ℤ)}
    (hs : Segment h list.head ((b, d) :: t) none) {fuel : ℕ} (hfuel : t.length < fuel) :
    ∃ h', listReverse fuel list h = .ok (0, list, h') ∧
      Segment h' list.head ((b, d) :: t.reverse) none ∧
      (∀ (σ : Type) (visit : ℤ → σ → σ) (s : σ), ∃ s',
        listForeach visit fuel list h' s = .ok (0, s') ∧
          listForeachReversingly visit fuel list h s = .ok (0, s')) ∧
      ∃ h'', listReverse fuel list h' = .ok (0, list, h'') ∧
        Segment h'' list.head ((b, d) :: t) none ∧ ∀ c, h''.cell c = h.cell c := by
  obtain ⟨h', hcall, hs', hframe⟩ := listReverse_eq hs hfuel
  have hfuel' : t.reverse.length < fuel := by rwa [List.length_reverse]
  obtain ⟨h'', hcall', hs'', hframe'⟩ := listReverse_eq hs' hfuel'
  rw [List.reverse_reverse] at hs''
  refine ⟨h', hcall, hs', fun σ visit s => ?_, h'', hcall', hs'', fun c => ?_⟩
  · refine ⟨visitAll visit (datas t).reverse s, ?_, ?_⟩
    · rw [listForeach_visits visit ⟨b, d, hs'.1, hs'⟩ hfuel', datas, List.map_reverse]
    · exact listForeachReversingly_visits visit ⟨b, d, hs.1, hs⟩ hfuel s
  · by_cases hc : c ∈ addrs ((b, d) :: t)
    · exact hs.cell_eq hs'' hc
    · have hc' : c ∉ addrs ((b, d) :: t.reverse) := by
        simp only [addrs, List.map_cons, List.map_reverse, List.mem_cons, List.mem_reverse] at hc ⊢
        exact hc
      rw [hframe' c hc', hframe c hc]

/-- A sentinel and two nodes. -/
def twoNodes : Heap (Node ℤ) :=
  ((Heap.empty.set 0 (some ⟨0, some 2⟩)).set 2 (some ⟨5, some 1⟩)).set 1 (some ⟨7, none⟩)

theorem twoNodes_segment : Segment twoNodes (some 0) [(0, 0), (2, 5), (1, 7)] none :=
  ⟨rfl, some 2, rfl, rfl, some 1, rfl, rfl, none, rfl, rfl⟩

/-- `listReverse_reverses` for two nodes. -/
theorem listReverse_reverses_twoNodes :
    ∃ h', listReverse 3 ⟨some 0, 2, 10⟩ twoNodes = .ok (0, ⟨some 0, 2, 10⟩, h') ∧
      Segment h' (some 0) [(0, 0), (1, 7), (2, 5)] none := by
  obtain ⟨h', hcall, hs, -⟩ :=
    @listReverse_reverses twoNodes 0 0 ⟨some 0, 2, 10⟩ [(2, 5), (1, 7)] twoNodes_segment 3
      (by decide)
  exact ⟨h', hcall, hs⟩

end SingleLinklist

end CodeSnippet
