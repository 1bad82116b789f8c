/-
CodeSnippet/ChainOwned.lean

Chains of nodes behind a sentinel, and who owns them.  Linking and unlinking a
node changes the cells of the chain only (`linkAfter_changes`,
`unlinkAfter_changes`), and freeing the nodes from the sentinel on frees all of
the chain (`freeAll_eq`).
-/
import CodeSnippet.Chain
import CodeSnippet.HeapExtends

namespace Memory

variable {α : Type}

/-- The addresses of a chain: the sentinel at `p`, and the nodes behind it. -/
def chainAddrs (p : Ptr) (l : List (ℕ × α)) : List ℕ := p.toList ++ addrs l

variable {h h' : Heap (Node α)} {p : Ptr} {l : List (ℕ × α)}

@[simp] theorem mem_chainAddrs {a : ℕ} : a ∈ chainAddrs p l ↔ p = some a ∨ a ∈ addrs l := by
  rw [chainAddrs, List.mem_append, Option.mem_toList]

theorem Segment.allocated {q : Ptr} (hs : Segment h p l q) :
    ∀ a ∈ addrs l, ∃ v, h.cell a = some v :=
  fun _ ha => Option.ne_none_iff_exists'.mp (hs.cell_ne_none ha)

/-- The cells of a chain are allocated. -/
theorem Behind.allocated (hb : Behind h p l) : ∀ a ∈ chainAddrs p l, ∃ v, h.cell a = some v := by
  obtain ⟨b, d, rfl, hs⟩ := hb
  intro a ha
  refine hs.allocated a ?_
  rcases mem_chainAddrs.mp ha with ha | ha
  · cases ha
    exact List.mem_cons_self ..
  · exact List.mem_cons_of_mem _ ha

theorem Behind.notMem_of_free (hb : Behind h p l) {a : ℕ} (ha : h.cell a = none) :
    a ∉ chainAddrs p l := by
  intro hmem
  obtain ⟨v, hv⟩ := hb.allocated a hmem
  rw [ha] at hv
  cases hv

/-! ### Relinking -/

/-- A step behind another one that has succeeded. -/
theorem bind_eq_ok {ε β γ : Type} {x : Except ε β} {f : β → Except ε γ} {r : γ} :
    (x >>= f) = .ok r ↔ ∃ y, x = .ok y ∧ f y = .ok r := by
  cases x with
  | error e => exact ⟨nofun, nofun⟩
  | ok y =>
      constructor
      · intro hf
        exact ⟨y, rfl, hf⟩
      · rintro ⟨y', hy, hf⟩
        cases hy
        exact hf

theorem Heap.store_frame {h h' : Heap (Node α)} {a : ℕ} {v : Node α}
    (hok : h.store (some a) v = .ok h') : ∀ b, b ≠ a → h'.cell b = h.cell b := by
  intro b hb
  rcases hv : h.cell a with _ | w
  · rw [Heap.store, hv] at hok
    cases hok
  · rw [Heap.store_eq hv] at hok
    cases hok
    exact Heap.set_cell_ne hb h _

/-- Linking a node writes into this node and the one in front of it. -/
theorem linkAfter_frame {a b : ℕ} (hok : linkAfter h (some b) (some a) = .ok h') :
    ∀ c, c ≠ a → c ≠ b → h'.cell c = h.cell c := by
  simp only [linkAfter, bind_eq_ok] at hok
  obtain ⟨p, -, n, -, h₁, hnode, p', -, hprev⟩ := hok
  intro c hca hcb
  rw [Heap.store_frame hprev c hcb, Heap.store_frame hnode c hca]

/-- Unlinking one writes into the node in front of it. -/
theorem unlinkAfter_frame {b : ℕ} {q : Ptr} (hok : unlinkAfter h (some b) = .ok (q, h')) :
    ∀ c, c ≠ b → h'.cell c = h.cell c := by
  simp only [unlinkAfter, bind_eq_ok] at hok
  obtain ⟨p, -, t, -, h₁, hprev, hret⟩ := hok
  cases hret
  exact Heap.store_frame hprev

/-- **A new node in a chain.** -/
theorem linkAfter_changes {b : ℕ} (hb : some b = p ∨ b ∈ addrs l) {m : Allocator (Node α)} {x : α}
    (hok : linkAfter (newNode m h x).2 (some b) (newNode m h x).1 = .ok h') {l' : List (ℕ × α)}
    (hl : ∀ a, a ∈ addrs l' ↔ a = m.malloc h ∨ a ∈ addrs l) :
    h.Changes h' (chainAddrs p l) (chainAddrs p l') := by
  have hframe := linkAfter_frame hok
  refine ⟨fun a ha => ?_, fun a ha ha' => ?_, fun a ha ha' => ?_⟩
  · rcases mem_chainAddrs.mp ha with ha | ha
    · exact .inl (mem_chainAddrs.mpr (.inl ha))
    · rcases (hl a).mp ha with rfl | ha
      · exact .inr (m.fresh h)
      · exact .inl (mem_chainAddrs.mpr (.inr ha))
  · refine absurd (mem_chainAddrs.mpr ?_) ha'
    exact (mem_chainAddrs.mp ha).imp_right fun ha => (hl a).mpr (.inr ha)
  · rw [mem_chainAddrs, not_or] at ha ha'
    have ham : a ≠ m.malloc h := fun he => ha'.2 ((hl a).mpr (.inl he))
    have hab : a ≠ b := by
      rintro rfl
      exact hb.elim (fun he => ha.1 he.symm) ha.2
    rw [hframe a ham hab]
    exact Heap.set_cell_ne ham h _

/-- **A node that is unlinked and freed.** -/
theorem unlinkAfter_changes {b c : ℕ} (hb : some b = p ∨ b ∈ addrs l)
    (hok : unlinkAfter h (some b) = .ok (some c, h')) {l' : List (ℕ × α)}
    (hl : ∀ a, a ∈ addrs l ↔ a = c ∨ a ∈ addrs l') :
    h.Changes (h'.set c none) (chainAddrs p l) (chainAddrs p l') := by
  have hframe := unlinkAfter_frame hok
  refine ⟨fun a ha => .inl ?_, fun a ha ha' => ?_, fun a ha ha' => ?_⟩
  · refine mem_chainAddrs.mpr ((mem_chainAddrs.mp ha).imp_right fun ha => (hl a).mpr (.inr ha))
  · rw [mem_chainAddrs, not_or] at ha'
    have hac : a = c := by
      rcases mem_chainAddrs.mp ha with ha | ha
      · exact absurd ha ha'.1
      · exact ((hl a).mp ha).resolve_right ha'.2
    rw [hac, Heap.set_cell_self]
  · rw [mem_chainAddrs, not_or] at ha
    have hac : a ≠ c := fun he => ha.2 ((hl a).mpr (.inl he))
    have hab : a ≠ b := by
      rintro rfl
      exact hb.elim (fun he => ha.1 he.symm) ha.2
    rw [Heap.set_cell_ne hac, hframe a hab]

/-- **A new sentinel.** -/
theorem newNode_extends (m : Allocator (Node α)) (h : Heap (Node α)) (x : α) :
    h.Extends (newNode m h x).2 (chainAddrs (newNode m h x).1 ([] : List (ℕ × α))) := by
  have hmem : ∀ a, a ∈ chainAddrs (newNode m h x).1 ([] : List (ℕ × α)) ↔ a = m.malloc h := by
    intro a
    simp [newNode, eq_comm]
  refine ⟨fun a ha => ?_, fun a ha => ?_, fun a ha => ?_⟩
  · obtain rfl := (hmem a).mp ha
    exact m.fresh h
  · obtain rfl := (hmem a).mp ha
    exact ⟨_, Heap.set_cell_self ..⟩
  · exact Heap.set_cell_ne (fun he => ha ((hmem a).mpr he)) h _

/-! ### Freeing -/

/-- `while (node != NULL) { tmp = node; node = node->next; free(tmp); }` -/
def freeAll : ℕ → Heap (Node α) → Ptr → Except Fault (Heap (Node α))
  | 0, _, _ => .error .fuel
  | fuel + 1, h, node =>
      if node = none then .ok h
      else do
        let tmp := node
        let n ← h.load node
        let h ← h.free tmp
        freeAll fuel h n.next

/-- **The loop frees the nodes up to the null pointer**, each once. -/
theorem Segment.freeAll_eq (hs : Segment h p l none) {fuel : ℕ} (hfuel : l.length < fuel) :
    freeAll fuel h p = .ok (h.without (addrs l)) := by
  induction l generalizing h p fuel with
  | nil =>
      obtain ⟨fuel, rfl⟩ := Nat.exists_eq_add_one_of_ne_zero (Nat.ne_zero_of_lt hfuel)
      rw [show addrs ([] : List (ℕ × α)) = [] from rfl, Heap.without_nil]
      exact if_pos hs
  | cons n l ih =>
      obtain ⟨fuel, rfl⟩ := Nat.exists_eq_add_one_of_ne_zero (Nat.ne_zero_of_lt hfuel)
      obtain ⟨hn, -⟩ := List.nodup_cons.mp hs.nodup
      obtain ⟨rfl, next, ha, hs⟩ := hs
      -- the rest of the chain is still there when the node is freed
      rw [freeAll, if_neg (Option.some_ne_none _), Heap.load_eq ha, ok_bind]
      show (h.free (some n.1) >>= _) = _
      rw [Heap.free_eq ha, ok_bind]
      rw [ih (hs.set hn none) (Nat.lt_of_succ_lt_succ hfuel), Heap.set_none, Heap.without_without]
      rfl

/-- From the sentinel on. -/
theorem Behind.freeAll_eq (hb : Behind h p l) {fuel : ℕ} (hfuel : l.length + 1 < fuel) :
    freeAll fuel h p = .ok (h.without (chainAddrs p l)) := by
  obtain ⟨b, d, rfl, hs⟩ := hb
  exact hs.freeAll_eq hfuel

end Memory
