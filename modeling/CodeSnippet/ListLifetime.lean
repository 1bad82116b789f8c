/-
CodeSnippet/ListLifetime.lean

The nodes of the linked structures from their `init` to their `destory`; the
structures themselves, which are allocated and freed with them, are not on the heap.
`list_insert` allocates its node before it looks at the length, so every
insertion that is refused because the list is full loses a node, and no other
call does.  `stack_push` looks first, and the stack loses none.

Main results:
  * `SingleLinklist.listDestory_leaves` — what is left of a list.
  * `LinkStack.stackDestory_leaves` — nothing is left of a stack.
-/
import CodeSnippet.ChainOwned
import CodeSnippet.LinkStack
import CodeSnippet.ListReverse

namespace CodeSnippet

open Memory Calls

/-! ### The list -/

/-- A call of one of the functions, with the `malloc` it finds; without one
`malloc` returns `NULL`. -/
inductive ListUse
  | op (c : ListCall) (malloc : Option (Allocator (Node ℤ)))
  | reverse
  | foreachReversingly

namespace SingleLinklist

/-- `list_destory`; the structure itself is not a node. -/
def listDestory (fuel : ℕ) (list : SingleLinklist) (h : Heap (Node ℤ)) :
    Except Fault (ℤ × Heap (Node ℤ)) := do
  let h ← freeAll fuel h list.head
  .ok (0, h)

/-- One call.  Where `node_alloc` returns `NULL`, `list_insert` returns -1. -/
def useList (fuel : ℕ) : ListUse → SingleLinklist × Heap (Node ℤ) →
    Except Fault (ListAnswer × SingleLinklist × Heap (Node ℤ))
  | .op (.insert _) none, s => .ok (.code (-1), s)
  | .op c malloc, s => call fuel (c, malloc.getD (firstFree _)) s
  | .reverse, (list, h) => do
      let (ret, list, h) ← listReverse fuel list h
      .ok (.code ret, list, h)
  | .foreachReversingly, (list, h) => do
      let (ret, seen) ← listForeachReversingly record fuel list h []
      .ok (.visited ret seen, list, h)

/-- The values behind a call. -/
def valuesBehind (max : ℕ) : ListUse → List ℤ → List ℤ
  | .op (.insert _) none, l => l
  | .op c _, l => valuesAfter max c l
  | .reverse, l => l.reverse
  | .foreachReversingly, l => l

/-- A value is refused: there is a node for it, and the list is full. -/
def refused (max : ℕ) : ListUse → List ℤ → ℕ
  | .op (.insert _) (some _), l => if l.length < max then 0 else 1
  | _, _ => 0

/-- The refused values in some calls. -/
def refusals (max : ℕ) : List ListUse → List ℤ → ℕ
  | [], _ => 0
  | c :: cs, l => refused max c l + refusals max cs (valuesBehind max c l)

/-- Every `list_delete` is called for a value that is in the list then. -/
def DeletesOnlyPresent (max : ℕ) : List ListUse → List ℤ → Prop
  | [], _ => True
  | c :: cs, l => (∀ data malloc, c = .op (.delete data) malloc → data ∈ l) ∧
      DeletesOnlyPresent max cs (valuesBehind max c l)

/-- The list owns its nodes besides the heap `h₀`, and the nodes in `lost` belong
to nobody. -/
structure Owns (h₀ : Heap (Node ℤ)) (max : ℕ) (s : SingleLinklist × Heap (Node ℤ))
    (t : List (ℕ × ℤ)) (lost : List ℕ) : Prop where
  holds : Holds max s t
  extended : h₀.Extends s.2 (chainAddrs s.1.head t ++ lost)
  disjoint : ∀ a ∈ chainAddrs s.1.head t, a ∉ lost
  nodup : lost.Nodup

section Functions

variable {h₀ : Heap (Node ℤ)} {max fuel : ℕ} {list : SingleLinklist} {h : Heap (Node ℤ)}
  {t : List (ℕ × ℤ)} {lost : List ℕ}

/-- **What the list owns behind an operation** on its nodes. -/
theorem Owns.changes (ho : Owns h₀ max (list, h) t lost) {list' : SingleLinklist}
    {h' : Heap (Node ℤ)} {t' : List (ℕ × ℤ)} (hs : Holds max (list', h') t')
    (hhead : list'.head = list.head)
    (hc : h.Changes h' (chainAddrs list.head t) (chainAddrs list.head t')) :
    Owns h₀ max (list', h') t' lost := by
  have hs' := hs
  obtain ⟨-, -, -, hb⟩ := hs'
  rw [hhead] at hb
  obtain ⟨hx, hdisjoint⟩ := hc.extended hb.allocated ho.extended ho.disjoint
  rw [← hhead] at hx hdisjoint
  exact ⟨hs, hx, hdisjoint, ho.nodup⟩

/-- A node that is allocated and not linked is lost. -/
theorem Owns.lose (ho : Owns h₀ max (list, h) t lost) (m : Allocator (Node ℤ)) (x : ℤ) :
    Owns h₀ max (list, (newNode m h x).2) t (m.malloc h :: lost) := by
  obtain ⟨hmax, hlen, hle, hb⟩ := ho.holds
  have hfree := (ho.extended.free_iff _).mp (m.fresh h)
  rw [List.mem_append, not_or] at hfree
  obtain ⟨⟨hchain, hlost⟩, -⟩ := hfree
  refine ⟨⟨hmax, hlen, hle, hb.newNode m x⟩, ?_, fun a ha hmem => ?_,
    List.nodup_cons.mpr ⟨hlost, ho.nodup⟩⟩
  · refine (ho.extended.alloc (m.fresh h) ⟨x, none⟩).congr fun a => ?_
    exact (List.perm_middle.mem_iff).symm
  · rcases List.mem_cons.mp hmem with rfl | hmem
    · exact hchain ha
    · exact ho.disjoint a ha hmem

/-! ### Calls -/

theorem addrs_replaceFirst (old new : ℤ) (t : List (ℕ × ℤ)) :
    addrs (replaceFirst old new t) = addrs t := by
  induction t with
  | nil => rfl
  | cons n t ih =>
      obtain ⟨a, x⟩ := n
      rw [replaceFirst]
      split
      · rfl
      · exact congrArg (a :: ·) ih

theorem listInsert_owns (ho : Owns h₀ max (list, h) t lost) (m : Allocator (Node ℤ)) (data : ℤ) :
    ∃ ret list' h' t' new, listInsert m list h data = .ok (ret, list', h') ∧
      Owns h₀ max (list', h') t' (new ++ lost) ∧ datas t' = pushTo max (datas t) data ∧
      new.length = if (datas t).length < max then 0 else 1 := by
  obtain ⟨hmax, hlen, hle, hb⟩ := ho.holds
  rw [List.length_map, pushTo, List.length_map]
  by_cases hroom : t.length < max
  · obtain ⟨list', h', hinsert, hs⟩ := listInsert_eq ho.holds m data
    rw [pushTo, if_pos hroom] at hs
    refine ⟨_, list', h', (m.malloc h, data) :: t, [], hinsert, ?_, ?_, ?_⟩
    · -- the call has linked the node
      have hlt : ¬ list.len ≥ list.max := by omega
      simp only [listInsert, nodeAlloc, if_neg hlt, bind_eq_ok] at hinsert
      obtain ⟨h'', hlink, hret⟩ := hinsert
      rw [if_pos hroom] at hret
      cases hret
      obtain ⟨b, d, hhead, -⟩ := hb
      rw [hhead] at hlink
      refine ho.changes hs rfl (linkAfter_changes (.inl hhead.symm) hlink fun a => ?_)
      exact List.mem_cons
    · rw [if_pos hroom, datas, List.map_cons]
    · rw [if_pos hroom, List.length_nil]
  · have hge : list.len ≥ list.max := by omega
    refine ⟨-1, list, (newNode m h data).2, t, [m.malloc h], ?_, ho.lose m data, ?_, ?_⟩
    · simp only [listInsert, nodeAlloc, if_pos hge]
    · rw [if_neg hroom]
    · rw [if_neg hroom, List.length_singleton]

theorem listDelete_owns (ho : Owns h₀ max (list, h) t lost) (hfuel : max < fuel) {data : ℤ}
    (hmem : data ∈ datas t) :
    ∃ ret list' h', listDelete fuel list h data = .ok (ret, list', h') ∧
      Owns h₀ max (list', h') (t.eraseP (hasValue data)) lost := by
  obtain ⟨list', h', hdelete, hs⟩ := listDelete_eq ho.holds hfuel hmem
  refine ⟨0, list', h', hdelete, ?_⟩
  obtain ⟨rfl, -, hle, b, y, hhead, hchain⟩ := ho.holds
  rw [hhead] at hchain
  rcases deleteLoop_eq hchain data (hle.trans_lt hfuel) with
    ⟨-, pre, b', y', c, post, hsplit, herase, hloop⟩ | ⟨habsent, -⟩
  · rw [hsplit] at hchain
    obtain ⟨h₁, next, hunlink, hc, -⟩ := hchain.unlinkAfter_eq
    simp only [listDelete, hhead, hloop, ok_bind, if_neg (Option.some_ne_none b'), hunlink,
      Heap.free_eq hc] at hdelete
    cases hdelete
    refine ho.changes hs hhead.symm ?_
    rw [hhead]
    apply unlinkAfter_changes (b := b') _ hunlink
    · intro a
      -- the node in front of the one that is freed is the sentinel, or it is in the list
      rcases pre with _ | ⟨n, pre⟩
      · rw [List.nil_append] at hsplit herase
        obtain ⟨-, rfl⟩ := List.cons.inj hsplit
        obtain ⟨-, herase⟩ := List.cons.inj herase
        rw [herase]
        exact List.mem_cons
      · rw [List.cons_append] at hsplit herase
        obtain ⟨-, rfl⟩ := List.cons.inj hsplit
        obtain ⟨-, herase⟩ := List.cons.inj herase
        rw [herase]
        simp only [addrs, List.map_append, List.map_cons, List.mem_append, List.mem_cons]
        rw [or_left_comm (a := a = b'), or_left_comm (b := a = c)]
    · rcases pre with _ | ⟨n, pre⟩
      · obtain ⟨hb', -⟩ := List.cons.inj hsplit
        exact .inl (congrArg (fun n : ℕ × ℤ => some n.1) hb').symm
      · rw [List.cons_append] at hsplit
        obtain ⟨-, rfl⟩ := List.cons.inj hsplit
        exact .inr (List.mem_map.mpr ⟨(b', y'), by simp, rfl⟩)
  · exact absurd hmem habsent

theorem listModify_owns (ho : Owns h₀ max (list, h) t lost) (hfuel : max < fuel) (old new : ℤ) :
    ∃ ret h', listModify fuel list h old new = .ok (ret, h') ∧
      Owns h₀ max (list, h') (replaceFirst old new t) lost := by
  obtain ⟨h', hmodify, hs⟩ := listModify_eq ho.holds hfuel old new
  refine ⟨_, h', hmodify, ho.changes hs rfl ?_⟩
  have haddrs : ∀ a, a ∈ chainAddrs list.head t ↔
      a ∈ chainAddrs list.head (replaceFirst old new t) := by
    intro a
    rw [chainAddrs, chainAddrs, addrs_replaceFirst]
  refine .of_frame haddrs fun a ha => ?_
  rw [mem_chainAddrs, not_or] at ha
  obtain ⟨head, hload, hfirst⟩ := ho.holds.2.2.2.load_eq
  have hseek : seek (· == old) h fuel head.next = .ok ((t.find? (·.2 == old)).map (·.1)) :=
    hfirst.seek_eq (ho.holds.2.2.1.trans_lt hfuel)
  simp only [listModify, hload, ok_bind, hseek] at hmodify
  rcases hfind : t.find? (fun n => n.2 == old) with _ | ⟨c, x⟩
  · rw [hfind, Option.map_none, if_pos rfl] at hmodify
    obtain ⟨-, rfl⟩ := Prod.mk.inj (Except.ok.inj hmodify)
    rfl
  · rw [hfind, Option.map_some, if_neg (Option.some_ne_none c)] at hmodify
    simp only [bind_eq_ok] at hmodify
    obtain ⟨n, -, h'', hstore, hret⟩ := hmodify
    obtain ⟨-, rfl⟩ := Prod.mk.inj (Except.ok.inj hret)
    -- the node that is written is one of the list
    have hc : c ∈ addrs t := List.mem_map.mpr ⟨(c, x), List.mem_of_find?_eq_some hfind, rfl⟩
    exact Heap.store_frame hstore a (ne_of_mem_of_not_mem hc ha.2).symm

theorem listReverse_owns (ho : Owns h₀ max (list, h) t lost) (hfuel : max < fuel) :
    ∃ h', listReverse fuel list h = .ok (0, list, h') ∧ Owns h₀ max (list, h') t.reverse lost := by
  obtain ⟨hmax, hlen, hle, b, d, hhead, hs⟩ := ho.holds
  obtain ⟨h', hreverse, hs', hframe⟩ := listReverse_eq hs (hle.trans_lt hfuel)
  have hholds : Holds max (list, h') t.reverse :=
    ⟨hmax, by rw [List.length_reverse, hlen], by rwa [List.length_reverse], b, d, hhead, hs'⟩
  refine ⟨h', hreverse, ho.changes hholds rfl (.of_frame (fun a => ?_) fun a ha => hframe a ?_)⟩
  · rw [mem_chainAddrs, mem_chainAddrs, addrs, addrs, List.map_reverse, List.mem_reverse]
  · rw [hhead, mem_chainAddrs, not_or] at ha
    exact List.not_mem_cons_of_ne_of_not_mem (fun he => ha.1 (congrArg some he.symm)) ha.2

/-- **One call** loses a node exactly when a value is refused. -/
theorem useList_owns {s : SingleLinklist × Heap (Node ℤ)} (ho : Owns h₀ max s t lost)
    (hfuel : max < fuel) (c : ListUse)
    (hpresent : ∀ data malloc, c = .op (.delete data) malloc → data ∈ datas t) :
    ∃ ans s' t' new, useList fuel c s = .ok (ans, s') ∧ Owns h₀ max s' t' (new ++ lost) ∧
      datas t' = valuesBehind max c (datas t) ∧ new.length = refused max c (datas t) := by
  obtain ⟨list, h⟩ := s
  cases c with
  | op c malloc =>
      cases c with
      | insert data =>
          cases malloc with
          | none => exact ⟨_, (list, h), t, [], rfl, ho, rfl, rfl⟩
          | some m =>
              obtain ⟨ret, list', h', t', new, hinsert, ho', hdatas, hnew⟩ :=
                listInsert_owns ho m data
              refine ⟨.code ret, (list', h'), t', new, ?_, ho', hdatas, hnew⟩
              show (listInsert m list h data >>= _) = _
              rw [hinsert, ok_bind]
      | delete data =>
          obtain ⟨ret, list', h', hdelete, ho'⟩ :=
            listDelete_owns ho hfuel (hpresent data malloc rfl)
          refine ⟨.code ret, (list', h'), _, [], ?_, ho', datas_eraseP data t, rfl⟩
          show (listDelete fuel list h data >>= _) = _
          rw [hdelete, ok_bind]
      | modify old new =>
          obtain ⟨ret, h', hmodify, ho'⟩ := listModify_owns ho hfuel old new
          refine ⟨.code ret, (list, h'), _, [], ?_, ho', datas_replaceFirst old new t, rfl⟩
          show (listModify fuel list h old new >>= _) = _
          rw [hmodify, ok_bind]
      | search data =>
          refine ⟨.node ((t.find? (hasValue data)).map (·.1)), (list, h), t, [], ?_, ho, rfl, rfl⟩
          show (listSearch fuel list h data >>= _) = _
          rw [listSearch_eq ho.holds hfuel, ok_bind]
      | foreach =>
          refine ⟨.visited 0 (visitAll record (datas t) []), (list, h), t, [], ?_, ho, rfl, rfl⟩
          show (listForeach record fuel list h [] >>= _) = _
          rw [listForeach_eq record ho.holds hfuel, ok_bind]
  | reverse =>
      obtain ⟨h', hreverse, ho'⟩ := listReverse_owns ho hfuel
      refine ⟨.code 0, (list, h'), t.reverse, [], ?_, ho', List.map_reverse, rfl⟩
      rw [useList, hreverse, ok_bind]
  | foreachReversingly =>
      have hvisit := listForeachReversingly_visits record ho.holds.2.2.2
        (ho.holds.2.2.1.trans_lt hfuel) []
      refine ⟨.visited 0 (visitAll record (datas t).reverse []), (list, h), t, [], ?_, ho, rfl,
        rfl⟩
      rw [useList, hvisit, ok_bind]

/-- Any calls. -/
theorem run_owns {s : SingleLinklist × Heap (Node ℤ)} (ho : Owns h₀ max s t lost)
    (hfuel : max < fuel) (cs : List ListUse) (hpresent : DeletesOnlyPresent max cs (datas t)) :
    ∃ answers s' t' new, run (useList fuel) cs s = .ok (answers, s') ∧
      Owns h₀ max s' t' (new ++ lost) ∧ new.length = refusals max cs (datas t) := by
  induction cs generalizing s t lost with
  | nil => exact ⟨[], s, t, [], rfl, ho, rfl⟩
  | cons c cs ih =>
      obtain ⟨hdelete, hrest⟩ := hpresent
      obtain ⟨ans, s₁, t₁, new₁, huse, ho₁, hdatas, hnew₁⟩ := useList_owns ho hfuel c hdelete
      rw [← hdatas] at hrest
      obtain ⟨answers, s', t', new, hrun, ho', hnew⟩ := ih ho₁ hrest
      refine ⟨ans :: answers, s', t', new ++ new₁, ?_, ?_, ?_⟩
      · rw [run, huse, ok_bind]
        show (run (useList fuel) cs s₁ >>= _) = _
        rw [hrun, ok_bind]
      · rwa [List.append_assoc]
      · rw [List.length_append, hnew, hnew₁, hdatas, refusals, Nat.add_comm]

end Functions

theorem listInit_owns (m : Allocator (Node ℤ)) (h : Heap (Node ℤ)) (max : ℕ) :
    Owns h max (listInit m h max) [] [] where
  holds := listInit_holds m h max
  extended := by
    rw [List.append_nil]
    exact newNode_extends m h 0
  disjoint _ _ := List.not_mem_nil
  nodup := List.nodup_nil

/-- **What is left of a list.**  After any calls, in which `list_delete` is
called for values in the list only, `list_destory` returns, and besides the nodes
from before `list_init` there is one for every value that was refused because the
list was full. -/
theorem listDestory_leaves (max : ℕ) (cs : List ListUse) (m : Allocator (Node ℤ))
    (h : Heap (Node ℤ)) {fuel : ℕ} (hfuel : max + 1 < fuel)
    (hpresent : DeletesOnlyPresent max cs []) :
    ∃ answers list h₁ h₂ lost,
      run (useList fuel) cs (listInit m h max) = .ok (answers, list, h₁) ∧
      listDestory fuel list h₁ = .ok (0, h₂) ∧ h.Extends h₂ lost ∧ lost.Nodup ∧
      lost.length = refusals max cs [] := by
  obtain ⟨answers, ⟨list, h₁⟩, t, lost, hrun, ho, hlost⟩ :=
    run_owns (listInit_owns m h max) (Nat.lt_of_succ_lt hfuel) cs hpresent
  rw [List.append_nil] at ho
  have hlength : t.length + 1 < fuel := (Nat.succ_le_succ ho.holds.2.2.1).trans_lt hfuel
  refine ⟨answers, list, h₁, h₁.without (chainAddrs list.head t), lost, hrun, ?_,
    ho.extended.without ho.disjoint, ho.nodup, hlost⟩
  rw [listDestory, ho.holds.2.2.2.freeAll_eq hlength, ok_bind]

/-- `listDestory_leaves` for a list for one value and three insertions, of which
one finds no node and one is refused. -/
theorem listDestory_leaves_threeInsertions :
    let m := firstFree (Node ℤ)
    let cs := [.op (.insert 5) none, .op (.insert 6) (some m), .op (.insert 7) (some m), .reverse]
    ∃ answers list h₁ h₂ lost,
      run (useList 3) cs (listInit m .empty 1) = .ok (answers, list, h₁) ∧
      listDestory 3 list h₁ = .ok (0, h₂) ∧ Heap.empty.Extends h₂ lost ∧ lost.Nodup ∧
      lost.length = 1 := by
  intro m cs
  have hpresent : DeletesOnlyPresent 1 cs [] := by
    refine ⟨?_, ?_, ?_, ?_, trivial⟩ <;> rintro data malloc ⟨⟩
  exact listDestory_leaves 1 cs m .empty (by decide) hpresent

end SingleLinklist

/-! ### The stack -/

namespace LinkStack

/-- `stack_destory`; the structure itself is not a node. -/
def stackDestory (fuel : ℕ) (stack : LinkStack) (h : Heap (Node ℤ)) :
    Except Fault (ℤ × Heap (Node ℤ)) := do
  let h ← freeAll fuel h stack.top
  .ok (0, h)

/-- One call.  Where `node_alloc` returns `NULL`, `stack_push` returns -1. -/
def useStack (fuel : ℕ) : StackCall × Option (Allocator (Node ℤ)) → LinkStack × Heap (Node ℤ) →
    Except Fault (StackAnswer × LinkStack × Heap (Node ℤ))
  | (.push _, none), s => .ok (.code (-1), s)
  | (c, malloc), s => call fuel (c, malloc.getD (firstFree _)) s

/-- The stack owns its nodes besides the heap `h₀`. -/
structure Owns (h₀ : Heap (Node ℤ)) (max : ℕ) (s : LinkStack × Heap (Node ℤ))
    (nodes : List (ℕ × ℤ)) : Prop where
  max_eq : s.1.max = max
  len_eq : s.1.len = nodes.length
  len_le : nodes.length ≤ max
  behind : Behind s.2 s.1.top nodes
  extended : h₀.Extends s.2 (chainAddrs s.1.top nodes)

section Functions

variable {h₀ : Heap (Node ℤ)} {max fuel : ℕ} {stack : LinkStack} {h : Heap (Node ℤ)}
  {nodes : List (ℕ × ℤ)}

theorem Owns.holds (ho : Owns h₀ max (stack, h) nodes) : Holds max (stack, h) (datas nodes) := by
  refine ⟨ho.max_eq, ?_, ?_, nodes, ho.behind, rfl⟩
  · rw [List.length_map]
    exact ho.len_eq
  · rw [List.length_map]
    exact ho.len_le

theorem stackPush_owns (ho : Owns h₀ max (stack, h) nodes) (m : Allocator (Node ℤ)) (data : ℤ) :
    ∃ ret stack' h' nodes', stackPush m stack h data = .ok (ret, stack', h') ∧
      Owns h₀ max (stack', h') nodes' := by
  obtain ⟨hmax, hlen, hle, hb, hx⟩ := ho
  by_cases hfull : stackIsfull stack = true
  · exact ⟨-1, stack, h, nodes, if_pos hfull, ⟨hmax, hlen, hle, hb, hx⟩⟩
  · -- there is room, and the node that is allocated is linked
    have hroom : nodes.length < max :=
      lt_of_le_of_ne hle fun he => hfull (beq_iff_eq.mpr (hlen.trans (he.trans hmax.symm)))
    obtain ⟨h', hlink, hb'⟩ := hb.linkAfter_eq m data
    refine ⟨0, { stack with len := stack.len + 1 }, h', (m.malloc h, data) :: nodes, ?_,
      hmax, congrArg (· + 1) hlen, hroom, hb', ?_⟩
    · rw [stackPush, if_neg hfull, nodeAlloc]
      simp only [hlink, ok_bind]
    · obtain ⟨b, d, htop, -⟩ := hb
      have htop : stack.top = some b := htop
      rw [htop] at hlink
      exact (linkAfter_changes (.inl htop.symm) hlink fun a => List.mem_cons).extends_all
        hb'.allocated hx

theorem stackPop_owns (ho : Owns h₀ max (stack, h) nodes) (data : ℤ) :
    ∃ ret stack' h' data' nodes', stackPop stack h data = .ok (ret, stack', h', data') ∧
      Owns h₀ max (stack', h') nodes' := by
  cases nodes with
  | nil => exact ⟨-1, stack, h, data, [], stackPop_nil ho.holds data, ho⟩
  | cons n nodes =>
      obtain ⟨hmax, hlen, hle, hb, hx⟩ := ho
      obtain ⟨c, x⟩ := n
      obtain ⟨h', next, hunlink, hc, hb'⟩ := hb.unlinkAfter_eq
      have hisempty : ¬ stackIsempty stack = true := by
        rw [stackIsempty, beq_iff_eq, show stack.len = _ from hlen]
        exact Nat.succ_ne_zero _
      refine ⟨0, { stack with len := stack.len - 1 }, h'.set c none, x, nodes, ?_, hmax, ?_,
        Nat.le_of_succ_le hle, hb', ?_⟩
      · rw [stackPop, if_neg hisempty]
        simp only [hunlink, ok_bind, Heap.load_eq hc, Heap.free_eq hc]
      · show stack.len - 1 = _
        rw [show stack.len = _ from hlen, List.length_cons, Nat.add_sub_cancel]
      · obtain ⟨b, d, htop, -⟩ := hb
        have htop : stack.top = some b := htop
        rw [htop] at hunlink
        exact (unlinkAfter_changes (.inl htop.symm) hunlink fun a => List.mem_cons).extends_all
          hb'.allocated hx

/-- **One call** loses no node. -/
theorem useStack_owns {s : LinkStack × Heap (Node ℤ)} (ho : Owns h₀ max s nodes)
    (hfuel : max < fuel) (c : StackCall × Option (Allocator (Node ℤ))) :
    ∃ ans s' nodes', useStack fuel c s = .ok (ans, s') ∧ Owns h₀ max s' nodes' := by
  obtain ⟨stack, h⟩ := s
  obtain ⟨c, malloc⟩ := c
  cases c with
  | push data =>
      cases malloc with
      | none => exact ⟨.code (-1), (stack, h), nodes, rfl, ho⟩
      | some m =>
          obtain ⟨ret, stack', h', nodes', hpush, ho'⟩ := stackPush_owns ho m data
          refine ⟨.code ret, (stack', h'), nodes', ?_, ho'⟩
          show (stackPush m stack h data >>= _) = _
          rw [hpush, ok_bind]
  | pop data =>
      obtain ⟨ret, stack', h', data', nodes', hpop, ho'⟩ := stackPop_owns ho data
      refine ⟨.popped ret data', (stack', h'), nodes', ?_, ho'⟩
      show (stackPop stack h data >>= _) = _
      rw [hpop, ok_bind]
  | isempty => exact ⟨_, (stack, h), nodes, rfl, ho⟩
  | isfull => exact ⟨_, (stack, h), nodes, rfl, ho⟩
  | foreach =>
      refine ⟨.visited 0 (visitAll record (datas nodes) []), (stack, h), nodes, ?_, ho⟩
      show (stackForeach record fuel stack h [] >>= _) = _
      rw [stackForeach_eq record ho.holds hfuel, ok_bind]

theorem run_owns {s : LinkStack × Heap (Node ℤ)} (ho : Owns h₀ max s nodes) (hfuel : max < fuel)
    (cs : List (StackCall × Option (Allocator (Node ℤ)))) :
    ∃ answers s' nodes', run (useStack fuel) cs s = .ok (answers, s') ∧ Owns h₀ max s' nodes' := by
  induction cs generalizing s nodes with
  | nil => exact ⟨[], s, nodes, rfl, ho⟩
  | cons c cs ih =>
      obtain ⟨ans, s₁, nodes₁, huse, ho₁⟩ := useStack_owns ho hfuel c
      obtain ⟨answers, s', nodes', hrun, ho'⟩ := ih ho₁
      refine ⟨ans :: answers, s', nodes', ?_, ho'⟩
      rw [run, huse, ok_bind]
      show (run (useStack fuel) cs s₁ >>= _) = _
      rw [hrun, ok_bind]

end Functions

/-- **Nothing is left of the nodes of a stack.**  From the structure that `stack_init` has
filled in, after any calls, `stack_destory` returns, and the nodes that are allocated are
those from before the head was. -/
theorem stackDestory_leaves (max : ℕ) (cs : List (StackCall × Option (Allocator (Node ℤ))))
    (m : Allocator (Node ℤ)) (h : Heap (Node ℤ)) {fuel : ℕ} (hfuel : max + 1 < fuel) :
    ∃ answers stack h₁, run (useStack fuel) cs (stackInit m h max) = .ok (answers, stack, h₁) ∧
      stackDestory fuel stack h₁ = .ok (0, h) := by
  have hinit : Owns h max (stackInit m h max) [] :=
    ⟨rfl, rfl, Nat.zero_le _, newNode_behind m h 0, newNode_extends m h 0⟩
  obtain ⟨answers, ⟨stack, h₁⟩, nodes, hrun, ho⟩ := run_owns hinit (Nat.lt_of_succ_lt hfuel) cs
  have hlength : nodes.length + 1 < fuel := (Nat.succ_le_succ ho.len_le).trans_lt hfuel
  refine ⟨answers, stack, h₁, hrun, ?_⟩
  rw [stackDestory, ho.behind.freeAll_eq hlength, ok_bind, ho.extended.without_eq]

/-- `stackDestory_leaves` for a stack for one entry and three pushes. -/
theorem stackDestory_leaves_threePushes :
    let m := firstFree (Node ℤ)
    let cs := [(.push 5, none), (.push 6, some m), (.push 7, some m), (.foreach, none)]
    ∃ answers stack h₁, run (useStack 3) cs (stackInit m .empty 1) = .ok (answers, stack, h₁) ∧
      stackDestory 3 stack h₁ = .ok (0, .empty) :=
  stackDestory_leaves 1 _ _ .empty (by decide)

end LinkStack

end CodeSnippet
