/-
CodeSnippet/SingleLinklist.lean

The list of src/algorithm/list/single_linklist: a chain of nodes behind a
sentinel, with a counter.  As long as `list_delete` is called for values that
are in the list, the calls do what they do on a list of nodes; called for any
other value it follows a null pointer.

Main results:
  * `call_spec`, `call_delete_absent` — one call.
  * `follows_iff` — any calls.
-/
import CodeSnippet.ArrayStack
import CodeSnippet.Chain

namespace CodeSnippet

open Memory Calls

/-! ### Source -/

/-- `struct _list_t_` -/
structure SingleLinklist where
  head : Ptr
  len : ℕ
  max : ℕ

namespace SingleLinklist

/-- `node_alloc`, when there is a node. -/
def nodeAlloc (m : Allocator (Node ℤ)) (h : Heap (Node ℤ)) (data : ℤ) : Ptr × Heap (Node ℤ) :=
  newNode m h data

def listInit (m : Allocator (Node ℤ)) (h : Heap (Node ℤ)) (max : ℕ) :
    SingleLinklist × Heap (Node ℤ) :=
  let (head, h) := nodeAlloc m h 0
  (⟨head, 0, max⟩, h)

/-- `list_insert`.  The node is allocated before the length is looked at, and
stays behind when the list is full. -/
def listInsert (m : Allocator (Node ℤ)) (list : SingleLinklist) (h : Heap (Node ℤ)) (data : ℤ) :
    Except Fault (ℤ × SingleLinklist × Heap (Node ℤ)) :=
  let (node, h) := nodeAlloc m h data
  if list.len ≥ list.max then .ok (-1, list, h)
  else do
    let h ← linkAfter h list.head node
    .ok (0, { list with len := list.len + 1 }, h)

/-- `while (node->next != NULL && node->next->data != data) node = node->next;` -/
def deleteLoop (h : Heap (Node ℤ)) (data : ℤ) : ℕ → Ptr → Except Fault Ptr
  | 0, _ => .error .fuel
  | fuel + 1, node => do
      let n ← h.load node
      match n.next with
      | none => .ok node -- the last node, which does not have to have the value
      | some a => do
          let next ← h.load (some a)
          if next.data ≠ data then deleteLoop h data fuel (some a) else .ok node

/-- `list_delete`.  It is `node` that is compared with `NULL` after the loop. -/
def listDelete (fuel : ℕ) (list : SingleLinklist) (h : Heap (Node ℤ)) (data : ℤ) :
    Except Fault (ℤ × SingleLinklist × Heap (Node ℤ)) := do
  let node ← deleteLoop h data fuel list.head
  if node = none then .ok (-1, list, h)
  else do
    let (tmp, h) ← unlinkAfter h node
    let h ← h.free tmp
    .ok (0, { list with len := list.len - 1 }, h)

def listModify (fuel : ℕ) (list : SingleLinklist) (h : Heap (Node ℤ)) (old new : ℤ) :
    Except Fault (ℤ × Heap (Node ℤ)) := do
  let head ← h.load list.head
  let node ← seek (· == old) h fuel head.next
  if node = none then .ok (-1, h)
  else do
    let n ← h.load node
    let h ← h.store node { n with data := new }
    .ok (0, h)

def listSearch (fuel : ℕ) (list : SingleLinklist) (h : Heap (Node ℤ)) (data : ℤ) :
    Except Fault Ptr := do
  let head ← h.load list.head
  seek (· == data) h fuel head.next

def listForeach {σ : Type} (visit : ℤ → σ → σ) (fuel : ℕ) (list : SingleLinklist)
    (h : Heap (Node ℤ)) (s : σ) : Except Fault (ℤ × σ) := do
  let head ← h.load list.head
  let s ← walk visit h fuel head.next s
  .ok (0, s)

end SingleLinklist

/-! ### Calls -/

inductive ListCall
  | insert (data : ℤ)
  | delete (data : ℤ)
  | modify (old new : ℤ)
  | search (data : ℤ)
  | foreach

/-- The return code or the pointer that a call returns, with what was visited. -/
inductive ListAnswer
  | code (ret : ℤ)
  | node (ret : Ptr)
  | visited (ret : ℤ) (seen : List ℤ)

namespace SingleLinklist

/-- One call, with the `malloc` it finds. -/
def call (fuel : ℕ) :
    ListCall × Allocator (Node ℤ) → SingleLinklist × Heap (Node ℤ) →
      Except Fault (ListAnswer × SingleLinklist × Heap (Node ℤ))
  | (.insert data, m), (list, h) => do
      let (ret, list, h) ← listInsert m list h data
      .ok (.code ret, list, h)
  | (.delete data, _), (list, h) => do
      let (ret, list, h) ← listDelete fuel list h data
      .ok (.code ret, list, h)
  | (.modify old new, _), (list, h) => do
      let (ret, h) ← listModify fuel list h old new
      .ok (.code ret, list, h)
  | (.search data, _), (list, h) => do
      let ret ← listSearch fuel list h data
      .ok (.node ret, list, h)
  | (.foreach, _), (list, h) => do
      let (ret, seen) ← listForeach record fuel list h []
      .ok (.visited ret seen, list, h)

/-! ### The list of nodes -/

/-- The node has the value. -/
def hasValue (data : ℤ) (n : ℕ × ℤ) : Bool := n.2 == data

/-- Other data in the first node that has `old`. -/
def replaceFirst (old new : ℤ) : List (ℕ × ℤ) → List (ℕ × ℤ)
  | [] => []
  | (a, x) :: t => if x = old then (a, new) :: t else (a, x) :: replaceFirst old new t

/-- The answer to a call on a list of at most `max` nodes. -/
def answer (max : ℕ) : ListCall → List (ℕ × ℤ) → ListAnswer
  | .insert _, t => .code (if t.length < max then 0 else -1)
  | .delete data, t => .code (if data ∈ datas t then 0 else -1)
  | .modify old _, t => .code (if old ∈ datas t then 0 else -1)
  | .search data, t => .node ((t.find? (hasValue data)).map (·.1))
  | .foreach, t => .visited 0 (datas t)

/-- The nodes behind a call, where a new node gets the address `a`. -/
def nodesAfter (max a : ℕ) : ListCall → List (ℕ × ℤ) → List (ℕ × ℤ)
  | .insert data, t => pushTo max t (a, data)
  | .delete data, t => t.eraseP (hasValue data)
  | .modify old new, t => replaceFirst old new t
  | .search _, t | .foreach, t => t

/-- The values behind a call. -/
def valuesAfter (max : ℕ) : ListCall → List ℤ → List ℤ
  | .insert data, l => pushTo max l data
  | .delete data, l => l.erase data
  | .modify old new, l => l.replace old new
  | .search _, l | .foreach, l => l

/-- Every `list_delete` is called for a value that is in the list then. -/
def DeletesPresent (max : ℕ) : List ListCall → List ℤ → Prop
  | [], _ => True
  | c :: cs, l => (∀ data, c = .delete data → data ∈ l) ∧ DeletesPresent max cs (valuesAfter max c l)

/-- The nodes hang behind the sentinel, and the counter counts them. -/
def Holds (max : ℕ) : SingleLinklist × Heap (Node ℤ) → List (ℕ × ℤ) → Prop
  | (list, h), t => list.max = max ∧ list.len = t.length ∧ t.length ≤ max ∧ Behind h list.head t

/-- In every state the nodes are where they should be, and every call returns
what it should. -/
def Follows (max fuel : ℕ) :
    List (ListCall × Allocator (Node ℤ)) → List (ℕ × ℤ) → SingleLinklist × Heap (Node ℤ) → Prop
  | [], t, s => Holds max s t
  | c :: cs, t, s => Holds max s t ∧ ∃ a s', a ∉ addrs t ∧
      call fuel c s = .ok (answer max c.1 t, s') ∧ Follows max fuel cs (nodesAfter max a c.1 t) s'

/-! ### Nodes and values -/

theorem hasValue_iff {data : ℤ} {n : ℕ × ℤ} : hasValue data n = true ↔ n.2 = data := beq_iff_eq

theorem datas_replaceFirst (old new : ℤ) (t : List (ℕ × ℤ)) :
    datas (replaceFirst old new t) = (datas t).replace old new := by
  induction t with
  | nil => rfl
  | cons n t ih =>
      obtain ⟨a, x⟩ := n
      show datas (replaceFirst old new ((a, x) :: t)) = (x :: datas t).replace old new
      rw [replaceFirst]
      by_cases hx : x = old
      · rw [if_pos hx, hx, List.replace_cons_self]
        rfl
      · rw [if_neg hx, List.replace_cons, beq_eq_false_iff_ne.mpr (Ne.symm hx), ← ih]
        rfl

theorem datas_eraseP (data : ℤ) (t : List (ℕ × ℤ)) :
    datas (t.eraseP (hasValue data)) = (datas t).erase data := by
  induction t with
  | nil => rfl
  | cons n t ih =>
      show datas ((n :: t).eraseP (hasValue data)) = (n.2 :: datas t).erase data
      by_cases hx : hasValue data n = true
      · rw [List.eraseP_cons_of_pos hx, hasValue_iff.mp hx, List.erase_cons_head]
      · rw [List.eraseP_cons_of_neg hx, List.erase_cons_tail hx, ← ih]
        rfl

/-- The values follow the nodes. -/
theorem datas_nodesAfter (max a : ℕ) (c : ListCall) (t : List (ℕ × ℤ)) :
    datas (nodesAfter max a c t) = valuesAfter max c (datas t) := by
  cases c with
  | insert data =>
      rw [nodesAfter, valuesAfter, pushTo, pushTo, List.length_map]
      split
      · rfl
      · rfl
  | delete data => exact datas_eraseP data t
  | modify old new => exact datas_replaceFirst old new t
  | search | foreach => rfl

theorem find?_hasValue_eq_none {data : ℤ} {t : List (ℕ × ℤ)} :
    t.find? (hasValue data) = none ↔ data ∉ datas t := by
  rw [List.find?_eq_none, List.mem_map]
  constructor
  · rintro hno ⟨n, hn, hdata⟩
    exact hno n hn (hasValue_iff.mpr hdata)
  · intro hno n hn hvalue
    exact hno ⟨n, hn, hasValue_iff.mp hvalue⟩

/-- The first node with a value, and what is before and behind it. -/
theorem find?_hasValue_eq_some {data : ℤ} {t : List (ℕ × ℤ)} (h : data ∈ datas t) :
    ∃ pre c post, t = pre ++ (c, data) :: post ∧ t.find? (hasValue data) = some (c, data) ∧
      ∀ new, replaceFirst data new t = pre ++ (c, new) :: post := by
  induction t with
  | nil => exact absurd h List.not_mem_nil
  | cons n t ih =>
      obtain ⟨c, x⟩ := n
      by_cases hx : x = data
      · obtain rfl := hx
        refine ⟨[], c, t, rfl, List.find?_cons_of_pos (hasValue_iff.mpr rfl), fun new => ?_⟩
        rw [replaceFirst, if_pos rfl]
        rfl
      · have htail : data ∈ datas t := (List.mem_cons.mp h).resolve_left (Ne.symm hx)
        obtain ⟨pre, c', post, rfl, hfind, hreplace⟩ := ih htail
        refine ⟨(c, x) :: pre, c', post, rfl, ?_, fun new => ?_⟩
        · rw [List.find?_cons_of_neg fun e => hx (hasValue_iff.mp e), hfind]
        · rw [replaceFirst, if_neg hx, hreplace new]
          rfl

theorem replaceFirst_of_notMem {old : ℤ} {t : List (ℕ × ℤ)} (h : old ∉ datas t) (new : ℤ) :
    replaceFirst old new t = t := by
  induction t with
  | nil => rfl
  | cons n t ih =>
      obtain ⟨hne, htail⟩ := List.ne_and_not_mem_of_not_mem_cons h
      rw [replaceFirst, if_neg (Ne.symm hne), ih htail]

/-! ### Calls -/

/-- **The loop of `list_delete`** ends at the node in front of the first one with
the value, or at the last one. -/
theorem deleteLoop_eq {h : Heap (Node ℤ)} {b : ℕ} {y : ℤ} {t : List (ℕ × ℤ)}
    (hs : Segment h (some b) ((b, y) :: t) none) (data : ℤ) {fuel : ℕ} (hfuel : t.length < fuel) :
    (data ∈ datas t ∧ ∃ pre b' y' c post, (b, y) :: t = pre ++ (b', y') :: (c, data) :: post ∧
      (b, y) :: t.eraseP (hasValue data) = pre ++ (b', y') :: post ∧
      deleteLoop h data fuel (some b) = .ok (some b')) ∨
    (data ∉ datas t ∧ ∃ pre b' y', (b, y) :: t = pre ++ [(b', y')] ∧
      deleteLoop h data fuel (some b) = .ok (some b')) := by
  induction t generalizing b y fuel with
  | nil =>
      obtain ⟨fuel, rfl⟩ := Nat.exists_eq_add_one_of_ne_zero (Nat.ne_zero_of_lt hfuel)
      obtain ⟨-, next, hb, rfl⟩ := hs
      refine .inr ⟨List.not_mem_nil, [], b, y, rfl, ?_⟩
      rw [deleteLoop, Heap.load_eq hb]
      rfl
  | cons n t ih =>
      obtain ⟨fuel, rfl⟩ := Nat.exists_eq_add_one_of_ne_zero (Nat.ne_zero_of_lt hfuel)
      obtain ⟨c, x⟩ := n
      obtain ⟨-, _, hb, hrest⟩ := hs
      have hrest' := hrest
      obtain ⟨rfl, next, hc, -⟩ := hrest
      have hstep : deleteLoop h data (fuel + 1) (some b) =
          if x ≠ data then deleteLoop h data fuel (some c) else .ok (some b) := by
        rw [deleteLoop, Heap.load_eq hb]
        show (h.load (some c) >>= _) = _
        rw [Heap.load_eq hc]
        rfl
      rw [hstep]
      by_cases hx : x = data
      · -- the next node has the value
        obtain rfl := hx
        rw [if_neg (not_not_intro rfl)]
        have hvalue : hasValue x (c, x) = true := hasValue_iff.mpr rfl
        refine .inl ⟨List.mem_cons_self .., [], b, y, c, t, rfl, ?_, rfl⟩
        rw [List.eraseP_cons_of_pos hvalue]
        rfl
      · rw [if_pos hx, List.eraseP_cons_of_neg fun e => hx (hasValue_iff.mp e)]
        rcases ih hrest' (Nat.lt_of_succ_lt_succ hfuel) with
          ⟨hmem, pre, b', y', c', post, hsplit, herase, hloop⟩ | ⟨hmem, pre, b', y', hsplit, hloop⟩
        · refine .inl ⟨List.mem_cons_of_mem _ hmem, (b, y) :: pre, b', y', c', post, ?_, ?_, hloop⟩
          · rw [hsplit, List.cons_append]
          · rw [herase, List.cons_append]
        · refine .inr ⟨?_, (b, y) :: pre, b', y', ?_, hloop⟩
          · exact List.not_mem_cons_of_ne_of_not_mem (Ne.symm hx) hmem
          · rw [hsplit, List.cons_append]

section Functions

variable {max fuel : ℕ} {list : SingleLinklist} {h : Heap (Node ℤ)} {t : List (ℕ × ℤ)}

theorem listInit_holds (m : Allocator (Node ℤ)) (h : Heap (Node ℤ)) (max : ℕ) :
    Holds max (listInit m h max) [] :=
  ⟨rfl, rfl, Nat.zero_le _, newNode_behind m h 0⟩

theorem listInsert_eq (hs : Holds max (list, h) t) (m : Allocator (Node ℤ)) (data : ℤ) :
    ∃ list' h', listInsert m list h data = .ok (if t.length < max then 0 else -1, list', h') ∧
      Holds max (list', h') (pushTo max t (m.malloc h, data)) := by
  obtain ⟨rfl, hlen, hle, hnodes⟩ := hs
  have hdef : listInsert m list h data =
      if list.len ≥ list.max then .ok (-1, list, (newNode m h data).2)
      else linkAfter (newNode m h data).2 list.head (newNode m h data).1 >>= fun h =>
        .ok (0, { list with len := list.len + 1 }, h) := rfl
  rw [hdef, hlen, pushTo]
  by_cases hroom : t.length < list.max
  · obtain ⟨h', hlink, hnodes'⟩ := hnodes.linkAfter_eq m data
    rw [if_neg (Nat.not_le.mpr hroom), if_pos hroom, if_pos hroom, hlink]
    exact ⟨_, h', rfl, rfl, rfl, hroom, hnodes'⟩
  · -- the new node is lost
    rw [if_pos (Nat.le_of_not_lt hroom), if_neg hroom, if_neg hroom]
    exact ⟨list, _, rfl, rfl, hlen, hle, hnodes.newNode m data⟩

theorem listDelete_eq (hs : Holds max (list, h) t) (hfuel : max < fuel) {data : ℤ}
    (hmem : data ∈ datas t) :
    ∃ list' h', listDelete fuel list h data = .ok (0, list', h') ∧
      Holds max (list', h') (t.eraseP (hasValue data)) := by
  obtain ⟨rfl, hlen, hle, b, y, hhead, hchain⟩ := hs
  rw [hhead] at hchain
  rcases deleteLoop_eq hchain data (hle.trans_lt hfuel) with
    ⟨-, pre, b', y', c, post, hsplit, herase, hloop⟩ | ⟨habsent, -⟩
  · rw [hsplit] at hchain
    obtain ⟨h', next, hunlink, hc, hchain'⟩ := hchain.unlinkAfter_eq
    have hdelete : listDelete fuel list h data =
        .ok (0, { list with len := list.len - 1 }, h'.set c none) := by
      rw [listDelete, hhead, hloop, ok_bind, if_neg (Option.some_ne_none b'), hunlink]
      show (h'.free (some c) >>= _) = _
      rw [Heap.free_eq hc]
      rfl
    have hlength : (t.eraseP (hasValue data)).length + 1 = t.length := by
      have hsplit := congrArg List.length hsplit
      have herase := congrArg List.length herase
      simp only [List.length_cons, List.length_append] at hsplit herase
      omega
    refine ⟨_, _, hdelete, rfl, ?_, by omega, b, y, hhead, ?_⟩
    · show list.len - 1 = _
      omega
    · rw [herase, hhead]
      exact hchain'
  · exact absurd hmem habsent

/-- **A value that is not in the list** makes `list_delete` follow a null
pointer. -/
theorem listDelete_absent (hs : Holds max (list, h) t) (hfuel : max < fuel) {data : ℤ}
    (habsent : data ∉ datas t) : listDelete fuel list h data = .error .null := by
  obtain ⟨rfl, -, hle, b, y, hhead, hchain⟩ := hs
  rw [hhead] at hchain
  rcases deleteLoop_eq hchain data (hle.trans_lt hfuel) with
    ⟨hmem, -⟩ | ⟨-, pre, b', y', hsplit, hloop⟩
  · exact absurd hmem habsent
  · -- the loop has ended at the last node, which is not null
    rw [hsplit] at hchain
    rw [listDelete, hhead, hloop, ok_bind, if_neg (Option.some_ne_none b'), hchain.unlinkAfter_last]
    rfl

theorem listModify_eq (hs : Holds max (list, h) t) (hfuel : max < fuel) (old new : ℤ) :
    ∃ h', listModify fuel list h old new = .ok (if old ∈ datas t then 0 else -1, h') ∧
      Holds max (list, h') (replaceFirst old new t) := by
  obtain ⟨head, hload, hfirst⟩ := hs.2.2.2.load_eq
  have hseek : seek (· == old) h fuel head.next = .ok ((t.find? (hasValue old)).map (·.1)) :=
    hfirst.seek_eq (hs.2.2.1.trans_lt hfuel)
  rw [listModify, hload, ok_bind, hseek, ok_bind]
  by_cases hmem : old ∈ datas t
  · -- the sentinel and the nodes in `pre` keep their data
    obtain ⟨pre, c, post, rfl, hfind, hreplace⟩ := find?_hasValue_eq_some hmem
    obtain ⟨hmax, hlen, hle, b, y, hhead, hchain⟩ := hs
    have hbehind : Segment h list.head (((b, y) :: pre) ++ (c, old) :: post) none := hchain
    obtain ⟨next, hc, hupdate⟩ := hbehind.update
    have hlength : (pre ++ (c, new) :: post).length = (pre ++ (c, old) :: post).length := by
      rw [List.length_append, List.length_append, List.length_cons, List.length_cons]
    rw [hfind, Option.map_some, if_neg (Option.some_ne_none c), Heap.load_eq hc, ok_bind,
      Heap.store_eq hc, ok_bind, if_pos hmem, hreplace]
    exact ⟨_, rfl, hmax, hlen.trans hlength.symm, hlength.trans_le hle, b, y, hhead, hupdate new⟩
  · rw [find?_hasValue_eq_none.mpr hmem, if_neg hmem, replaceFirst_of_notMem hmem]
    exact ⟨h, rfl, hs⟩

theorem listSearch_eq (hs : Holds max (list, h) t) (hfuel : max < fuel) (data : ℤ) :
    listSearch fuel list h data = .ok ((t.find? (hasValue data)).map (·.1)) := by
  obtain ⟨head, hload, hfirst⟩ := hs.2.2.2.load_eq
  rw [listSearch, hload, ok_bind]
  exact hfirst.seek_eq (hs.2.2.1.trans_lt hfuel)

theorem listForeach_eq {σ : Type} (visit : ℤ → σ → σ) (hs : Holds max (list, h) t)
    (hfuel : max < fuel) (s : σ) :
    listForeach visit fuel list h s = .ok (0, visitAll visit (datas t) s) := by
  obtain ⟨head, hload, hfirst⟩ := hs.2.2.2.load_eq
  rw [listForeach, hload, ok_bind, hfirst.walk_eq visit (hs.2.2.1.trans_lt hfuel)]
  rfl

end Functions

variable {max fuel : ℕ} {s : SingleLinklist × Heap (Node ℤ)} {t : List (ℕ × ℤ)}

/-- **One call**, where `list_delete` is called for a value in the list. -/
theorem call_spec (hfuel : max < fuel) (c : ListCall) (m : Allocator (Node ℤ)) (hs : Holds max s t)
    (hpresent : ∀ data, c = .delete data → data ∈ datas t) :
    ∃ a s', a ∉ addrs t ∧ call fuel (c, m) s = .ok (answer max c t, s') ∧
      Holds max s' (nodesAfter max a c t) := by
  obtain ⟨list, h⟩ := s
  have hfresh := hs.2.2.2.malloc_notMem m
  cases c with
  | insert data =>
      obtain ⟨list', h', hinsert, hholds⟩ := listInsert_eq hs m data
      refine ⟨m.malloc h, (list', h'), hfresh, ?_, hholds⟩
      rw [call, hinsert]
      rfl
  | delete data =>
      have hmem := hpresent data rfl
      obtain ⟨list', h', hdelete, hholds⟩ := listDelete_eq hs hfuel hmem
      refine ⟨m.malloc h, (list', h'), hfresh, ?_, hholds⟩
      rw [call, hdelete, answer, if_pos hmem]
      rfl
  | modify old new =>
      obtain ⟨h', hmodify, hholds⟩ := listModify_eq hs hfuel old new
      refine ⟨m.malloc h, (list, h'), hfresh, ?_, hholds⟩
      rw [call, hmodify]
      rfl
  | search data =>
      refine ⟨m.malloc h, (list, h), hfresh, ?_, hs⟩
      rw [call, listSearch_eq hs hfuel]
      rfl
  | foreach =>
      refine ⟨m.malloc h, (list, h), hfresh, ?_, hs⟩
      rw [call, listForeach_eq record hs hfuel, visitAll_record]
      rfl

theorem call_delete_absent (hfuel : max < fuel) {data : ℤ} (m : Allocator (Node ℤ))
    (hs : Holds max s t) (habsent : data ∉ datas t) :
    call fuel (.delete data, m) s = .error .null := by
  obtain ⟨list, h⟩ := s
  rw [call, listDelete_absent hs hfuel habsent]
  rfl

theorem Follows.holds {calls : List (ListCall × Allocator (Node ℤ))}
    (h : Follows max fuel calls t s) : Holds max s t := by
  cases calls with
  | nil => exact h
  | cons c calls => exact h.1

/-- **When the calls do what they should**, from any state. -/
theorem follows_iff_of_holds (hfuel : max < fuel) (hs : Holds max s t)
    (calls : List (ListCall × Allocator (Node ℤ))) :
    Follows max fuel calls t s ↔ DeletesPresent max (calls.map Prod.fst) (datas t) := by
  induction calls generalizing s t with
  | nil => exact iff_of_true hs trivial
  | cons cm calls ih =>
      obtain ⟨c, m⟩ := cm
      rw [Follows, List.map_cons, DeletesPresent, and_iff_right hs]
      constructor
      · rintro ⟨a, s', -, hcall, hrest⟩
        -- any other `list_delete` would not return
        have hpresent : ∀ data, c = .delete data → data ∈ datas t := by
          rintro data rfl
          by_contra habsent
          rw [call_delete_absent hfuel m hs habsent] at hcall
          cases hcall
        have hnext := (ih hrest.holds).mp hrest
        rw [datas_nodesAfter] at hnext
        exact ⟨hpresent, hnext⟩
      · rintro ⟨hpresent, hrest⟩
        obtain ⟨a, s', hfresh, hcall, hs'⟩ := call_spec hfuel c m hs hpresent
        refine ⟨a, s', hfresh, hcall, (ih hs').mpr ?_⟩
        rw [datas_nodesAfter]
        exact hrest

/-- **When the calls do what they should**, on a list made by `list_init`. -/
theorem follows_iff (max : ℕ) (calls : List (ListCall × Allocator (Node ℤ)))
    (m : Allocator (Node ℤ)) (h : Heap (Node ℤ)) {fuel : ℕ} (hfuel : max < fuel) :
    Follows max fuel calls [] (listInit m h max) ↔ DeletesPresent max (calls.map Prod.fst) [] :=
  follows_iff_of_holds hfuel (listInit_holds m h max) calls

/-- A list for one value, and a value that is inserted and deleted. -/
theorem follows_iff_short :
    let m := firstFree (Node ℤ)
    let calls := [(.insert 5, m), (.delete 5, m)]
    Follows 1 2 calls [] (listInit m .empty 1) ↔ DeletesPresent 1 (calls.map Prod.fst) [] :=
  follows_iff 1 _ (firstFree (Node ℤ)) .empty Nat.one_lt_two

/-- `list_delete` on an empty list follows a null pointer. -/
theorem not_follows :
    ¬ (∀ (max : ℕ) (calls : List (ListCall × Allocator (Node ℤ))) (m : Allocator (Node ℤ))
      (h : Heap (Node ℤ)) (fuel : ℕ), max < fuel → Follows max fuel calls [] (listInit m h max)) ∧
    ∀ m : Allocator (Node ℤ), call 2 (.delete 0, m) (listInit m .empty 1) = .error .null := by
  have hnull : ∀ m : Allocator (Node ℤ), call 2 (.delete 0, m) (listInit m .empty 1) =
      .error .null :=
    fun m => call_delete_absent Nat.one_lt_two m (listInit_holds m .empty 1) List.not_mem_nil
  refine ⟨fun hevery => ?_, hnull⟩
  let m := firstFree (Node ℤ)
  obtain ⟨-, a, s', -, hcall, -⟩ := hevery 1 [(.delete 0, m)] m .empty 2 Nat.one_lt_two
  rw [hnull m] at hcall
  cases hcall

end SingleLinklist

end CodeSnippet
