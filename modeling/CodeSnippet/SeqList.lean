/-
CodeSnippet/SeqList.lean

The list of src/algorithm/list/seqlist: an array of `int` and the number of its
cells in use.  Every call does what it does on a list of at most `max` values,
and stays inside the array (`SeqList.refines`).

The calls are those of the linked list with the same interface; here
`list_insert` appends, and `list_search` answers with a number.
-/
import CodeSnippet.ArrayList
import CodeSnippet.SingleLinklist

namespace CodeSnippet

open Memory Calls

/-- `struct _list_t_` -/
structure SeqList where
  buf : Block ℤ
  max : ℕ
  top : ℕ

namespace SeqList

/-! ### Source -/

/-- `list_init`, when both allocations succeed. -/
def listInit (max : ℕ) : SeqList := ⟨⟨max, fun _ => 0⟩, max, 0⟩

def listInsert (list : SeqList) (data : ℤ) : Option (ℤ × SeqList) :=
  if list.top = list.max then some (-1, list)
  else do
    let buf ← list.buf.store list.top data
    some (0, { list with buf, top := list.top + 1 })

def listDelete (list : SeqList) (data : ℤ) : Option (ℤ × SeqList) := do
  match ← list.buf.indexLoop data list.top 0 with
  | some i =>
      let buf ← Block.shiftLoop (list.top - (i + 1)) (i + 1) list.buf
      some (0, { list with buf, top := list.top - 1 })
  | none => some (-1, list)

def listModify (list : SeqList) (old new : ℤ) : Option (ℤ × SeqList) := do
  match ← list.buf.indexLoop old list.top 0 with
  | some i =>
      let buf ← list.buf.store i new
      some (0, { list with buf })
  | none => some (-1, list)

def listSearch (list : SeqList) (data : ℤ) : Option ℤ := do
  match ← list.buf.indexLoop data list.top 0 with
  | some _ => some 1
  | none => some 0

def listForeach {σ : Type} (visit : ℤ → σ → σ) (list : SeqList) (s : σ) : Option (ℤ × σ) := do
  let s ← list.buf.visitLoop visit list.top 0 s
  some (0, s)

/-- One call. -/
def call : ListCall → SeqList → Option (ListAnswer × SeqList)
  | .insert data, list => do
      let (ret, list) ← listInsert list data
      some (.code ret, list)
  | .delete data, list => do
      let (ret, list) ← listDelete list data
      some (.code ret, list)
  | .modify old new, list => do
      let (ret, list) ← listModify list old new
      some (.code ret, list)
  | .search data, list => do
      let ret ← listSearch list data
      some (.code ret, list)
  | .foreach, list => do
      let (ret, seen) ← listForeach record list []
      some (.visited ret seen, list)

/-! ### The list of values -/

/-- The answer to a call on a list of at most `max` values. -/
def answer (max : ℕ) : ListCall → List ℤ → ListAnswer
  | .insert _, l => .code (if l.length < max then 0 else -1)
  | .delete data, l => .code (if data ∈ l then 0 else -1)
  | .modify old _, l => .code (if old ∈ l then 0 else -1)
  | .search data, l => .code (if data ∈ l then 1 else 0)
  | .foreach, l => .visited 0 l

/-- The values behind a call. -/
def valuesAfter (max : ℕ) : ListCall → List ℤ → List ℤ
  | .insert data, l => if l.length < max then l ++ [data] else l
  | .delete data, l => l.erase data
  | .modify old new, l => l.replace old new
  | .search _, l | .foreach, l => l

/-- The cells in use hold the list. -/
structure Holds (max : ℕ) (list : SeqList) (l : List ℤ) : Prop where
  max_eq : list.max = max
  size_eq : list.buf.size = max
  top_le : list.top ≤ max
  contents : list.buf.cells 0 list.top = l

/-- In every state the cells hold the list, and every call stays inside the
array and returns what it should. -/
def Refines (max : ℕ) : List ListCall → List ℤ → SeqList → Prop
  | [], l, list => Holds max list l
  | c :: cs, l, list => Holds max list l ∧ ∃ list', call c list = some (answer max c l, list') ∧
      Refines max cs (valuesAfter max c l) list'

/-! ### Calls -/

variable {max : ℕ} {list : SeqList} {l : List ℤ}

theorem Holds.length_eq (hs : Holds max list l) : l.length = list.top := by
  rw [← hs.contents, Block.cells_length]

/-- The loop over the cells in use finds the first one with the value. -/
theorem Holds.indexLoop_eq (hs : Holds max list l) (data : ℤ) :
    (data ∉ l ∧ list.buf.indexLoop data list.top 0 = some none) ∨
    ∃ pre post, l = pre ++ data :: post ∧ data ∉ pre ∧
      list.buf.indexLoop data list.top 0 = some (some pre.length) := by
  have hbound : 0 + list.top ≤ list.buf.size := by
    rw [Nat.zero_add, hs.size_eq]
    exact hs.top_le
  have hloop := Block.indexLoop_eq hbound data
  rw [hs.contents] at hloop
  rcases hloop with habsent | ⟨pre, post, hsplit, hmem, hloop⟩
  · exact .inl habsent
  · rw [Nat.zero_add] at hloop
    exact .inr ⟨pre, post, hsplit, hmem, hloop⟩

theorem listInit_holds (max : ℕ) : Holds max (listInit max) [] where
  max_eq := rfl
  size_eq := rfl
  top_le := Nat.zero_le max
  contents := rfl

theorem listInsert_eq (hs : Holds max list l) (data : ℤ) :
    ∃ list', listInsert list data = some (if l.length < max then 0 else -1, list') ∧
      Holds max list' (if l.length < max then l ++ [data] else l) := by
  have hlen := hs.length_eq
  have hle := hs.top_le
  have hmax := hs.max_eq
  rw [listInsert]
  by_cases hroom : l.length < max
  · rw [if_neg (by omega), if_pos hroom, if_pos hroom, Block.store_eq (by rw [hs.size_eq]; omega)]
    refine ⟨_, rfl, hmax, hs.size_eq, ?_, ?_⟩
    · show list.top + 1 ≤ max
      omega
    · show (list.buf.set list.top data).cells 0 (list.top + 1) = _
      rw [Block.cells_append, hs.contents]
  · rw [if_pos (by omega), if_neg hroom, if_neg hroom]
    exact ⟨list, rfl, hs⟩

theorem listDelete_eq (hs : Holds max list l) (data : ℤ) :
    ∃ list', listDelete list data = some (if data ∈ l then 0 else -1, list') ∧
      Holds max list' (l.erase data) := by
  have hle := hs.top_le
  have hsize := hs.size_eq
  have hcells := hs.contents
  rcases hs.indexLoop_eq data with ⟨habsent, hloop⟩ | ⟨pre, post, hsplit, hmem, hloop⟩
  · rw [listDelete, hloop, if_neg habsent, List.erase_of_not_mem habsent]
    exact ⟨list, rfl, hs⟩
  · have hpresent : data ∈ l := hsplit ▸ List.mem_append_right pre (List.mem_cons_self ..)
    obtain ⟨htop, -⟩ := Block.cells_split (hcells.trans hsplit)
    have hcount : list.top - (pre.length + 1) = post.length := by omega
    have hshift : Block.shiftLoop (list.top - (pre.length + 1)) (pre.length + 1) list.buf =
        some (list.buf.copyIn pre.length list.buf (pre.length + 1) post.length) := by
      rw [hcount]
      exact Block.shiftLoop_eq (by omega)
    rw [listDelete, hloop, if_pos hpresent]
    show ∃ list', (Block.shiftLoop _ _ _ >>= _) = _ ∧ _
    rw [hshift]
    refine ⟨_, rfl, hs.max_eq, hsize, ?_, ?_⟩
    · exact (Nat.sub_le ..).trans hle
    · exact (Block.cells_erase (hcells.trans hsplit) hmem).trans (congrArg (List.erase · data) hcells)

theorem listModify_eq (hs : Holds max list l) (old new : ℤ) :
    ∃ list', listModify list old new = some (if old ∈ l then 0 else -1, list') ∧
      Holds max list' (l.replace old new) := by
  have hcells := hs.contents
  rcases hs.indexLoop_eq old with ⟨habsent, hloop⟩ | ⟨pre, post, hsplit, hmem, hloop⟩
  · rw [listModify, hloop, if_neg habsent, List.replace_of_not_mem habsent]
    exact ⟨list, rfl, hs⟩
  · have hpresent : old ∈ l := hsplit ▸ List.mem_append_right pre (List.mem_cons_self ..)
    obtain ⟨htop, -⟩ := Block.cells_split (hcells.trans hsplit)
    have hbound : pre.length < list.buf.size := by
      have hle := hs.top_le
      rw [hs.size_eq]
      omega
    rw [listModify, hloop, if_pos hpresent]
    show ∃ list', (list.buf.store _ _ >>= _) = _ ∧ _
    rw [Block.store_eq hbound]
    refine ⟨_, rfl, hs.max_eq, hs.size_eq, hs.top_le, ?_⟩
    exact (Block.cells_replace (hcells.trans hsplit) hmem new).trans
      (congrArg (List.replace · old new) hcells)

theorem listSearch_eq (hs : Holds max list l) (data : ℤ) :
    listSearch list data = some (if data ∈ l then 1 else 0) := by
  rcases hs.indexLoop_eq data with ⟨habsent, hloop⟩ | ⟨pre, post, hsplit, -, hloop⟩
  · rw [listSearch, hloop, if_neg habsent]
    rfl
  · have hpresent : data ∈ l := hsplit ▸ List.mem_append_right pre (List.mem_cons_self ..)
    rw [listSearch, hloop, if_pos hpresent]
    rfl

/-- **The oldest value is visited first.** -/
theorem listForeach_eq {σ : Type} (visit : ℤ → σ → σ) (hs : Holds max list l) (s : σ) :
    listForeach visit list s = some (0, visitAll visit l s) := by
  have hbound : 0 + list.top ≤ list.buf.size := by
    rw [Nat.zero_add, hs.size_eq]
    exact hs.top_le
  rw [listForeach, Block.visitLoop_eq visit hbound, hs.contents]
  rfl

/-- **One call.** -/
theorem call_eq (hs : Holds max list l) (c : ListCall) :
    ∃ list', call c list = some (answer max c l, list') ∧
      Holds max list' (valuesAfter max c l) := by
  cases c with
  | insert data =>
      obtain ⟨list', hinsert, hholds⟩ := listInsert_eq hs data
      refine ⟨list', ?_, hholds⟩
      rw [call, hinsert]
      rfl
  | delete data =>
      obtain ⟨list', hdelete, hholds⟩ := listDelete_eq hs data
      refine ⟨list', ?_, hholds⟩
      rw [call, hdelete]
      rfl
  | modify old new =>
      obtain ⟨list', hmodify, hholds⟩ := listModify_eq hs old new
      refine ⟨list', ?_, hholds⟩
      rw [call, hmodify]
      rfl
  | search data =>
      refine ⟨list, ?_, hs⟩
      rw [call, listSearch_eq hs]
      rfl
  | foreach =>
      refine ⟨list, ?_, hs⟩
      rw [call, listForeach_eq record hs, visitAll_record]
      rfl

theorem refines_of_holds (hs : Holds max list l) (calls : List ListCall) :
    Refines max calls l list := by
  induction calls generalizing list l with
  | nil => exact hs
  | cons c calls ih =>
      obtain ⟨list', hcall, hholds⟩ := call_eq hs c
      exact ⟨hs, list', hcall, ih hholds⟩

/-- **Any calls**, on a list made by `list_init`. -/
theorem refines (max : ℕ) (calls : List ListCall) : Refines max calls [] (listInit max) :=
  refines_of_holds (listInit_holds max) calls

end SeqList

end CodeSnippet
