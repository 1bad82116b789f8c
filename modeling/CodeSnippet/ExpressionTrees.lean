/-
CodeSnippet/ExpressionTrees.lean

The evaluator of src/algorithm/tree/app/expressionOperation on any input.  A
node does not say which token it was made for: a number and an operator without
operands look alike.  `Grown` trees keep the token; the program builds them as a
machine on lists does, and forgets the tokens.

A NUL byte is taken for a number, because `getop` returns it and `NUMBER` is 0.

Main results:
  * `getop_items` — the token reader finds the next item.
  * `buildTrees_items` — the program is the machine on the items of its input.
-/
import CodeSnippet.ExpressionOperation
import CodeSnippet.TokenStream

namespace CodeSnippet

open Memory Postfix

namespace ExpressionOperation

/-! ### Trees with their tokens -/

/-- A `bitnode_t *` with the tokens that its nodes were made for. -/
inductive Grown
  | null
  | number (w : List UInt8)
  | nul
  | operator (c : UInt8) (left right : Grown)
  deriving DecidableEq

/-- The tree in memory. -/
def Grown.tree : Grown → Bitree
  | null => .null
  | number w => bitnodeAlloc (decimal w)
  | nul => bitnodeAlloc 0
  | operator c left right => .node (c.toNat : ℤ) left.tree right.tree

def isOperator (c : UInt8) : Bool :=
  c == chr '+' || c == chr '-' || c == chr '*' || c == chr '/' || c == chr '%'

/-- The stack, the newest tree first, and the trees in `root`. -/
structure Forest where
  stack : List Grown
  root : List Grown

def Forest.push (f : Forest) (t : Grown) : Forest := { f with stack := pushTo 64 f.stack t }

/-- One item.  The array `root` has room for 8 trees. -/
def Forest.step (f : Forest) : Item → Option Forest
  | .number w => some (f.push (.number w))
  | .char c =>
      if c = 0 then some (f.push .nul)
      else if isOperator c then
        some ⟨pushTo 64 f.stack.tail.tail
          (.operator c (f.stack.tail.headD .null) (f.stack.headD .null)), f.root⟩
      else if c = chr '\n' then
        if f.root.length < 8 then some ⟨f.stack.tail, f.root ++ [f.stack.headD .null]⟩ else none
      else some f

def Forest.run (f : Forest) (ts : List Item) : Option Forest := ts.foldlM Forest.step f

/-- The trees that are made for some items. -/
def grow (ts : List Item) : Option (List Grown) := (Forest.run ⟨[], []⟩ ts).map Forest.root

theorem Forest.run_cons (f : Forest) (t : Item) (ts : List Item) :
    f.run (t :: ts) = (f.step t).bind fun f => f.run ts := rfl

theorem Forest.run_append (f : Forest) (ts us : List Item) :
    f.run (ts ++ us) = (f.run ts).bind fun f => f.run us :=
  List.foldlM_append

/-! ### The token reader -/

theorem toNat_eq_code_iff {c : UInt8} {d : Char} (hd : code d = ((chr d).toNat : ℤ)) :
    (c.toNat : ℤ) = code d ↔ c = chr d := by
  rw [hd, Nat.cast_inj, UInt8.toNat_inj]

/-- **The token reader finds the next item**, and overruns `s` for a number of
more than 7 digits. -/
theorem getop_items {s : Block UInt8} (hs : s.size = 8) (inp : List UInt8) :
    match inp.dropWhile isblank with
    | [] => ∃ s', getop s inp = some (eof, s', [])
    | c :: cs =>
        if isdigit c then
          if (c :: cs.takeWhile isdigit).length ≤ 7 then
            ∃ s', getop s inp = some (0, s', cs.dropWhile isdigit) ∧ s'.size = 8 ∧
              cString s' = c :: cs.takeWhile isdigit
          else getop s inp = none
        else ∃ s', getop s inp = some ((c.toNat : ℤ), s', cs) ∧ s'.size = 8 ∧ s'.cell 0 = c ∧
          s'.cell 1 = 0 := by
  obtain ⟨s₁, hskip, hsize, hcell⟩ := skipBlanks_spec (show 0 < s.size by omega) inp
  rw [hs] at hsize
  rcases h : inp.dropWhile isblank with _ | ⟨c, cs⟩
  · rw [h] at hskip
    refine ⟨s₁.set 1 0, ?_⟩
    rw [getop, hskip]
    simp only [Option.bind_eq_bind, Option.bind_some]
    rw [if_neg (by decide), Block.store_eq (by omega)]
    rfl
  · rw [h] at hskip hcell
    have hc : s₁.cell 0 = c := hcell.trans (storedByte_toNat c)
    have hskip' : skipBlanks s inp = some (s₁, (c.toNat : ℤ), cs) := hskip
    simp only
    split
    · rename_i hdigit
      split
      · rename_i hlen
        obtain ⟨s', hrun, hsize', -, hstring⟩ := readRun_cString (show isdigit 0 = false from rfl)
          hsize (hc.symm ▸ hdigit) cs (by
            rw [hc]
            exact hlen)
        rw [List.length_cons] at hlen
        refine ⟨s'.set ((cs.takeWhile isdigit).length + 1) 0, ?_, hsize', hc ▸ hstring⟩
        rw [getop, hskip']
        simp only [Option.bind_eq_bind, Option.bind_some, storedByte_toNat]
        rw [if_pos hdigit, hrun, Option.bind_some]
        simp only
        rw [Block.store_eq (by omega), Option.bind_some, ungetc_eq]
        rfl
      · rename_i hlen
        rw [List.length_cons] at hlen
        rw [getop, hskip']
        simp only [Option.bind_eq_bind, Option.bind_some, storedByte_toNat]
        rw [if_pos hdigit, readRun_overrun cs (by omega) (by omega)]
        rfl
    · rename_i hdigit
      refine ⟨s₁.set 1 0, ?_, hsize, ?_, rfl⟩
      · rw [getop, hskip']
        simp only [Option.bind_eq_bind, Option.bind_some, storedByte_toNat]
        rw [if_neg hdigit, Block.store_eq (by omega)]
        rfl
      · rw [Block.set_cell, if_neg Nat.zero_ne_one, hc]

/-! ### The program -/

/-- The program has this forest in its memory. -/
structure State.Shows (st : State) (f : Forest) : Prop where
  stack : st.stack.contents = f.stack.map Grown.tree
  max : st.stack.max = 64
  root : st.root = f.root.map Grown.tree

theorem State.Shows.push {st : State} {f : Forest} (h : st.Shows f) (t : Grown) :
    State.Shows { st with stack := push st.stack t.tree } (f.push t) := by
  obtain ⟨hcontents, hmax⟩ := push_contents st.stack t.tree
  refine ⟨?_, hmax.trans h.max, h.root⟩
  rw [hcontents, h.stack, h.max, Forest.push, pushTo, pushTo, List.length_map]
  split
  · rfl
  · rfl

/-- Popping takes the newest tree. -/
theorem State.Shows.pop {st : State} {f : Forest} (h : st.Shows f) :
    (pop st.stack).1 = (f.stack.headD .null).tree ∧
      State.Shows { st with stack := (pop st.stack).2 } { f with stack := f.stack.tail } := by
  obtain ⟨hhead, htail, hmax⟩ := pop_contents st.stack
  rw [h.stack] at hhead htail
  refine ⟨?_, ⟨?_, hmax.trans h.max, h.root⟩⟩
  · rw [hhead]
    cases f.stack with
    | nil => rfl
    | cons t l => rfl
  · rw [htail, List.map_tail]

/-- `getop` has returned `ch` for this item. -/
def IsRead (ch : ℤ) (s : Block UInt8) : Item → Prop
  | .number w => ch = 0 ∧ cString s = w ∧ w ≠ [] ∧ ∀ c ∈ w, isdigit c = true
  | .char c => ch = (c.toNat : ℤ) ∧ s.size = 8 ∧ s.cell 0 = c

theorem cString_of_nul {s : Block UInt8} (hs : s.size = 8) (h : s.cell 0 = 0) : cString s = [] := by
  rw [cString, hs, show 8 = 1 + 7 from rfl, Block.cells_add, Block.cells_succ, Block.cells_zero,
    Nat.add_zero, h]
  rfl

theorem isOperator_iff {c : UInt8} :
    isOperator c = true ↔ (c.toNat : ℤ) = code '+' ∨ (c.toNat : ℤ) = code '-' ∨
      (c.toNat : ℤ) = code '*' ∨ (c.toNat : ℤ) = code '/' ∨ (c.toNat : ℤ) = code '%' := by
  rw [toNat_eq_code_iff rfl, toNat_eq_code_iff rfl, toNat_eq_code_iff rfl, toNat_eq_code_iff rfl,
    toNat_eq_code_iff rfl]
  simp only [isOperator, Bool.or_eq_true, beq_iff_eq, or_assoc]

/-- **One item in the program.** -/
theorem operate_item {st : State} {f : Forest} (h : st.Shows f) {t : Item} {ch : ℤ}
    {s : Block UInt8} (hread : IsRead ch s t) :
    match f.step t with
    | some f' => ∃ st', operate ch s st = some st' ∧ st'.Shows f'
    | none => operate ch s st = none := by
  cases t with
  | number w =>
      obtain ⟨rfl, hstring, hne, hw⟩ := hread
      refine ⟨_, if_pos rfl, ?_⟩
      rw [hstring, atoi_digits hne hw]
      exact h.push (.number w)
  | char c =>
      obtain ⟨rfl, hsize, hcell⟩ := hread
      rw [Forest.step, operate]
      by_cases hnul : c = 0
      · subst hnul
        rw [if_pos rfl]
        refine ⟨_, if_pos rfl, ?_⟩
        rw [cString_of_nul hsize hcell]
        exact h.push .nul
      · have hzero : (c.toNat : ℤ) ≠ 0 := by
          rw [Nat.cast_ne_zero]
          exact fun e => hnul (UInt8.toNat_inj.mp e)
        rw [if_neg hnul, if_neg hzero]
        by_cases hop : isOperator c = true
        · obtain ⟨hright, hst₁⟩ := h.pop
          obtain ⟨hleft, hst₂⟩ := hst₁.pop
          have hshows := hst₂.push (.operator c (f.stack.tail.headD .null) (f.stack.headD .null))
          rw [Grown.tree, ← hleft, ← hright] at hshows
          rw [if_pos hop, if_pos (isOperator_iff.mp hop)]
          exact ⟨_, rfl, hshows⟩
        · rw [if_neg hop, if_neg (isOperator_iff.not.mp hop)]
          by_cases hnl : c = chr '\n'
          · obtain ⟨hroot, hst⟩ := h.pop
            have hlen : st.root.length = f.root.length := by rw [h.root, List.length_map]
            rw [if_pos hnl, if_pos ((toNat_eq_code_iff rfl).mpr hnl)]
            simp only [hlen]
            by_cases hroom : f.root.length < 8
            · rw [if_pos hroom, if_pos hroom]
              refine ⟨_, rfl, hst.stack, hst.max, ?_⟩
              show st.root ++ [(ExpressionOperation.pop st.stack).1] = _
              rw [hroot, h.root, List.map_append]
              rfl
            · rw [if_neg hroom, if_neg hroom]
          · rw [if_neg hnl, if_neg ((toNat_eq_code_iff rfl).not.mpr hnl)]
            exact ⟨st, rfl, h⟩

theorem mainLoop_items {fuel : ℕ} {inp : List UInt8} (hfuel : inp.length < fuel) {s : Block UInt8}
    (hs : s.size = 8) {st : State} {f : Forest} (h : st.Shows f) :
    mainLoop fuel s st inp =
      if ∀ t ∈ items inp, t.Fits then
        (f.run (items inp)).map fun f => f.root.map Grown.tree
      else none := by
  induction fuel generalizing inp s st f with
  | zero => exact absurd hfuel (Nat.not_lt_zero _)
  | succ fuel ih =>
      have hget := getop_items hs inp
      rcases hinp : inp.dropWhile isblank with _ | ⟨c, cs⟩
      · rw [hinp] at hget
        obtain ⟨s', hget⟩ := hget
        have hitems : items inp = [] := by
          rw [← items_dropWhile, hinp]
          rfl
        rw [mainLoop, hget, hitems, if_pos fun t ht => absurd ht List.not_mem_nil]
        simp only [Option.bind_eq_bind, Option.bind_some]
        rw [if_pos trivial, h.root]
        rfl
      · have hle : (c :: cs).length ≤ inp.length := by
          rw [← hinp]
          exact List.length_dropWhile_le ..
        rw [List.length_cons] at hle
        have hitem : ∀ {t : Item} {rest : List UInt8} {ch : ℤ} {s' : Block UInt8},
            getop s inp = some (ch, s', rest) → IsRead ch s' t → ch ≠ eof → s'.size = 8 →
            rest.length < fuel → t.Fits →
            mainLoop (fuel + 1) s st inp =
              if ∀ t' ∈ t :: items rest, t'.Fits then
                (f.run (t :: items rest)).map fun f => f.root.map Grown.tree
              else none := by
          intro t rest ch s' hget hread heof hs' hrest hfits
          have hoperate := operate_item h hread
          rw [mainLoop, hget, if_congr (Item.forall_fits_cons hfits _) rfl rfl, Forest.run_cons]
          simp only [Option.bind_eq_bind, Option.bind_some]
          rw [if_neg heof]
          rcases hstep : f.step t with _ | f'
          · rw [hstep] at hoperate
            have hnone : operate ch s' st = none := hoperate
            rw [hnone, Option.bind_none, Option.bind_none, Option.map_none, ite_self]
          · rw [hstep] at hoperate
            obtain ⟨st', hst', hshows⟩ := hoperate
            rw [hst', Option.bind_some, Option.bind_some, ih hrest hs' hshows]
        have hnonneg : (c.toNat : ℤ) ≠ eof := by
          have hnat := Int.natCast_nonneg c.toNat
          rw [eof]
          omega
        have hdrop : (cs.dropWhile isdigit).length ≤ cs.length := List.length_dropWhile_le ..
        rw [hinp] at hget
        rw [items_eq hinp]
        simp only at hget
        split at hget
        · rename_i hdigit
          rw [if_pos hdigit]
          split at hget
          · rename_i hlen
            obtain ⟨s', hget, hs', hstring⟩ := hget
            exact hitem hget ⟨rfl, hstring, List.cons_ne_nil _ _, List.forall_mem_cons.mpr
              ⟨hdigit, fun d => List.mem_takeWhile_imp⟩⟩ (by decide) hs' (by omega) hlen
          · rename_i hlen
            rw [mainLoop, hget, if_neg fun hfits => hlen (hfits _ (List.mem_cons_self ..))]
            rfl
        · rename_i hdigit
          obtain ⟨s', hget, hs', hcell, -⟩ := hget
          rw [if_neg hdigit]
          exact hitem hget ⟨rfl, hs', hcell⟩ hnonneg hs' (by omega) trivial

/-- **The program is the machine on the items of its input**, if all of them fit
into `s`. -/
theorem buildTrees_items (inp : List UInt8) :
    buildTrees inp =
      if ∀ t ∈ items inp, t.Fits then (grow (items inp)).map fun root => root.map Grown.tree
      else none := by
  rw [buildTrees, mainLoop_items (Nat.lt_succ_self _) rfl (f := ⟨[], []⟩) ⟨rfl, rfl, rfl⟩, grow,
    Option.map_map]
  rfl

end ExpressionOperation

end CodeSnippet
