/-
CodeSnippet/ExpressionRoundTrip.lean

When the texts that the evaluator of src/algorithm/tree/app/expressionOperation
prints for a postfix line denote the tree it has built.  There are three ways to
fail: the stack is too small for the expression, a number is printed as an
operator, or two numbers are printed as one.

Main results:
  * `buildTrees_line` — with room on the stack the tree of the expression is
    built; `not_complete_of_deep` — without, an incomplete one.
  * `denotesTree_iff` — the exact condition.
-/
import CodeSnippet.ExpressionRoots
import CodeSnippet.ExpressionText

namespace CodeSnippet

open Memory Postfix

namespace ExpressionOperation

/-! ### Building -/

/-- The stack of the program, with the tokens of its trees. -/
def growing : Machine (List UInt8) Operator Grown where
  cap := 64
  num w := .number w
  op o left right := some (.operator o.val left right)
  miss _ := .null

theorem growing_eval (e : Expression) : growing.eval e = some (grown e) := by
  induction e with
  | num w => rfl
  | bin o l r ihl ihr =>
      rw [Machine.eval, ihl, ihr]
      rfl

theorem ne_zero_operator (o : Operator) : o.val ≠ 0 := by
  intro h
  have hop := o.property
  rw [h] at hop
  exact absurd hop (by decide)

theorem Forest.step_operator (f : Forest) (o : Operator) :
    f.step (opItem o) = some ⟨pushTo 64 f.stack.tail.tail
      (.operator o.val (f.stack.tail.headD .null) (f.stack.headD .null)), f.root⟩ := by
  rw [opItem, Forest.step, if_neg (ne_zero_operator o), if_pos o.property]

/-- **On tokens the forest is the machine.** -/
theorem Forest.run_tokens (f : Forest) (a b : Grown) (ts : List (Token (List UInt8) Operator)) :
    f.run (ts.map tokenItem) = (growing.run ⟨f.stack, a, b⟩ ts).map fun st => ⟨st.stack, f.root⟩ := by
  induction ts generalizing f a b with
  | nil => rfl
  | cons t ts ih =>
      rw [List.map_cons, Forest.run_cons, Machine.run_cons]
      cases t with
      | num w => exact ih (f.push (.number w)) a b
      | op o =>
          show ((f.step (opItem o)).bind _) = _
          rw [Forest.step_operator]
          exact ih ⟨_, f.root⟩ (f.stack.tail.headD .null) (f.stack.headD .null)

/-- With room on the stack the tree of the expression is pushed. -/
theorem Forest.run_expression {e : Expression} {f : Forest} (h : f.stack.length + e.depth ≤ 64) :
    f.run (e.tokens.map tokenItem) = some ⟨grown e :: f.stack, f.root⟩ := by
  obtain ⟨a, b, hrun⟩ := Machine.run_tokens (growing_eval e) ⟨f.stack, .null, .null⟩ h
  rw [Forest.run_tokens f .null .null, hrun]
  rfl

/-- A line that spells the tokens of an expression over numbers. -/
structure PostfixLine (e : Expression) (text : List UInt8) : Prop where
  items : CodeSnippet.items text = e.tokens.map tokenItem ++ [.char (chr '\n')]
  numbers : ∀ w, .num w ∈ e.tokens → IsNumber w

theorem PostfixLine.fits {e : Expression} {text : List UInt8} (h : PostfixLine e text) :
    ∀ t ∈ CodeSnippet.items text, t.Fits := by
  intro t ht
  rw [h.items] at ht
  rcases List.mem_append.mp ht with ht | ht
  · obtain ⟨tok, htok, rfl⟩ := List.mem_map.mp ht
    cases tok with
    | num w => exact (h.numbers w htok).2.1
    | op o => trivial
  · rw [List.mem_singleton.mp ht]
    trivial

theorem PostfixLine.grow {e : Expression} {text : List UInt8} (h : PostfixLine e text) :
    buildTrees text =
      (ExpressionOperation.grow (CodeSnippet.items text)).map fun root => root.map Grown.tree := by
  rw [buildTrees_items, if_pos h.fits]

/-- **With room on the stack the program builds the tree of the expression.** -/
theorem buildTrees_line {e : Expression} {text : List UInt8} (h : PostfixLine e text)
    (hdepth : e.depth ≤ 64) : buildTrees text = some [(grown e).tree] := by
  have hrun : Forest.run ⟨[], []⟩ (CodeSnippet.items text) = some ⟨[], [grown e]⟩ := by
    rw [h.items, Forest.run_append, Forest.run_expression (by
      rw [List.length_nil]
      omega)]
    rfl
  rw [h.grow, ExpressionOperation.grow, hrun]
  rfl

/-! ### Expressions that are too deep -/

/-- What an expression does to the stack: it adds one tree, and no complete one
if its operands do not fit. -/
theorem covered_expression (e : Expression) {h u : ℕ} (hu : u ≤ h) (hh : h ≤ 64) :
    ∃ h' u', u' ≤ h' ∧ h' ≤ 64 ∧ h' + u ≤ h + u' + 1 ∧
      (∀ n rest, Covered h u n (e.tokens.map tokenItem ++ rest) ↔ Covered h' u' n rest) ∧
      (h + e.depth ≤ 64 → h' = h + 1) ∧ (64 < h + e.depth → h' + u ≤ h + u') := by
  induction e generalizing h u with
  | num w =>
      refine ⟨min (h + 1) 64, u, by omega, by omega, by omega, fun n rest => Iff.rfl, ?_, ?_⟩
      · intro hroom
        rw [Tree.depth] at hroom
        omega
      · intro hover
        rw [Tree.depth] at hover
        omega
  | bin o l r ihl ihr =>
      obtain ⟨h₁, u₁, hu₁, hh₁, hle₁, hcov₁, hroom₁, hover₁⟩ := ihl hu hh
      obtain ⟨h₂, u₂, hu₂, hh₂, hle₂, hcov₂, hroom₂, hover₂⟩ := ihr hu₁ hh₁
      have hdepth := l.depth_pos
      refine ⟨h₂ - 2 + 1, if h₂ < 2 then 1 else min u₂ (h₂ - 1), ?_, by omega, ?_, ?_, ?_, ?_⟩
      · split
        · omega
        · omega
      · split
        · omega
        · omega
      · intro n rest
        have hop : Covered h₂ u₂ n (opItem o :: rest) ↔
            Covered (h₂ - 2 + 1) (if h₂ < 2 then 1 else min u₂ (h₂ - 1)) n rest := by
          rw [opItem, Covered, if_neg (ne_zero_operator o), if_pos o.property]
        rw [Tree.tokens, List.map_append, List.append_assoc, hcov₁, List.map_append,
          List.append_assoc, hcov₂]
        exact hop
      · intro hroom
        rw [Tree.depth] at hroom
        have e₁ := hroom₁ (by omega)
        have e₂ := hroom₂ (by omega)
        omega
      · intro hover
        rw [Tree.depth] at hover
        by_cases hl : 64 < h + l.depth
        · have hover₁ := hover₁ hl
          split
          · omega
          · omega
        · have e₁ := hroom₁ (by omega)
          have hover₂ := hover₂ (by omega)
          split
          · omega
          · omega

/-- **An expression that is too deep leaves an incomplete tree.** -/
theorem not_complete_of_deep {e : Expression} {text : List UInt8} (h : PostfixLine e text)
    (hdepth : 64 < e.depth) {t : Grown} (ht : grow (items text) = some [t]) :
    ¬ t.Complete (items text) := by
  intro hcomplete
  obtain ⟨f', hrun, hroot⟩ := Option.map_eq_some_iff.mp ht
  have hall : ∀ t' ∈ f'.root, t'.Complete (items text) := by
    intro t' ht'
    rw [hroot] at ht'
    rw [List.mem_singleton.mp ht']
    exact hcomplete
  have hcovered := (run_complete_iff (List.Subset.refl (items text)) (f := ⟨[], []⟩)
    (Nat.zero_le _) fun t ht => absurd ht List.not_mem_nil).mp ⟨f', hrun, hall⟩
  obtain ⟨h', u', -, -, -, hcov, -, hover⟩ := covered_expression e (Nat.zero_le 0) (Nat.zero_le 64)
  rw [h.items] at hcovered
  have hnewline := ((hcov 0 [.char (chr '\n')]).mp hcovered).1.1
  have hover := hover (by omega)
  omega

/-- A tree in which every operator has a right operand. -/
def Grown.HasRight (ts : List Item) : Grown → Prop
  | null => True
  | number w => .number w ∈ ts
  | nul => False
  | operator _ left right => (left.HasRight ts ∧ right.HasRight ts) ∧ right ≠ null

theorem Grown.isNull_of_ne {t : Grown} (h : t ≠ .null) : t.tree.isNull = false := by
  cases t with
  | null => exact absurd rfl h
  | number w | nul | operator c l r => rfl

/-- If it is not complete, a null pointer is followed. -/
theorem Grown.HasRight.visits {ts : List Item} {t : Grown} (h : t.HasRight ts)
    (hnot : ¬ t.Complete ts) : Visits t.tree .null := by
  induction t with
  | null => exact .here _
  | number w => exact absurd h hnot
  | nul => exact h.elim
  | operator c l r ihl ihr =>
      obtain ⟨⟨hl, hr⟩, hne⟩ := h
      have hnode : (l.tree.isNull && r.tree.isNull) = false := by
        rw [Grown.isNull_of_ne hne, Bool.and_false]
      by_cases hcl : l.Complete ts
      · by_cases hcr : r.Complete ts
        · exact absurd (Grown.complete_operator.mpr ⟨hcl, hcr⟩) hnot
        · exact .right hnode (ihr hr hcr)
      · exact .left hnode (ihl hl hcl)

/-- Every operator of a line finds a right operand, since a number comes
first. -/
theorem Forest.run_hasRight {ts : List Item} {toks : List (Token (List UInt8) Operator)}
    (hsub : toks.map tokenItem ⊆ ts) {f f' : Forest} (hne : f.stack ≠ [])
    (hf : ∀ t ∈ f.stack, t.HasRight ts ∧ t ≠ .null)
    (hrun : f.run (toks.map tokenItem) = some f') :
    f'.root = f.root ∧ f'.stack ≠ [] ∧ ∀ t ∈ f'.stack, t.HasRight ts ∧ t ≠ .null := by
  induction toks generalizing f with
  | nil =>
      obtain rfl := Option.some.inj hrun
      exact ⟨rfl, hne, hf⟩
  | cons tok toks ih =>
      rw [List.map_cons, List.cons_subset] at hsub
      rw [List.map_cons, Forest.run_cons] at hrun
      have hpush : ∀ (l : List Grown) (t : Grown), (∀ t' ∈ l, t'.HasRight ts ∧ t' ≠ .null) →
          t.HasRight ts ∧ t ≠ .null → pushTo 64 l t ≠ [] ∧
            ∀ t' ∈ pushTo 64 l t, t'.HasRight ts ∧ t' ≠ .null := by
        intro l t hl ht
        unfold pushTo
        split
        · exact ⟨List.cons_ne_nil _ _, List.forall_mem_cons.mpr ⟨ht, hl⟩⟩
        · rename_i hfull
          refine ⟨?_, hl⟩
          rintro rfl
          exact hfull (by decide)
      cases tok with
      | num w =>
          obtain ⟨hnonempty, hall⟩ := hpush f.stack (.number w) hf ⟨hsub.1, nofun⟩
          exact ih hsub.2 (f := f.push (.number w)) hnonempty hall hrun
      | op o =>
          have hrun : ((f.step (opItem o)).bind fun f => f.run (toks.map tokenItem)) = some f' := hrun
          rw [Forest.step_operator] at hrun
          obtain ⟨right, l, hl⟩ := List.exists_cons_of_ne_nil hne
          rw [hl] at hf hrun
          obtain ⟨hright, hrest⟩ := List.forall_mem_cons.mp hf
          have hleft : (l.headD .null).HasRight ts := by
            cases l with
            | nil => trivial
            | cons left l => exact (hrest left (List.mem_cons_self ..)).1
          obtain ⟨hnonempty, hall⟩ := hpush l.tail (.operator o.val (l.headD .null) right)
            (fun t ht => hrest t (List.mem_of_mem_tail ht)) ⟨⟨⟨hleft, hright.1⟩, hright.2⟩, nofun⟩
          exact ih hsub.2 (f := ⟨pushTo 64 l.tail _, f.root⟩) hnonempty hall hrun

theorem exists_tokens_eq (e : Expression) : ∃ w toks, e.tokens = .num w :: toks := by
  induction e with
  | num w => exact ⟨w, [], rfl⟩
  | bin o l r ihl _ =>
      obtain ⟨w, toks, hl⟩ := ihl
      rw [Tree.tokens, hl]
      exact ⟨w, _, rfl⟩

/-- **Printing the tree of an expression that is too deep follows a null
pointer.** -/
theorem inorderFn_of_deep {e : Expression} {text : List UInt8} (h : PostfixLine e text)
    (hdepth : 64 < e.depth) {tree : Bitree} (htree : buildTrees text = some [tree]) :
    inorderFn tree = none := by
  rw [h.grow] at htree
  obtain ⟨root, hgrow, hroot⟩ := Option.map_eq_some_iff.mp htree
  obtain ⟨t, rfl, rfl⟩ := List.map_eq_singleton_iff.mp hroot
  have hnot := not_complete_of_deep h hdepth hgrow
  obtain ⟨f', hrun, hf'⟩ := Option.map_eq_some_iff.mp hgrow
  obtain ⟨w, toks, htoks⟩ := exists_tokens_eq e
  have hitems : items text = .number w :: (toks.map tokenItem ++ [.char (chr '\n')]) := by
    rw [h.items, htoks]
    rfl
  have hsub : toks.map tokenItem ⊆ items text := by
    rw [hitems]
    exact List.Subset.trans (List.subset_append_left ..) (List.subset_cons_self ..)
  rw [hitems] at hrun
  have hrun : (Forest.run ⟨[.number w], []⟩ (toks.map tokenItem ++ [.char (chr '\n')])) = some f' :=
    hrun
  rw [Forest.run_append] at hrun
  obtain ⟨f, htokens, hnewline⟩ := Option.bind_eq_some_iff.mp hrun
  obtain ⟨hroot, hne, hall⟩ := Forest.run_hasRight hsub (f := ⟨[.number w], []⟩)
    (List.cons_ne_nil _ _) (by
      intro t ht
      rw [List.mem_singleton.mp ht]
      exact ⟨show Item.number w ∈ items text from hitems ▸ List.mem_cons_self .., nofun⟩) htokens
  obtain ⟨t', l, hl⟩ := List.exists_cons_of_ne_nil hne
  obtain ⟨stack, root⟩ := f
  subst hroot hl
  obtain rfl : ⟨l, [t']⟩ = f' := Option.some.inj hnewline
  obtain rfl : t' = t := (List.cons.inj hf').1
  exact inorderFn_eq_none_iff.mpr ((hall t' (List.mem_cons_self ..)).1.visits hnot)

/-! ### Reading the infix text -/

/-- The readings of some items as fully parenthesised infix. -/
def Reads (ts : List Item) (tree : Bitree) : Prop :=
  ∃ e : Expression, infixItems (e.map Item.number opItem) = ts ∧ (grown e).tree = tree

theorem opItem_injective : Function.Injective opItem := fun _ _ h => Subtype.ext (Item.char.inj h)

/-- No operand is a bracket. -/
theorem bracket_notMem_number (e : Expression) :
    .num (.char (chr '(')) ∉ (e.map Item.number opItem).tokens := by
  rw [Tree.num_mem_map]
  rintro ⟨w, -, hw⟩
  cases hw

theorem bracket_notMem_printed (e : Expression) : .num (.char (chr '(')) ∉ (printed e).tokens := by
  rw [printed, Tree.num_mem_map]
  rintro ⟨w, -, hw⟩
  obtain ⟨n, hn⟩ := exists_decimal w
  rw [hn] at hw
  by_cases h : IsCode n
  · obtain ⟨⟨c, hc⟩, ho⟩ := exists_operator h
    rw [ho, printedItem_operator] at hw
    obtain rfl : c = chr '(' := Item.char.inj hw
    exact absurd hc (by decide)
  · rw [printedItem_numeral h] at hw
    cases hw

/-- The infix text is read as the expressions whose items are those of the
nodes. -/
theorem reads_printed_iff {e : Expression} {tree : Bitree} :
    Reads (infixItems (printed e)) tree ↔
      ∃ e' : Expression, e'.map Item.number opItem = printed e ∧ (grown e').tree = tree := by
  constructor
  · rintro ⟨e', h, htree⟩
    exact ⟨e', Tree.brackets_injective (bracket_notMem_number e') (bracket_notMem_printed e) h, htree⟩
  · rintro ⟨e', h, htree⟩
    exact ⟨e', congrArg infixItems h, htree⟩

/-- The expression with the digits that are printed. -/
def reprinted (e : Expression) : Expression := e.map canonical id

theorem decimal_canonical (w : List UInt8) : decimal (canonical w) = decimal w := by
  obtain ⟨n, hn⟩ := exists_decimal w
  rw [canonical, hn, bytes_toString, decimal_numeral]

/-- It has the same tree. -/
theorem grown_reprinted (e : Expression) : (grown (reprinted e)).tree = (grown e).tree := by
  induction e with
  | num w => exact congrArg bitnodeAlloc (decimal_canonical w)
  | bin o l r ihl ihr =>
      show Bitree.node _ (grown (reprinted l)).tree (grown (reprinted r)).tree = _
      rw [ihl, ihr]
      rfl

/-- If numbers are printed as numbers, they are those of this expression. -/
theorem printed_eq {e : Expression} (h : Plain e.tokens) :
    printed e = (reprinted e).map Item.number opItem := by
  induction e with
  | num w =>
      obtain ⟨n, hn⟩ := exists_decimal w
      have hcode := h w (List.mem_singleton_self _)
      rw [hn] at hcode
      show Tree.num (printedItem (decimal w)) = Tree.num (Item.number (canonical w))
      rw [hn, printedItem_numeral hcode, canonical, hn, bytes_toString]
  | bin o l r ihl ihr =>
      show Tree.bin (opItem o) (printed l) (printed r) = _
      rw [ihl fun w hw => h w (Tree.num_mem_bin.mpr (.inl hw)),
        ihr fun w hw => h w (Tree.num_mem_bin.mpr (.inr hw))]
      rfl

/-- **The infix text is read as the tree, and only so**, if numbers are printed
as numbers; otherwise there is no reading. -/
theorem reads_iff (e : Expression) :
    (∀ tree, Reads (infixItems (printed e)) tree ↔ tree = (grown e).tree) ↔ Plain e.tokens := by
  constructor
  · intro h w hw hcode
    obtain ⟨e', he', -⟩ := reads_printed_iff.mp ((h _).mpr rfl)
    obtain ⟨n, hn⟩ := exists_decimal w
    have hmem : .num (printedItem (decimal w)) ∈ (printed e).tokens := Tree.num_mem_map.mpr ⟨w, hw, rfl⟩
    rw [← he', Tree.num_mem_map] at hmem
    obtain ⟨w', -, hw'⟩ := hmem
    rw [hn] at hcode
    obtain ⟨o, ho⟩ := exists_operator hcode
    rw [hn, ho, printedItem_operator] at hw'
    cases hw'
  · intro h tree
    rw [reads_printed_iff, printed_eq h]
    constructor
    · rintro ⟨e', he', rfl⟩
      rw [Tree.map_injective (fun _ _ => Item.number.inj) opItem_injective he', grown_reprinted]
    · rintro rfl
      exact ⟨_, rfl, grown_reprinted e⟩

/-! ### Reading the postfix text -/

/-- How many nodes there are. -/
def Bitree.size : Bitree → ℕ
  | null => 0
  | node _ l r => l.size + r.size + 1

theorem size_grown (e : Expression) : (grown e).tree.size = e.tokens.length := by
  induction e with
  | num w => rfl
  | bin o l r ihl ihr =>
      rw [grown, Grown.tree, Bitree.size, ihl, ihr, Tree.tokens, List.length_append,
        List.length_append, List.length_singleton, Nat.add_assoc]

/-- The nodes of all trees in the memory of the program. -/
def Forest.size (f : Forest) : ℕ :=
  (f.stack.map fun t => t.tree.size).sum + (f.root.map fun t => t.tree.size).sum

theorem sum_headD_tail (l : List Grown) :
    (l.headD .null).tree.size + (l.tail.map fun t => t.tree.size).sum =
      (l.map fun t => t.tree.size).sum := by
  cases l with
  | nil => rfl
  | cons t l => rw [List.map_cons, List.sum_cons, List.headD_cons, List.tail_cons]

/-- **An item makes at most one node**, and a newline none. -/
theorem Forest.step_size {f f' : Forest} {t : Item} (h : f.step t = some f') :
    f'.size ≤ f.size + 1 ∧ (t = .char (chr '\n') → f'.size ≤ f.size) := by
  have hpush : ∀ (l : List Grown) (t : Grown), ((pushTo 64 l t).map fun t => t.tree.size).sum ≤
      t.tree.size + (l.map fun t => t.tree.size).sum := by
    intro l t
    unfold pushTo
    split
    · rw [List.map_cons, List.sum_cons]
    · exact Nat.le_add_left ..
  cases t with
  | number w =>
      obtain rfl := Option.some.inj h
      have hle := hpush f.stack (.number w)
      have hone : (Grown.number w).tree.size = 1 := rfl
      refine ⟨?_, nofun⟩
      simp only [Forest.size, Forest.push]
      omega
  | char c =>
      rw [Forest.step] at h
      split at h
      · rename_i hnul
        obtain rfl := Option.some.inj h
        have hle := hpush f.stack .nul
        have hone : Grown.nul.tree.size = 1 := rfl
        subst hnul
        refine ⟨?_, fun hc => absurd (Item.char.inj hc) (by decide)⟩
        simp only [Forest.size, Forest.push]
        omega
      · split at h
        · rename_i hop
          obtain rfl := Option.some.inj h
          have hle := hpush f.stack.tail.tail
            (.operator c (f.stack.tail.headD .null) (f.stack.headD .null))
          have hnode : (Grown.operator c (f.stack.tail.headD .null) (f.stack.headD .null)).tree.size =
              (f.stack.tail.headD .null).tree.size + (f.stack.headD .null).tree.size + 1 := rfl
          have hright := sum_headD_tail f.stack
          have hleft := sum_headD_tail f.stack.tail
          refine ⟨?_, ?_⟩
          · simp only [Forest.size]
            omega
          · intro hc
            rw [Item.char.inj hc] at hop
            exact absurd hop (by decide)
        · split at h
          · split at h
            · obtain rfl := Option.some.inj h
              have hhead := sum_headD_tail f.stack
              have hle : (f.stack.tail.map fun t => t.tree.size).sum +
                  ((f.root ++ [f.stack.headD .null]).map fun t => t.tree.size).sum ≤ f.size := by
                rw [List.map_append, List.sum_append, List.map_singleton, List.sum_singleton,
                  Forest.size]
                omega
              exact ⟨hle.trans (Nat.le_succ _), fun _ => hle⟩
            · cases h
          · obtain rfl := Option.some.inj h
            exact ⟨Nat.le_succ _, fun _ => le_rfl⟩

theorem Forest.run_size {f f' : Forest} {ts : List Item} (h : f.run ts = some f') :
    f'.size ≤ f.size + ts.length := by
  induction ts generalizing f with
  | nil =>
      obtain rfl := Option.some.inj h
      exact le_rfl
  | cons t ts ih =>
      rw [Forest.run_cons] at h
      obtain ⟨f₁, hstep, hrun⟩ := Option.bind_eq_some_iff.mp h
      have hle := ih hrun
      have hstep := (Forest.step_size hstep).1
      rw [List.length_cons]
      omega

theorem cutsNumber_newline (l : List UInt8) : cutsNumber l [chr '\n'] = false := Bool.and_false _

/-- A tree that is built from a text has at most as many nodes as the text has
items, without the newline. -/
theorem size_le_of_buildTrees {text : List UInt8} {tree : Bitree}
    (h : buildTrees (text ++ [chr '\n']) = some [tree]) : tree.size ≤ (items text).length := by
  have hitems : items (text ++ [chr '\n']) = items text ++ [.char (chr '\n')] :=
    items_append (cutsNumber_newline text)
  rw [buildTrees_items, hitems] at h
  split at h
  · obtain ⟨root, hgrow, hroot⟩ := Option.map_eq_some_iff.mp h
    obtain ⟨f', hrun, rfl⟩ := Option.map_eq_some_iff.mp hgrow
    obtain ⟨t, ht, rfl⟩ := List.map_eq_singleton_iff.mp hroot
    rw [Forest.run_append] at hrun
    obtain ⟨f, hitems, hnewline⟩ := Option.bind_eq_some_iff.mp hrun
    rw [Forest.run_cons] at hnewline
    obtain ⟨f₁, hstep, hend⟩ := Option.bind_eq_some_iff.mp hnewline
    obtain rfl := Option.some.inj hend
    have hsize := Forest.run_size hitems
    have hnewline := (Forest.step_size hstep).2 rfl
    have hempty : Forest.size ⟨[], []⟩ = 0 := rfl
    have hroot : t.tree.size ≤ f₁.size := by
      rw [Forest.size, ht, List.map_singleton, List.sum_singleton]
      exact Nat.le_add_left ..
    omega
  · cases h

/-- **The postfix text is built again as the same tree** exactly if no number is
cut in it. -/
theorem buildTrees_postorder_iff {e : Expression} (hnumbers : ∀ w, .num w ∈ e.tokens → IsNumber w)
    (hdepth : e.depth ≤ 64) (hplain : Plain e.tokens) :
    buildTrees (bitreePostorder (grown e).tree ++ [chr '\n']) = some [(grown e).tree] ↔
      Apart (e.tokens.map printedToken) := by
  have hne : ∀ l ∈ e.tokens.map printedToken, l ≠ [] := by
    intro l hl
    obtain ⟨t, -, rfl⟩ := List.mem_map.mp hl
    exact printedToken_ne_nil t
  rw [bitreePostorder_eq]
  constructor
  · intro h
    have hone : ∀ l ∈ e.tokens.map printedToken, (items l).length = 1 := by
      intro l hl
      obtain ⟨t, -, rfl⟩ := List.mem_map.mp hl
      exact length_items_printedToken t
    have hsize := size_le_of_buildTrees h
    rw [size_grown] at hsize
    by_contra hcut
    have hfewer := (length_items_flatten hne hone).2 hcut
    rw [List.length_map] at hfewer
    omega
  · intro h
    have hline : PostfixLine (reprinted e) ((e.tokens.map printedToken).flatten ++ [chr '\n']) := by
      refine ⟨?_, ?_⟩
      · rw [items_append (cutsNumber_newline _), items_flatten hne h, reprinted, Tree.tokens_map,
          List.flatMap_map, List.map_map]
        congr 1
        rw [List.flatMap_congr fun t ht => items_printedToken hplain ht, ← List.map_eq_flatMap]
        rfl
      · intro w hw
        obtain ⟨w, hmem, rfl⟩ := Tree.num_mem_map.mp hw
        obtain ⟨n, hn, hlen⟩ := (hnumbers w hmem).exists_numeral
        rw [canonical, hn, bytes_toString]
        exact ⟨numeral_ne_nil n, hlen, isdigit_numeral n⟩
    rw [buildTrees_line hline (by rw [reprinted, Tree.depth_map]; exact hdepth), grown_reprinted]

/-- What every postfix line should lead to: the postfix text is built again as
the same tree, and the infix text has the tree as its only reading. -/
def DenotesTree (text : List UInt8) : Prop :=
  ∃ tree, buildTrees text = some [tree] ∧
    buildTrees (bitreePostorder tree ++ [chr '\n']) = some [tree] ∧
    ∃ out, inorderFn tree = some out ∧ ∀ tree', Reads (items out) tree' ↔ tree' = tree

/-- **The printed texts denote the tree** exactly if the stack has room, no
number is the code of an operator, and no number of three or more digits follows
a number. -/
theorem denotesTree_iff {e : Expression} {text : List UInt8} (h : PostfixLine e text) :
    DenotesTree text ↔ e.depth ≤ 64 ∧ Plain e.tokens ∧ e.tokens.IsChain Separated := by
  by_cases hdepth : e.depth ≤ 64
  · obtain ⟨out, hout, hitems⟩ := items_inorder e
    have hitems : items out = infixItems (printed e) := by
      have hnil := hitems [] rfl
      rw [List.append_nil] at hnil
      rw [hnil]
      exact List.append_nil _
    have hreads := reads_iff e
    rw [← hitems] at hreads
    constructor
    · rintro ⟨tree, htree, hpost, out', hout', hread⟩
      obtain rfl : (grown e).tree = tree :=
        (List.cons.inj (Option.some.inj ((buildTrees_line h hdepth).symm.trans htree))).1
      obtain rfl : out = out' := Option.some.inj (hout.symm.trans hout')
      have hplain := hreads.mp hread
      exact ⟨hdepth, hplain, (apart_postorder_iff hplain).mp
        ((buildTrees_postorder_iff h.numbers hdepth hplain).mp hpost)⟩
    · rintro ⟨-, hplain, hchain⟩
      exact ⟨(grown e).tree, buildTrees_line h hdepth,
        (buildTrees_postorder_iff h.numbers hdepth hplain).mpr ((apart_postorder_iff hplain).mpr hchain),
        out, hout, hreads.mpr hplain⟩
  · refine iff_of_false ?_ fun h => hdepth h.1
    rintro ⟨tree, htree, -, out, hout, -⟩
    rw [inorderFn_of_deep h (not_le.mp hdepth) htree] at hout
    cases hout

/-- The line `1 20+`. -/
def shortLine : Expression := .bin ⟨chr '+', rfl⟩ (.num (bytes "1")) (.num (bytes "20"))

theorem denotesTree_iff_shortLine :
    DenotesTree (bytes "1 20+\n") ↔
      shortLine.depth ≤ 64 ∧ Plain shortLine.tokens ∧ shortLine.tokens.IsChain Separated := by
  apply denotesTree_iff
  refine ⟨by decide, ?_⟩
  intro w hw
  rcases List.mem_cons.mp hw with hw | hw
  · obtain rfl : w = bytes "1" := Token.num.inj hw
    exact ⟨by decide, by decide, List.all_eq_true.mp rfl⟩
  · rcases List.mem_cons.mp hw with hw | hw
    · obtain rfl : w = bytes "20" := Token.num.inj hw
      exact ⟨by decide, by decide, List.all_eq_true.mp rfl⟩
    · cases List.mem_singleton.mp hw

/-- **`1 100+` is printed as `1100+`**, which is built as another tree, **and the
number 43 is printed as `+`**, which is no expression. -/
theorem not_denotesTree :
    (items (bytes "1 100+\n") =
        (Tree.bin (⟨chr '+', rfl⟩ : Operator) (.num (bytes "1")) (.num (bytes "100"))).tokens.map tokenItem
          ++ [.char (chr '\n')] ∧ ¬ DenotesTree (bytes "1 100+\n")) ∧
      items (bytes "43\n") =
        (Tree.num (bytes "43") : Expression).tokens.map tokenItem ++ [.char (chr '\n')] ∧
      ¬ DenotesTree (bytes "43\n") := by
  refine ⟨⟨by decide, ?_⟩, by decide, ?_⟩
  · rintro ⟨tree, htree, hpost, -⟩
    have hbuilt : buildTrees (bytes "1 100+\n") =
        some [.node 43 (bitnodeAlloc 1) (bitnodeAlloc 100)] := by
      rw [buildTrees_items]
      decide
    obtain rfl := (List.cons.inj (Option.some.inj (hbuilt.symm.trans htree))).1
    have hagain : buildTrees (bytes "  1100  +\n") = some [.node 43 .null (bitnodeAlloc 1100)] := by
      rw [buildTrees_items]
      decide
    have htext : bitreePostorder (.node 43 (bitnodeAlloc 1) (bitnodeAlloc 100)) ++ [chr '\n'] =
        bytes "  1100  +\n" := by decide
    rw [htext, hagain] at hpost
    cases hpost
  · rintro ⟨tree, htree, -, out, hout, hreads⟩
    have hbuilt : buildTrees (bytes "43\n") = some [bitnodeAlloc 43] := by
      rw [buildTrees_items]
      decide
    obtain rfl := (List.cons.inj (Option.some.inj (hbuilt.symm.trans htree))).1
    obtain rfl : bytes "  +" = out := Option.some.inj hout
    obtain ⟨e, he, -⟩ := (hreads _).mpr rfl
    cases e with
    | num w => cases he
    | bin o l r => cases (List.cons.inj he).1

end ExpressionOperation

end CodeSnippet
