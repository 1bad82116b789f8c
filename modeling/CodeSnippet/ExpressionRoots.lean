/-
CodeSnippet/ExpressionRoots.lean

Which inputs let the evaluator of src/algorithm/tree/app/expressionOperation
store incomplete trees in `root`.  The stack survives the end of a line, `pop`
and `push` only report that they fail, and the evaluation comes after the end of
the input.

Incomplete trees lie below the complete ones, so two numbers say what is on the
stack: its height, and how far up from the bottom the newest incomplete tree
lies.  Both depend on the kinds of the items alone (`Covered`).

Main results:
  * `run_complete_iff` — the trees stored from a state on are complete exactly
    on covered items.
  * `evaluatesComplete_iff` — and so are those of a whole input.
-/
import CodeSnippet.ExpressionTrees

namespace CodeSnippet

open Memory

namespace ExpressionOperation

/-! ### Complete trees -/

/-- A tree in which every operator has both operands, and every leaf is a number
among the items `ts`. -/
def Grown.Complete (ts : List Item) : Grown → Prop
  | null => False
  | number w => .number w ∈ ts
  | nul => False
  | operator _ left right => left.Complete ts ∧ right.Complete ts

instance Grown.decidableComplete (ts : List Item) : DecidablePred (Grown.Complete ts)
  | null => inferInstanceAs (Decidable False)
  | number w => inferInstanceAs (Decidable (.number w ∈ ts))
  | nul => inferInstanceAs (Decidable False)
  | operator _ left right =>
      have := Grown.decidableComplete ts left
      have := Grown.decidableComplete ts right
      inferInstanceAs (Decidable (left.Complete ts ∧ right.Complete ts))

theorem Grown.complete_operator {ts : List Item} {c : UInt8} {l r : Grown} :
    (operator c l r).Complete ts ↔ l.Complete ts ∧ r.Complete ts := Iff.rfl

/-- The pointers that `inorder_fn` and `caculate` look into. -/
inductive Visits : Bitree → Bitree → Prop
  | here (t : Bitree) : Visits t t
  | left {data : ℤ} {l r b : Bitree} (h : (l.isNull && r.isNull) = false) (hl : Visits l b) :
      Visits (.node data l r) b
  | right {data : ℤ} {l r b : Bitree} (h : (l.isNull && r.isNull) = false) (hr : Visits r b) :
      Visits (.node data l r) b

/-- The text can be printed unless a null pointer is followed. -/
theorem inorderFn_eq_none_iff {t : Bitree} : inorderFn t = none ↔ Visits t .null := by
  induction t with
  | null => exact iff_of_true rfl (.here _)
  | node data l r ihl ihr =>
      rw [inorderFn]
      rcases h : l.isNull && r.isNull with _ | _
      · rw [if_neg Bool.false_ne_true]
        constructor
        · intro hnone
          rcases hl : inorderFn l with _ | x
          · exact .left h (ihl.mp hl)
          · rcases hr : inorderFn r with _ | y
            · exact .right h (ihr.mp hr)
            · rw [hl, hr] at hnone
              cases hnone
        · intro hvisits
          cases hvisits with
          | left _ hl =>
              rw [ihl.mpr hl]
              rfl
          | right _ hr =>
              rw [ihr.mpr hr]
              cases inorderFn l with
              | none => rfl
              | some x => rfl
      · rw [if_pos rfl]
        refine iff_of_false (Option.some_ne_none _) ?_
        intro hvisits
        cases hvisits with
        | left h' _ | right h' _ => exact absurd (h.symm.trans h') (by decide)

variable {ts us : List Item}

theorem Grown.Complete.isNull {t : Grown} (h : t.Complete ts) : t.tree.isNull = false := by
  cases t with
  | null | nul => exact h.elim
  | number w | operator c l r => rfl

/-- What is visited in a complete tree are its complete subtrees. -/
theorem Grown.Complete.visits {t : Grown} (h : t.Complete ts) {b : Bitree}
    (hb : Visits t.tree b) : ∃ t' : Grown, t'.Complete ts ∧ b = t'.tree := by
  induction t with
  | null | nul => exact h.elim
  | number w =>
      cases hb with
      | here => exact ⟨_, h, rfl⟩
      | left h' _ | right h' _ => cases h'
  | operator c l r ihl ihr =>
      cases hb with
      | here => exact ⟨_, h, rfl⟩
      | left _ hl => exact ihl h.1 hl
      | right _ hr => exact ihr h.2 hr

/-- A leaf of a complete tree holds a number. -/
theorem Grown.Complete.leaf {t : Grown} (h : t.Complete ts) {data : ℤ}
    (ht : t.tree = .node data .null .null) : ∃ w, .number w ∈ ts ∧ data = decimal w := by
  cases t with
  | null | nul => exact h.elim
  | number w =>
      obtain ⟨rfl, -⟩ := Bitree.node.inj ht
      exact ⟨w, h, rfl⟩
  | operator c l r =>
      obtain ⟨-, hl, -⟩ := Bitree.node.inj ht
      have hnull := h.1.isNull
      rw [hl] at hnull
      cases hnull

/-! ### The newest incomplete tree -/

/-- How far up from the bottom of the stack the newest incomplete tree lies. -/
def incomplete (ts : List Item) (l : List Grown) : ℕ := (l.dropWhile fun t => t.Complete ts).length

variable {t : Grown} {l : List Grown}

theorem incomplete_cons_pos (h : t.Complete ts) (l : List Grown) :
    incomplete ts (t :: l) = incomplete ts l := by
  rw [incomplete, List.dropWhile_cons, if_pos (decide_eq_true h), incomplete]

theorem incomplete_cons_neg (h : ¬ t.Complete ts) (l : List Grown) :
    incomplete ts (t :: l) = l.length + 1 := by
  rw [incomplete, List.dropWhile_cons, if_neg fun hdec => h (of_decide_eq_true hdec),
    List.length_cons]

theorem incomplete_le (ts : List Item) (l : List Grown) : incomplete ts l ≤ l.length :=
  List.length_dropWhile_le ..

/-- The newest tree is complete when it lies above all incomplete ones. -/
theorem headD_complete_iff : (l.headD .null).Complete ts ↔ incomplete ts l < l.length := by
  cases l with
  | nil => exact iff_of_false id (lt_irrefl 0)
  | cons t l =>
      have hle := incomplete_le ts l
      rw [List.headD_cons, List.length_cons]
      by_cases h : t.Complete ts
      · rw [incomplete_cons_pos h]
        exact iff_of_true h (Nat.lt_succ_of_le hle)
      · rw [incomplete_cons_neg h]
        exact iff_of_false h (lt_irrefl _)

theorem incomplete_tail (h : incomplete ts l < l.length) : incomplete ts l.tail = incomplete ts l := by
  cases l with
  | nil => rfl
  | cons t l => exact (incomplete_cons_pos (headD_complete_iff.mpr h) l).symm

/-- An operation is complete when both operands are. -/
theorem incomplete_operator (c : UInt8) (l : List Grown) :
    incomplete ts (.operator c (l.tail.headD .null) (l.headD .null) :: l.tail.tail) =
      if l.length < 2 then 1 else min (incomplete ts l) (l.length - 1) := by
  have hleft : ∀ a, ¬ (Grown.operator c .null a).Complete ts :=
    fun a h => (Grown.complete_operator.mp h).1
  rcases l with _ | ⟨a, _ | ⟨b, l⟩⟩
  · exact incomplete_cons_neg (hleft .null) _
  · exact incomplete_cons_neg (hleft a) _
  · have hle := incomplete_le ts l
    rw [if_neg (by rw [List.length_cons, List.length_cons]; omega)]
    show incomplete ts (.operator c b a :: l) = min (incomplete ts (a :: b :: l)) (l.length + 1)
    by_cases ha : a.Complete ts
    · by_cases hb : b.Complete ts
      · rw [incomplete_cons_pos (Grown.complete_operator.mpr ⟨hb, ha⟩), incomplete_cons_pos ha,
          incomplete_cons_pos hb, min_eq_left (by omega)]
      · rw [incomplete_cons_neg fun h => hb (Grown.complete_operator.mp h).1,
          incomplete_cons_pos ha, incomplete_cons_neg hb, min_self]
    · rw [incomplete_cons_neg fun h => ha (Grown.complete_operator.mp h).2, incomplete_cons_neg ha,
        List.length_cons, min_eq_right (Nat.le_succ _)]

/-! ### Covered items -/

/-- At every newline the newest entry of the stack is complete and there is room
in `root`: `h` entries wait, of which the lowest `u` reach up to the newest
incomplete one, and `n` trees are stored. -/
def Covered (h u n : ℕ) : List Item → Prop
  | [] => True
  | .number _ :: ts => Covered (min (h + 1) 64) u n ts
  | .char c :: ts =>
      if c = 0 then
        if h < 64 then Covered (h + 1) (h + 1) n ts else Covered h u n ts
      else if isOperator c then
        Covered (h - 2 + 1) (if h < 2 then 1 else min u (h - 1)) n ts
      else if c = chr '\n' then (u < h ∧ n < 8) ∧ Covered (h - 1) u (n + 1) ts
      else Covered h u n ts

/-- A tree that is stored stays. -/
theorem Forest.root_subset {f f' : Forest} (h : f.run us = some f') : f.root ⊆ f'.root := by
  induction us generalizing f with
  | nil =>
      obtain rfl := Option.some.inj h
      exact List.Subset.refl _
  | cons t us ih =>
      rw [Forest.run_cons] at h
      obtain ⟨f₁, hstep, hrun⟩ := Option.bind_eq_some_iff.mp h
      refine List.Subset.trans ?_ (ih hrun)
      cases t with
      | number w =>
          obtain rfl := Option.some.inj hstep
          exact List.Subset.refl _
      | char c =>
          rw [Forest.step] at hstep
          split at hstep
          · obtain rfl := Option.some.inj hstep
            exact List.Subset.refl _
          · split at hstep
            · obtain rfl := Option.some.inj hstep
              exact List.Subset.refl _
            · split at hstep
              · split at hstep
                · obtain rfl := Option.some.inj hstep
                  exact List.subset_append_left ..
                · cases hstep
              · obtain rfl := Option.some.inj hstep
                exact List.Subset.refl _

/-- A newline stores the newest tree, if there is room for it. -/
theorem run_newline (f : Forest) (us : List Item) :
    f.run (.char (chr '\n') :: us) =
      if f.root.length < 8 then
        Forest.run ⟨f.stack.tail, f.root ++ [f.stack.headD .null]⟩ us
      else none := by
  rw [Forest.run_cons, Forest.step, if_neg (by decide), if_neg (by decide), if_pos rfl]
  split
  · rfl
  · rfl

/-- **The trees stored from a state on are complete** exactly on covered
items. -/
theorem run_complete_iff (hsub : us ⊆ ts) {f : Forest} (hle : f.stack.length ≤ 64)
    (hroot : ∀ t ∈ f.root, t.Complete ts) :
    (∃ f', f.run us = some f' ∧ ∀ t ∈ f'.root, t.Complete ts) ↔
      Covered f.stack.length (incomplete ts f.stack) f.root.length us := by
  induction us generalizing f with
  | nil => exact iff_of_true ⟨f, rfl, hroot⟩ trivial
  | cons t us ih =>
      obtain ⟨ht, hus⟩ := List.cons_subset.mp hsub
      have hnext : ∀ (stack root : List Grown), stack.length ≤ 64 →
          (∀ t ∈ root, t.Complete ts) →
          ((∃ f', Forest.run ⟨stack, root⟩ us = some f' ∧ ∀ t ∈ f'.root, t.Complete ts) ↔
            Covered stack.length (incomplete ts stack) root.length us) :=
        fun stack root => ih hus (f := ⟨stack, root⟩)
      have hstep : ∀ f₁, f.step t = some f₁ → f.run (t :: us) = f₁.run us := by
        intro f₁ h
        rw [Forest.run_cons, h, Option.bind_some]
      cases t with
      | number w =>
          have hlen := length_pushTo 64 f.stack (.number w) hle
          have hincomplete : incomplete ts (pushTo 64 f.stack (.number w)) = incomplete ts f.stack := by
            unfold pushTo
            split
            · exact incomplete_cons_pos (show (Grown.number w).Complete ts from ht) _
            · rfl
          rw [hstep _ rfl, Forest.push, hnext _ _ (by omega) hroot, Covered, hlen, hincomplete]
      | char c =>
          rw [Forest.step] at hstep
          rw [Covered]
          by_cases hnul : c = 0
          · rw [if_pos hnul] at hstep ⊢
            rw [hstep _ rfl]
            by_cases hroom : f.stack.length < 64
            · have hpush : f.push .nul = ⟨.nul :: f.stack, f.root⟩ := by
                rw [Forest.push, pushTo, if_pos hroom]
              rw [if_pos hroom, hpush, hnext (.nul :: f.stack) _ hroom hroot, incomplete_cons_neg id,
                List.length_cons]
            · have hpush : f.push .nul = f := by rw [Forest.push, pushTo, if_neg hroom]
              rw [if_neg hroom, hpush, hnext _ _ hle hroot]
          · rw [if_neg hnul] at hstep ⊢
            by_cases hop : isOperator c = true
            · rw [if_pos hop] at hstep ⊢
              have htail : f.stack.tail.tail.length = f.stack.length - 2 := by
                rw [List.length_tail, List.length_tail, Nat.sub_sub]
              have hpush : ∀ t, pushTo 64 f.stack.tail.tail t = t :: f.stack.tail.tail :=
                fun t => if_pos (by omega)
              rw [hpush] at hstep
              rw [hstep _ rfl, hnext _ _ (by
                rw [List.length_cons]
                omega) hroot, incomplete_operator, List.length_cons, htail]
            · rw [if_neg hop] at hstep ⊢
              by_cases hnl : c = chr '\n'
              · obtain rfl := hnl
                rw [if_pos rfl, run_newline]
                by_cases hroom : f.root.length < 8
                · rw [if_pos hroom]
                  by_cases hhead : incomplete ts f.stack < f.stack.length
                  · have hcomplete := headD_complete_iff.mpr hhead
                    have hroot' : ∀ t ∈ f.root ++ [f.stack.headD .null], t.Complete ts :=
                      List.forall_mem_append.mpr ⟨hroot, List.forall_mem_singleton.mpr hcomplete⟩
                    have hle' : f.stack.tail.length ≤ 64 := by
                      rw [List.length_tail]
                      omega
                    rw [and_iff_right ⟨hhead, hroom⟩, hnext _ _ hle' hroot', incomplete_tail hhead,
                      List.length_tail, List.length_append]
                    rfl
                  · -- the tree that is stored is not complete
                    refine iff_of_false ?_ fun h => hhead h.1.1
                    rintro ⟨f', hrun, hall⟩
                    exact hhead (headD_complete_iff.mp (hall _ (Forest.root_subset hrun
                      (List.mem_append_right _ (List.mem_singleton_self _)))))
                · rw [if_neg hroom]
                  refine iff_of_false ?_ fun h => hroom h.1.2
                  rintro ⟨f', hrun, -⟩
                  cases hrun
              · rw [if_neg hnl] at hstep ⊢
                rw [hstep _ rfl, hnext _ _ hle hroot]

/-- What every input should lead to: the trees in `root` are complete, so that
the evaluation follows no null pointer and every leaf it meets holds a number of
the input. -/
def EvaluatesComplete (inp : List UInt8) : Prop :=
  ∃ root : List Grown, grow (items inp) = some root ∧
    buildTrees inp = some (root.map Grown.tree) ∧
    ∀ t ∈ root, t.Complete (items inp) ∧ inorderFn t.tree ≠ none ∧
      ∀ b, Visits t.tree b → b ≠ .null ∧
        ∀ data, b = .node data .null .null → ∃ w, .number w ∈ items inp ∧ data = decimal w

/-- **No malformed expression reaches the evaluation** exactly when the items are
covered, from an empty stack on. -/
theorem evaluatesComplete_iff {inp : List UInt8} (hfits : ∀ t ∈ items inp, t.Fits) :
    EvaluatesComplete inp ↔ Covered 0 0 0 (items inp) := by
  have hrun := run_complete_iff (List.Subset.refl (items inp)) (f := ⟨[], []⟩) (Nat.zero_le _)
    fun t ht => absurd ht List.not_mem_nil
  refine Iff.trans ?_ hrun
  constructor
  · rintro ⟨root, hgrow, -, hall⟩
    obtain ⟨f', hf', rfl⟩ := Option.map_eq_some_iff.mp hgrow
    exact ⟨f', hf', fun t ht => (hall t ht).1⟩
  · rintro ⟨f', hf', hall⟩
    have hgrow : grow (items inp) = some f'.root := by
      rw [grow, hf']
      rfl
    refine ⟨f'.root, hgrow, ?_, ?_⟩
    · rw [buildTrees_items, if_pos hfits, hgrow]
      rfl
    · intro t ht
      have hvisits : ∀ b, Visits t.tree b → b ≠ .null ∧ ∀ data, b = .node data .null .null →
          ∃ w, .number w ∈ items inp ∧ data = decimal w := by
        intro b hb
        obtain ⟨t', ht', rfl⟩ := (hall t ht).visits hb
        refine ⟨?_, fun data hdata => ht'.leaf hdata⟩
        intro hnull
        have hnonnull := ht'.isNull
        rw [hnull] at hnonnull
        cases hnonnull
      exact ⟨hall t ht, fun hnone => (hvisits _ (inorderFn_eq_none_iff.mp hnone)).1 rfl, hvisits⟩

/-- Covered: a line with an expression, and one with two numbers. -/
theorem evaluatesComplete_iff_lines :
    EvaluatesComplete (bytes "1 2+\n3 4\n") ↔ Covered 0 0 0 (items (bytes "1 2+\n3 4\n")) :=
  evaluatesComplete_iff (by decide)

/-- Nine lines with a number each. -/
def nineLines : List UInt8 := (List.replicate 9 (bytes "1\n")).flatten

/-- **An empty line stores a null pointer**, which the evaluation follows, **and
a ninth line is stored behind the end of `root`.** -/
theorem not_evaluatesComplete :
    ((∀ t ∈ items (bytes "\n"), t.Fits) ∧ ¬ EvaluatesComplete (bytes "\n") ∧
        buildTrees (bytes "\n") = some [.null] ∧ expressionOperation (bytes "\n") = none) ∧
      (∀ t ∈ items nineLines, t.Fits) ∧ ¬ EvaluatesComplete nineLines ∧
        buildTrees nineLines = none := by
  have hnull : buildTrees (bytes "\n") = some [.null] := by
    rw [buildTrees_items]
    decide
  refine ⟨⟨by decide, ?_, hnull, ?_⟩, by decide, ?_, ?_⟩
  · rintro ⟨root, hgrow, -, hall⟩
    obtain rfl : [Grown.null] = root := Option.some.inj hgrow
    exact (hall _ (List.mem_singleton_self _)).1
  · rw [expressionOperation, hnull]
    rfl
  · rintro ⟨root, hgrow, -, -⟩
    cases hgrow
  · rw [buildTrees_items]
    decide

end ExpressionOperation

end CodeSnippet
