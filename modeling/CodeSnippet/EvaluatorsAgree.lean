/-
CodeSnippet/EvaluatorsAgree.lean

The two evaluators side by side.  As long as at most 16 operands wait, both give
the value of the expression.  Where more operands wait, the stack evaluator
drops one of them unseen; and in an expression of any shape, the numbers can be
chosen so that its value depends on this one (`exists_near`).

Main results:
  * `evaluators_agree` — the two agree with the value.
  * `evaluators_agree_iff` — the shapes of expression for which they do.
-/
import CodeSnippet.PostfixExpression
import CodeSnippet.ExpressionOperation

namespace CodeSnippet

open Memory Postfix

/-- Both programs give the value `v` for a line. -/
def Agree (s : ℕ → UInt8) (op1 op2 : ℤ) (text : List UInt8) (v : ℤ) : Prop :=
  PostfixExpression.postfixExpression s op1 op2 text = some [v] ∧
    ∃ tree, ExpressionOperation.buildTrees text = some [tree] ∧
      ExpressionOperation.caculate tree = some v

/-- **With at most 16 operands waiting the evaluators agree.** -/
theorem evaluators_agree (s : ℕ → UInt8) (op1 op2 : ℤ) {e : PostfixExpr} {v : ℤ}
    (h : e.WellFormed) (hv : e.value = some v) {text : List UInt8} (htext : Line e.tokens text)
    (hdepth : e.depth ≤ 16) : Agree s op1 op2 text v := by
  refine ⟨PostfixExpression.postfixExpression_eq s op1 op2 h hv htext hdepth,
    ExpressionOperation.treeOf e, ?_, ?_⟩
  · exact ExpressionOperation.buildTrees_eq h htext (by omega)
  · exact (ExpressionOperation.caculate_treeOf e).trans hv

/-! ### Small values -/

/-- A number of one digit. -/
def digit (k : ℕ) : List UInt8 := [UInt8.ofNat (48 + k)]

theorem digit_spec {k : ℕ} (h : k ≤ 2) : IsNumber (digit k) ∧ decimal (digit k) = k := by
  refine ⟨⟨List.cons_ne_nil _ _, Nat.le_of_ble_eq_true rfl, fun c hc => ?_⟩, ?_⟩
  · obtain rfl := List.mem_singleton.mp hc
    interval_cases k <;> rfl
  · interval_cases k <;> rfl

/-- The operand that changes nothing on the right of an operator. -/
def Op.rightUnit : Op → ℕ
  | .add | .sub => 0
  | .mul | .div => 1

theorem Op.apply_rightUnit (op : Op) {k : ℕ} (h : k ≤ 2) :
    op.apply k op.rightUnit = some (k : ℤ) := by
  interval_cases k
  · cases op <;> rfl
  · cases op <;> rfl
  · cases op <;> rfl

theorem Op.rightUnit_le (op : Op) : op.rightUnit ≤ 2 := by
  cases op <;> decide

theorem PostfixExpr.value_bin {op : Op} {l r : PostfixExpr} {x y : ℤ} (hl : l.value = some x)
    (hr : r.value = some y) : PostfixExpr.value (.bin op l r) = op.apply x y := by
  rw [value, hl, hr]
  rfl

/-- **An expression of any shape can have each of the values 0, 1 and 2.** -/
theorem exists_value (σ : Tree Unit Op) {k : ℕ} (hk : k ≤ 2) :
    ∃ e : PostfixExpr, Tree.shape e = σ ∧ e.WellFormed ∧ e.value = some (k : ℤ) := by
  induction σ generalizing k with
  | num n =>
      obtain ⟨hnumber, hvalue⟩ := digit_spec hk
      exact ⟨.num (digit k), rfl, hnumber, congrArg some hvalue⟩
  | bin op l r ihl ihr =>
      obtain ⟨a, rfl, hwfa, ha⟩ := ihl hk
      obtain ⟨b, rfl, hwfb, hb⟩ := ihr op.rightUnit_le
      refine ⟨.bin op a b, rfl, ⟨hwfa, hwfb⟩, ?_⟩
      rw [PostfixExpr.value_bin ha hb, op.apply_rightUnit hk]

/-! ### Values that depend on one operand -/

/-- Two different values among 0, 1 and 2 that lie side by side. -/
def Near (a b : ℕ) : Prop := a ≤ 2 ∧ b ≤ 2 ∧ (a = b + 1 ∨ b = a + 1)

theorem Near.cases {a b : ℕ} (h : Near a b) :
    (a = 0 ∧ b = 1) ∨ (a = 1 ∧ b = 0) ∨ (a = 1 ∧ b = 2) ∨ (a = 2 ∧ b = 1) := by
  obtain ⟨ha, hb, hab⟩ := h
  omega

/-- On the right of an operator, two such values come from two such operands. -/
theorem Near.exists_operand {a b : ℕ} (h : Near a b) (op : Op) :
    ∃ t x y : ℕ, t ≤ 2 ∧ Near x y ∧ op.apply t x = some (a : ℤ) ∧ op.apply t y = some (b : ℤ) := by
  cases op with
  | add =>
      refine ⟨0, a, b, Nat.zero_le _, h, ?_⟩
      rcases h.cases with ⟨rfl, rfl⟩ | ⟨rfl, rfl⟩ | ⟨rfl, rfl⟩ | ⟨rfl, rfl⟩ <;> decide
  | mul =>
      refine ⟨1, a, b, one_le_two, h, ?_⟩
      rcases h.cases with ⟨rfl, rfl⟩ | ⟨rfl, rfl⟩ | ⟨rfl, rfl⟩ | ⟨rfl, rfl⟩ <;> decide
  | sub =>
      rcases h.cases with ⟨rfl, rfl⟩ | ⟨rfl, rfl⟩ | ⟨rfl, rfl⟩ | ⟨rfl, rfl⟩
      · exact ⟨1, 1, 0, by unfold Near; decide⟩
      · exact ⟨1, 0, 1, by unfold Near; decide⟩
      · exact ⟨2, 1, 0, by unfold Near; decide⟩
      · exact ⟨2, 0, 1, by unfold Near; decide⟩
  | div =>
      rcases h.cases with ⟨rfl, rfl⟩ | ⟨rfl, rfl⟩ | ⟨rfl, rfl⟩ | ⟨rfl, rfl⟩
      · exact ⟨1, 2, 1, by unfold Near; decide⟩
      · exact ⟨1, 1, 2, by unfold Near; decide⟩
      · exact ⟨2, 2, 1, by unfold Near; decide⟩
      · exact ⟨2, 1, 2, by unfold Near; decide⟩

/-- **Every operand can matter**: around it the numbers can be chosen so that
two values of this operand give two values of the expression. -/
theorem exists_near (c : Ctx Unit Op) {a b : ℕ} (h : Near a b) :
    ∃ (c' : Ctx (List UInt8) Op) (n n' : List UInt8), c'.shape = c ∧
      PostfixExpr.WellFormed (c'.plug n) ∧ PostfixExpr.WellFormed (c'.plug n') ∧
      PostfixExpr.value (c'.plug n) = some (a : ℤ) ∧
      PostfixExpr.value (c'.plug n') = some (b : ℤ) := by
  induction c generalizing a b with
  | here =>
      obtain ⟨ha, hva⟩ := digit_spec h.1
      obtain ⟨hb, hvb⟩ := digit_spec h.2.1
      exact ⟨.here, digit a, digit b, rfl, ha, hb, congrArg some hva, congrArg some hvb⟩
  | left op c r ih =>
      obtain ⟨c', n, n', rfl, hwf, hwf', hv, hv'⟩ := ih h
      obtain ⟨e, rfl, hwfe, he⟩ := exists_value r op.rightUnit_le
      refine ⟨.left op c' e, n, n', rfl, ⟨hwf, hwfe⟩, ⟨hwf', hwfe⟩, ?_, ?_⟩
      · rw [Ctx.plug, PostfixExpr.value_bin hv he, op.apply_rightUnit h.1]
      · rw [Ctx.plug, PostfixExpr.value_bin hv' he, op.apply_rightUnit h.2.1]
  | right op l c ih =>
      obtain ⟨t, x, y, ht, hxy, hx, hy⟩ := h.exists_operand op
      obtain ⟨c', n, n', rfl, hwf, hwf', hv, hv'⟩ := ih hxy
      obtain ⟨e, rfl, hwfe, he⟩ := exists_value l ht
      refine ⟨.right op e c', n, n', rfl, ⟨hwfe, hwf⟩, ⟨hwfe, hwf'⟩, ?_, ?_⟩
      · rw [Ctx.plug, PostfixExpr.value_bin he hv, hx]
      · rw [Ctx.plug, PostfixExpr.value_bin he hv', hy]

/-- **Beyond 16 operands the stack evaluator is wrong** for some numbers. -/
theorem exists_wrong {σ : Tree Unit Op} (hdepth : 16 < σ.depth) (s : ℕ → UInt8) (op1 op2 : ℤ) :
    ∃ (e : PostfixExpr) (v : ℤ), Tree.shape e = σ ∧ e.WellFormed ∧ e.value = some v ∧
      ∀ text, Line e.tokens text →
        PostfixExpression.postfixExpression s op1 op2 text ≠ some [v] := by
  obtain ⟨c, n₀, rfl, hfull⟩ := exists_refused (Nat.zero_le 16)
    (show 16 < 0 + σ.depth by omega)
  obtain ⟨c', n, n', rfl, hwf, hwf', hv, hv'⟩ :=
    exists_near c (a := 0) (b := 1) ⟨Nat.zero_le 2, one_le_two, .inr rfl⟩
  rw [height_shape_before] at hfull
  have hsame : PostfixExpression.machine.run ⟨[], op1, op2⟩ (c'.plug n).tokens =
      PostfixExpression.machine.run ⟨[], op1, op2⟩ (c'.plug n').tokens :=
    Machine.run_refused (Nat.zero_le _) hfull n n'
  -- the program prints the same for both, so one of the two is wrong
  by_cases hright : PostfixExpression.postfixExpression s op1 op2 (spell (c'.plug n).tokens) =
      some [0]
  · refine ⟨c'.plug n', 1, c'.shape_plug n', hwf', hv', fun text htext hprints => ?_⟩
    rw [PostfixExpression.postfixExpression_line s op1 op2 hwf (line_spell _), hsame,
      ← PostfixExpression.postfixExpression_line s op1 op2 hwf' htext, hprints] at hright
    exact absurd hright (by decide)
  · refine ⟨c'.plug n, 0, c'.shape_plug n, hwf, hv, fun text htext hprints => hright ?_⟩
    rw [PostfixExpression.postfixExpression_line s op1 op2 hwf (line_spell _),
      ← PostfixExpression.postfixExpression_line s op1 op2 hwf htext, hprints]

/-- **The evaluators agree on all expressions of a shape** exactly if at most
16 operands wait at the same time. -/
theorem evaluators_agree_iff (σ : Tree Unit Op) :
    (∀ (e : PostfixExpr) (v : ℤ) (text : List UInt8) (s : ℕ → UInt8) (op1 op2 : ℤ),
      Tree.shape e = σ → e.WellFormed → e.value = some v → Line e.tokens text →
        Agree s op1 op2 text v) ↔ σ.depth ≤ 16 := by
  constructor
  · intro hall
    by_contra hdepth
    obtain ⟨e, v, hshape, hwf, hv, hwrong⟩ :=
      exists_wrong (Nat.lt_of_not_le hdepth) (fun _ => 0) 0 0
    have hagree := hall e v (spell e.tokens) (fun _ => 0) 0 0 hshape hwf hv (line_spell _)
    exact hwrong _ (line_spell _) hagree.1
  · rintro hdepth e v text s op1 op2 rfl hwf hv htext
    rw [Tree.depth_shape] at hdepth
    exact evaluators_agree s op1 op2 hwf hv htext hdepth

/-- The line `1 2 +`. -/
theorem evaluators_agree_iff_sum : Agree (fun _ => 0) 0 0 (bytes " 1 2 +\n") 3 := by
  have hnumber : ∀ k ≤ 2, IsNumber (digit k) := fun k hk => (digit_spec hk).1
  refine (evaluators_agree_iff (.bin .add (.num ()) (.num ()))).mpr (by decide)
    (.bin .add (.num (digit 1)) (.num (digit 2))) 3 (bytes " 1 2 +\n") _ 0 0 rfl
    ⟨hnumber 1 one_le_two, hnumber 2 le_rfl⟩ rfl ?_
  exact line_spell (Tree.tokens (.bin .add (.num (digit 1)) (.num (digit 2))))

/-- `1 + (1 + (1 + ...))` with `n` operators. -/
def ones : ℕ → PostfixExpr
  | 0 => .num (digit 1)
  | n + 1 => .bin .add (.num (digit 1)) (ones n)

theorem ones_wellFormed (n : ℕ) : (ones n).WellFormed := by
  have hone := (digit_spec one_le_two).1
  induction n with
  | zero => exact hone
  | succ n ih => exact ⟨hone, ih⟩

/-- A sum of 17 numbers, the first of them 0 and the others 1: the last operand
is dropped, and the first one is added in its place. -/
theorem not_evaluators_agree :
    ¬ (∀ (e : PostfixExpr) (v : ℤ) (text : List UInt8) (s : ℕ → UInt8) (op1 op2 : ℤ),
      e.WellFormed → e.value = some v → Line e.tokens text → Agree s op1 op2 text v) ∧
    PostfixExpression.postfixExpression (fun _ => 0) 0 0
      (bytes " 0 1 1 1 1 1 1 1 1 1 1 1 1 1 1 1 1 + + + + + + + + + + + + + + + +\n") = some [15] ∧
    (ExpressionOperation.expressionOperation
      (bytes " 0 1 1 1 1 1 1 1 1 1 1 1 1 1 1 1 1 + + + + + + + + + + + + + + + +\n")).map
        (List.map ExpressionOperation.Report.result) = some [16] := by
  have hstack : PostfixExpression.postfixExpression (fun _ => 0) 0 0
      (bytes " 0 1 1 1 1 1 1 1 1 1 1 1 1 1 1 1 1 + + + + + + + + + + + + + + + +\n") = some [15] := by
    decide +kernel
  refine ⟨fun hevery => ?_, hstack, by decide +kernel⟩
  have hvalue : PostfixExpr.value (.bin .add (.num (digit 0)) (ones 15)) = some 16 := by
    decide +kernel
  have htext : bytes " 0 1 1 1 1 1 1 1 1 1 1 1 1 1 1 1 1 + + + + + + + + + + + + + + + +\n" =
      spell (Tree.tokens (.bin .add (.num (digit 0)) (ones 15))) := by
    decide +kernel
  have hagree := hevery (.bin .add (.num (digit 0)) (ones 15)) 16 _ (fun _ => 0) 0 0
    ⟨(digit_spec (Nat.zero_le 2)).1, ones_wellFormed 15⟩ hvalue (htext ▸ line_spell _)
  have hprints := hstack.symm.trans hagree.1
  exact absurd hprints (by decide)

end CodeSnippet
