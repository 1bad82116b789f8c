/-
CodeSnippet/PostfixHistory.lean

What the lines before a line do to its result in the evaluator of
src/algorithm/stack/app/postfixExpression.c.  Operands that a line leaves on the
stack stay there, so they take room from the lines that follow; nothing else of
the history matters to a line that finds enough room.

Main results:
  * `printsAt_iff` — what is printed at the end of a line, from the state that
    the history has left.
  * `lines_independent_iff` — the lines of a shape are independent of a history
    exactly if it leaves room for them.
-/
import CodeSnippet.EvaluatorsAgree
import CodeSnippet.PostfixItems

namespace CodeSnippet

open Memory Postfix

namespace PostfixExpression

/-! ### Lines -/

/-- Lines of any bytes, each with its newline. -/
def fullLines (lines : List (List UInt8)) : List UInt8 := lines.flatMap fun l => l ++ [chr '\n']

theorem fullLines_eq (lines : List (List UInt8)) :
    fullLines lines = [] ∨ ∃ l, fullLines lines = l ++ [chr '\n'] := by
  induction lines using List.reverseRecOn with
  | nil => exact .inl rfl
  | append_singleton lines l _ =>
      refine .inr ⟨fullLines lines ++ l, ?_⟩
      rw [fullLines, List.flatMap_append, List.flatMap_singleton, List.append_assoc, fullLines]

/-- Lines do not change how what follows them is read. -/
theorem seen_append (lines : List (List UInt8)) (rest : List UInt8) :
    seen (fullLines lines ++ rest) =
      if endsEarly false (fullLines lines) then seen (fullLines lines)
      else seen (fullLines lines) ++ seen rest := by
  rcases fullLines_eq lines with h | ⟨l, h⟩
  · rw [h]
    rfl
  · have hl := readable_append l [] false
    have hends := endsEarly_append l [] false
    have hrest := readable_append l rest false
    rw [endsEarly, Bool.or_false] at hends
    rw [h, seen, seen, seen, List.append_assoc, List.singleton_append, hrest, hl, hends]
    split
    · rfl
    · rw [readable, ← items_append, List.append_assoc, List.singleton_append]
      rw [cutsNumber, List.getLast?_append_of_ne_nil _ (List.cons_ne_nil _ _)]
      rfl

theorem line_ne_nil {ts : List (Token (List UInt8) Op)} {text : List UInt8} (h : Line ts text) :
    text ≠ [] := by
  induction h with
  | newline hb => exact List.append_ne_nil_of_right_ne_nil _ (List.cons_ne_nil _ _)
  | num hb hnext h ih =>
      exact List.append_ne_nil_of_right_ne_nil _ (List.append_ne_nil_of_right_ne_nil _ ih)
  | op hb h ih => exact List.append_ne_nil_of_right_ne_nil _ (List.cons_ne_nil _ _)

def lineItem : Token (List UInt8) Op → Item
  | .num w => .number w
  | .op op => .char op.byte

/-- The items of a line are its tokens. -/
theorem seen_line {ts : List (Token (List UInt8) Op)} {text : List UInt8} (h : Line ts text)
    (hts : Numbers ts) (rest : List UInt8) :
    seen (text ++ rest) = ts.map lineItem ++ .char (chr '\n') :: seen rest := by
  have hblanks : ∀ b : List UInt8, (∀ c ∈ b, isblank c = true) → ∀ l, seen (b ++ l) = seen l :=
    fun b hb => readable_blanks hb
  induction h with
  | @newline b hb =>
      rw [List.append_assoc, hblanks b hb, List.singleton_append, seen, readable,
        if_neg (by decide), items_char rfl rfl]
      rfl
  | @num b w ts text hb hnext h ih =>
      have hw := hts w (List.mem_cons_self ..)
      have hts' : Numbers ts := fun w' hw' => hts w' (List.mem_cons_of_mem _ hw')
      have hhead : (text ++ rest).head?.any isdigit = false ∧
          afterRun (text ++ rest) = text ++ rest := by
        have heof := h.head_ne_eof hts'
        obtain ⟨c, l, rfl⟩ := List.exists_cons_of_ne_nil (line_ne_nil h)
        exact ⟨hnext c rfl, if_neg (heof c rfl)⟩
      rw [List.append_assoc, hblanks b hb, List.append_assoc, seen,
        items_readable_afterRun hw.1 hw.2.2 hhead.1, hhead.2, List.map_cons, List.cons_append,
        ← ih hts']
      rfl
  | @op b op ts text hb h ih =>
      have hts' : Numbers ts := fun w' hw' => hts w' (List.mem_cons_of_mem _ hw')
      have hbyte : op.byte ≠ eofByte ∧ isblank op.byte = false ∧ isdigit op.byte = false := by
        cases op <;> decide
      rw [List.append_assoc, hblanks b hb, List.cons_append, seen, readable, if_neg hbyte.1,
        items_char hbyte.2.1 hbyte.2.2, hbyte.2.2, List.map_cons, List.cons_append, ← ih hts']
      rfl

/-! ### The stack -/

/-- How many operands wait after an item. -/
def waitingStep (h : ℕ) : Item → ℕ
  | .number _ => min (h + 1) 16
  | .char c => if (opOf c).isSome then h - 2 + 1 else if c = chr '\n' then h - 1 else h

/-- How many operands some items leave on the stack. -/
def waiting (ts : List Item) : ℕ := ts.foldl waitingStep 0

theorem Trace.step_length {tr tr' : Trace} {t : Item} (hle : tr.state.stack.length ≤ 16)
    (h : tr.step t = some tr') :
    tr'.state.stack.length = waitingStep tr.state.stack.length t ∧ tr'.state.stack.length ≤ 16 := by
  cases t with
  | number w =>
      obtain rfl := Option.some.inj h
      have hlen := length_pushTo 16 tr.state.stack (decimal w) hle
      exact ⟨hlen, hlen.trans_le (min_le_right ..)⟩
  | char c =>
      rw [Trace.step] at h
      rw [waitingStep]
      rcases hop : opOf c with _ | op
      · rw [hop] at h
        simp only at h
        rw [if_neg (by decide)]
        split at h
        · rename_i hnl
          obtain rfl := Option.some.inj h
          rw [if_pos hnl]
          refine ⟨List.length_tail, ?_⟩
          rw [List.length_tail]
          omega
        · rename_i hnl
          obtain rfl := Option.some.inj h
          rw [if_neg hnl]
          exact ⟨rfl, hle⟩
      · rw [hop] at h
        obtain ⟨m, hm, rfl⟩ := Option.map_eq_some_iff.mp h
        obtain ⟨v, -, rfl⟩ := Option.map_eq_some_iff.mp hm
        have htail : tr.state.stack.tail.tail.length = tr.state.stack.length - 2 := by
          rw [List.length_tail, List.length_tail, Nat.sub_sub]
        have hlen := length_pushTo 16 tr.state.stack.tail.tail v (by omega)
        have hpush : (pushTo 16 tr.state.stack.tail.tail v).length =
            tr.state.stack.length - 2 + 1 := by omega
        rw [Option.isSome_some, if_pos rfl]
        refine ⟨hpush, ?_⟩
        show (pushTo 16 tr.state.stack.tail.tail v).length ≤ 16
        omega

theorem Trace.run_length {tr tr' : Trace} {ts : List Item} (hle : tr.state.stack.length ≤ 16)
    (h : tr.run ts = some tr') :
    tr'.state.stack.length = ts.foldl waitingStep tr.state.stack.length ∧
      tr'.state.stack.length ≤ 16 := by
  induction ts generalizing tr with
  | nil =>
      obtain rfl := Option.some.inj h
      exact ⟨rfl, hle⟩
  | cons t ts ih =>
      rw [Trace.run_cons] at h
      obtain ⟨tr₁, hstep, hrun⟩ := Option.bind_eq_some_iff.mp h
      obtain ⟨hlen, hle₁⟩ := Trace.step_length hle hstep
      rw [List.foldl_cons, ← hlen]
      exact ih hle₁ hrun

theorem length_trace {op1 op2 : ℤ} {tr : Trace} {ts : List Item}
    (h : Trace.run ⟨⟨[], op1, op2⟩, []⟩ ts = some tr) :
    tr.state.stack.length = waiting ts ∧ tr.state.stack.length ≤ 16 :=
  Trace.run_length (show ([] : List ℤ).length ≤ 16 from Nat.zero_le 16) h

/-- **On a line the trace is the machine**, and prints what is on top of the
stack. -/
theorem Trace.run_line (tr : Trace) (ts : List (Token (List UInt8) Op)) :
    tr.run (ts.map lineItem ++ [.char (chr '\n')]) =
      (machine.run tr.state ts).map fun m =>
        ⟨⟨m.stack.tail, m.stack.headD m.left, m.right⟩, tr.out ++ [m.stack.headD m.left]⟩ := by
  induction ts generalizing tr with
  | nil => rfl
  | cons t ts ih =>
      rw [List.map_cons, List.cons_append, Trace.run_cons, Machine.run_cons]
      cases t with
      | num w => exact ih _
      | op op =>
          rw [lineItem, Trace.step, opOf_byte]
          simp only
          rcases hstep : machine.step tr.state (.op op) with _ | m
          · rfl
          · exact ih ⟨m, tr.out⟩

/-! ### Independence -/

/-- Whatever comes behind the line, what the program prints begins with what it
prints for the lines `before` alone and then `v`. -/
def PrintsAt (s : ℕ → UInt8) (op1 op2 : ℤ) (before text : List UInt8) (v : ℤ) : Prop :=
  ∃ earlier, postfixExpression s op1 op2 before = some earlier ∧
    postfixExpression s op1 op2 (before ++ text) = some (earlier ++ [v]) ∧
    ∀ rest out, postfixExpression s op1 op2 (before ++ (text ++ rest)) = some out →
      earlier ++ [v] <+: out

/-- The lines `before` leave room for `k` more operands: they contain no byte
that ends the input and no number that overruns `s`, their operations neither
overflow nor divide by zero, and at most `16 - k` operands stay on the stack. -/
structure LeavesRoom (op1 op2 : ℤ) (before : List UInt8) (k : ℕ) : Prop where
  continues : endsEarly false before = false
  fits : ∀ t ∈ seen before, t.Fits
  computes : (Trace.run ⟨⟨[], op1, op2⟩, []⟩ (seen before)).isSome
  room : waiting (seen before) + k ≤ 16

variable {s : ℕ → UInt8} {op1 op2 : ℤ} {lines : List (List UInt8)}

/-- What the program prints for lines. -/
theorem exists_trace {earlier : List ℤ}
    (h : postfixExpression s op1 op2 (fullLines lines) = some earlier) :
    (∀ t ∈ seen (fullLines lines), t.Fits) ∧
      ∃ tr, Trace.run ⟨⟨[], op1, op2⟩, []⟩ (seen (fullLines lines)) = some tr ∧ tr.out = earlier := by
  rw [postfixExpression_items] at h
  split at h
  · rename_i hfits
    exact ⟨hfits, Option.map_eq_some_iff.mp h⟩
  · cases h

theorem lineItem_fits {e : PostfixExpr} (h : e.WellFormed) :
    ∀ t ∈ e.tokens.map lineItem ++ [.char (chr '\n')], t.Fits := by
  intro t ht
  rcases List.mem_append.mp ht with ht | ht
  · obtain ⟨tok, htok, rfl⟩ := List.mem_map.mp ht
    cases tok with
    | num w => exact (numbers_tokens h w htok).2.1
    | op op => trivial
  · rw [List.mem_singleton.mp ht]
    trivial

/-- What the program prints for a line behind lines. -/
theorem postfixExpression_lines (hcont : endsEarly false (fullLines lines) = false)
    (hfits : ∀ t ∈ seen (fullLines lines), t.Fits) {tr : Trace}
    (htr : Trace.run ⟨⟨[], op1, op2⟩, []⟩ (seen (fullLines lines)) = some tr) {e : PostfixExpr}
    (he : e.WellFormed) {text : List UInt8} (htext : Line e.tokens text) :
    postfixExpression s op1 op2 (fullLines lines ++ text) =
      (machine.run tr.state e.tokens).map fun m => tr.out ++ [m.stack.headD m.left] := by
  have hline := seen_line htext (numbers_tokens he) []
  rw [List.append_nil] at hline
  have hseen : seen (fullLines lines ++ text) =
      seen (fullLines lines) ++ (e.tokens.map lineItem ++ [.char (chr '\n')]) := by
    have happend := seen_append lines text
    rwa [hcont, if_neg Bool.false_ne_true, hline] at happend
  have hall : ∀ t ∈ seen (fullLines lines) ++ (e.tokens.map lineItem ++ [.char (chr '\n')]),
      t.Fits := by
    intro t ht
    rcases List.mem_append.mp ht with ht | ht
    · exact hfits t ht
    · exact lineItem_fits he t ht
  rw [postfixExpression_items, hseen, if_pos hall, Trace.run_append, htr, Option.bind_some,
    Trace.run_line, Option.map_map]
  rfl

/-- **What is printed at the end of a line**, from the state that the lines
before have left. -/
theorem printsAt_iff (hcont : endsEarly false (fullLines lines) = false)
    (hfits : ∀ t ∈ seen (fullLines lines), t.Fits) {tr : Trace}
    (htr : Trace.run ⟨⟨[], op1, op2⟩, []⟩ (seen (fullLines lines)) = some tr) {e : PostfixExpr}
    (he : e.WellFormed) {text : List UInt8} (htext : Line e.tokens text) {v : ℤ} :
    PrintsAt s op1 op2 (fullLines lines) text v ↔
      ∃ m, machine.run tr.state e.tokens = some m ∧ m.stack.headD m.left = v := by
  have hbefore : postfixExpression s op1 op2 (fullLines lines) = some tr.out := by
    rw [postfixExpression_items, if_pos hfits, htr]
    rfl
  have hprints := postfixExpression_lines (s := s) hcont hfits htr he htext
  constructor
  · rintro ⟨earlier, hearlier, hline, -⟩
    obtain rfl : tr.out = earlier := Option.some.inj (hbefore.symm.trans hearlier)
    rw [hprints] at hline
    obtain ⟨m, hm, hout⟩ := Option.map_eq_some_iff.mp hline
    exact ⟨m, hm, (List.cons.inj (List.append_cancel_left hout)).1⟩
  · rintro ⟨m, hm, rfl⟩
    rw [hm] at hprints
    refine ⟨tr.out, hbefore, hprints, ?_⟩
    intro rest out hout
    have hseen : seen (fullLines lines ++ (text ++ rest)) =
        seen (fullLines lines) ++ (e.tokens.map lineItem ++ ([.char (chr '\n')] ++ seen rest)) := by
      have happend := seen_append lines (text ++ rest)
      rw [hcont, if_neg Bool.false_ne_true, seen_line htext (numbers_tokens he) rest] at happend
      exact happend
    rw [postfixExpression_items, hseen] at hout
    split at hout
    · rw [Trace.run_append, htr, Option.bind_some, ← List.append_assoc, Trace.run_append,
        Trace.run_line, hm] at hout
      obtain ⟨tr', hrun, rfl⟩ := Option.map_eq_some_iff.mp hout
      exact Trace.run_out hrun
    · cases hout

/-- **The lines of a shape are independent of the lines before** exactly if
these leave room for them. -/
theorem lines_independent_iff (s : ℕ → UInt8) (op1 op2 : ℤ) (lines : List (List UInt8))
    (σ : Tree Unit Op) :
    (∀ (e : PostfixExpr) (v : ℤ) (text : List UInt8), Tree.shape e = σ → e.WellFormed →
      e.value = some v → Line e.tokens text → PrintsAt s op1 op2 (fullLines lines) text v) ↔
      LeavesRoom op1 op2 (fullLines lines) σ.depth := by
  constructor
  · intro hall
    obtain ⟨e, he, hwf, hv⟩ := exists_value σ (Nat.zero_le 2)
    obtain ⟨earlier, hearlier, hline, -⟩ := hall e _ _ he hwf hv (line_spell _)
    obtain ⟨hfits, tr, htr, rfl⟩ := exists_trace hearlier
    have hcont : endsEarly false (fullLines lines) = false := by
      -- otherwise the line is not read
      by_contra hends
      have hseen := seen_append lines (spell e.tokens)
      rw [if_pos (Bool.of_not_eq_false hends)] at hseen
      have hsame : postfixExpression s op1 op2 (fullLines lines ++ spell e.tokens) =
          postfixExpression s op1 op2 (fullLines lines) := by
        rw [postfixExpression_items, postfixExpression_items, hseen]
      rw [hsame, hearlier] at hline
      have hlen := congrArg List.length (Option.some.inj hline)
      rw [List.length_append, List.length_singleton] at hlen
      omega
    refine ⟨hcont, hfits, ?_, ?_⟩
    · rw [htr]
      rfl
    · by_contra hroom
      obtain ⟨hlen, hle⟩ := length_trace htr
      obtain ⟨c, n₀, rfl, hfull⟩ := exists_refused (e := σ) hle (by omega)
      obtain ⟨c', n, n', rfl, hwf₀, hwf₁, hv₀, hv₁⟩ :=
        exists_near c (a := 0) (b := 1) ⟨Nat.zero_le 2, one_le_two, .inr rfl⟩
      rw [height_shape_before] at hfull
      -- the operand is never looked at, so both numbers give one result
      have hsame : machine.run tr.state (c'.plug n).tokens =
          machine.run tr.state (c'.plug n').tokens := Machine.run_refused hle hfull n n'
      have hprints := hall (c'.plug n) 0 _ (c'.shape_plug n) hwf₀ hv₀ (line_spell _)
      have hprints' := hall (c'.plug n') 1 _ (c'.shape_plug n') hwf₁ hv₁ (line_spell _)
      obtain ⟨m, hm, hzero⟩ := (printsAt_iff hcont hfits htr hwf₀ (line_spell _)).mp hprints
      obtain ⟨m', hm', hone⟩ := (printsAt_iff hcont hfits htr hwf₁ (line_spell _)).mp hprints'
      rw [hsame, hm'] at hm
      obtain rfl := Option.some.inj hm
      exact absurd (hzero.symm.trans hone) (by decide)
  · rintro ⟨hcont, hfits, hcomputes, hroom⟩ e v text rfl hwf hv htext
    obtain ⟨tr, htr⟩ := Option.isSome_iff_exists.mp hcomputes
    obtain ⟨hlen, -⟩ := length_trace htr
    rw [Tree.depth_shape] at hroom
    obtain ⟨left, right, hrun⟩ := Machine.run_tokens ((eval_eq_value e).trans hv) tr.state
      (by
        rw [hlen]
        exact hroom)
    exact (printsAt_iff hcont hfits htr hwf htext).mpr ⟨_, hrun, rfl⟩

/-- A line with 16 numbers: 15 of them stay on the stack. -/
def sixteenOnes : List UInt8 := (List.replicate 16 (bytes " 1")).flatten

/-- **Behind it, `1 2 +` is printed as 2**: there is no room for the 2, and a 1
of the line before is added in its place. -/
theorem not_lines_independent :
    ¬ (∀ (lines : List (List UInt8)) (e : PostfixExpr) (v : ℤ) (text : List UInt8),
      e.WellFormed → e.depth ≤ 16 → e.value = some v → Line e.tokens text →
        PrintsAt (fun _ => 0) 0 0 (fullLines lines) text v) ∧
    postfixExpression (fun _ => 0) 0 0 (fullLines [sixteenOnes] ++ bytes " 1 2 +\n") =
      some [1, 2] := by
  have hprints : postfixExpression (fun _ => 0) 0 0 (fullLines [sixteenOnes] ++ bytes " 1 2 +\n") =
      some [1, 2] := by
    decide +kernel
  refine ⟨fun hevery => ?_, hprints⟩
  have hnumber : ∀ k ≤ 2, IsNumber (digit k) := fun k hk => (digit_spec hk).1
  obtain ⟨earlier, -, hline, -⟩ := hevery [sixteenOnes] (.bin .add (.num (digit 1)) (.num (digit 2)))
    3 (bytes " 1 2 +\n") ⟨hnumber 1 one_le_two, hnumber 2 le_rfl⟩ (by decide) rfl
    (line_spell (Tree.tokens (.bin .add (.num (digit 1)) (.num (digit 2)))))
  have hlast := congrArg List.getLast? (Option.some.inj (hline.symm.trans hprints))
  rw [List.getLast?_append_of_ne_nil _ (List.cons_ne_nil _ _)] at hlast
  exact absurd hlast (by decide)

end PostfixExpression

end CodeSnippet
