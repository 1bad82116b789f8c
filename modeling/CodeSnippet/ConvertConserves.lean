/-
CodeSnippet/ConvertConserves.lean

What the converter loses although it returns 0.  Every operand is printed, and
no parenthesis.  Of the operators, those that find the stack full are lost, and
one that nobody wrote is printed where the value that `ch` happens to have at
the start passes for an entry to push back.

Main results:
  * `places_account` — the account of a run: printed and lost operators are the
    ones that waited and the ones that are read.
  * `convert_conserves_iff` — when nothing is lost.
-/
import CodeSnippet.ConvertLines

namespace CodeSnippet

open Memory ExpressionConvert Interleave

namespace ExpressionConvert

/-! ### What is to be printed -/

/-- The operands are printed in their order, every operator as often as it was
read, and no parenthesis. -/
structure Conserves (ls : List Lexeme) (out : List (List UInt8)) : Prop where
  operands : wordsOf isalnum out = operands ls
  operators : ∀ op : Op, out.flatten.count op.byte = ls.count (.oper op.byte)
  no_open : chr '(' ∉ out.flatten
  no_close : chr ')' ∉ out.flatten

/-! ### Lost and invented operators -/

/-- The operator, if the lexeme is one for which there is no room on a stack of
16 entries. -/
def dropped (waiting : List Waiting) : Lexeme → List Op
  | .operand _ => []
  | .oper c =>
      match toOp c with
      | some op => if (waiting.dropWhile (!op.under ·)).length < 16 then [] else [op]
      | none => []

/-- Reading on with `waiting` on the stack, the operators that are lost. -/
def lost : List Waiting → List Lexeme → List Op
  | _, [] => []
  | waiting, l :: ls => dropped waiting l ++ lost (after waiting l) ls

/-- The same from the start. -/
def lostFrom (ch : ℤ) : List Lexeme → List Op
  | [] => []
  | .operand _ :: ls => lostFrom ch ls
  | .oper c :: ls =>
      match toOp c with
      | some _ => lost (after (waitingOf ch) (.oper c)) ls
      | none => lostFrom ch ls

/-- What `ch` passes for, if the first operator leaves it under itself. -/
def invented (ch : ℤ) : List Lexeme → List Op
  | [] => []
  | .operand _ :: ls => invented ch ls
  | .oper c :: ls =>
      match toOp c with
      | some op => ((waitingOf ch).dropWhile (!op.under ·)).reduceOption
      | none => invented ch ls

/-! ### The account -/

theorem Op.byte_injective : Function.Injective Op.byte := by
  intro op op' h
  cases op <;> cases op' <;> first | rfl | exact absurd h (by decide)

theorem bytesOf_append (waiting waiting' : List Waiting) :
    bytesOf (waiting ++ waiting') = bytesOf waiting ++ bytesOf waiting' := by
  rw [bytesOf, List.reduceOption_append, List.map_append]
  rfl

/-- What leaves the stack and what stays. -/
theorem count_split (pass : Waiting → Bool) (waiting : List Waiting) (c : UInt8) :
    (bytesOf (waiting.takeWhile pass)).count c + (bytesOf (waiting.dropWhile pass)).count c =
      (bytesOf waiting).count c := by
  rw [← List.count_append, ← bytesOf_append, List.takeWhile_append_dropWhile]

/-- A parenthesis comes and goes unnoticed. -/
theorem bytesOf_none (waiting : List Waiting) : bytesOf (none :: waiting) = bytesOf waiting := by
  rw [bytesOf, List.reduceOption_cons_of_none]
  rfl

theorem bytesOf_some (op : Op) (waiting : List Waiting) :
    bytesOf (some op :: waiting) = op.byte :: bytesOf waiting := by
  rw [bytesOf, List.reduceOption_cons_of_some]
  rfl

theorem bytesOf_pushTo_none (waiting : List Waiting) :
    bytesOf (pushTo 16 waiting none) = bytesOf waiting := by
  unfold pushTo
  split
  · exact bytesOf_none waiting
  · rfl

/-- A closing parenthesis takes the open one along. -/
theorem bytesOf_tail (waiting : List Waiting) :
    bytesOf (waiting.dropWhile (·.isSome)).tail = bytesOf (waiting.dropWhile (·.isSome)) := by
  rcases h : waiting.dropWhile (·.isSome) with _ | ⟨_ | op, rest⟩
  · rw [h, List.tail_nil]
  · rw [h, List.tail_cons, bytesOf_none]
  · have hhead := List.head?_dropWhile_not (·.isSome) waiting
    rw [h] at hhead
    cases hhead

theorem count_oper (op op' : Op) :
    [Lexeme.oper op.byte].count (.oper op'.byte) = [op].count op' := by
  have hinj : Function.Injective fun op : Op => Lexeme.oper op.byte :=
    fun _ _ h => Op.byte_injective (Lexeme.oper.inj h)
  exact List.count_map_of_injective [op] _ hinj op'

theorem count_byte_cons (op op' : Op) (l : List UInt8) :
    (op.byte :: l).count op'.byte = l.count op'.byte + [op].count op' := by
  rw [← List.singleton_append, List.count_append, Nat.add_comm]
  exact congrArg _ (List.count_map_of_injective [op] _ Op.byte_injective op')

/-- **One lexeme**: what is printed, what waits then and what is lost. -/
theorem step_account (waiting : List Waiting) (l : Lexeme) (op : Op) :
    (released waiting l).count op.byte + (bytesOf (after waiting l)).count op.byte +
        (dropped waiting l).count op =
      (bytesOf waiting).count op.byte + [l].count (.oper op.byte) := by
  cases l with
  | operand w => simp [released, after, dropped]
  | oper c =>
      rw [released, after, dropped]
      rcases known_cases c with rfl | rfl | ⟨op', rfl⟩ | hunknown
      · -- an opening parenthesis is pushed or lost, and is no operator
        have hne : Lexeme.oper (chr '(') ≠ .oper op.byte := fun e =>
          op.byte_ne_open (Lexeme.oper.inj e).symm
        rw [if_pos rfl, if_pos rfl, bytesOf_pushTo_none, List.count_cons_of_ne hne]
        rw [show toOp (chr '(') = none from rfl]
        simp
      · -- a closing one prints what lies above the open one
        have hne : Lexeme.oper (chr ')') ≠ .oper op.byte := fun e =>
          op.byte_ne_close (Lexeme.oper.inj e).symm
        rw [if_neg (by decide), if_pos rfl, if_neg (by decide), if_pos rfl, bytesOf_tail,
          count_split, List.count_cons_of_ne hne]
        rw [show toOp (chr ')') = none from rfl]
        simp
      · -- an operator prints what it pops, and waits if there is room
        rw [if_neg op'.byte_ne_open, if_neg op'.byte_ne_close, if_neg op'.byte_ne_open,
          if_neg op'.byte_ne_close, toOp_byte]
        have hsplit := count_split (!op'.under ·) waiting op.byte
        rw [count_oper]
        simp only
        unfold pushTo
        split
        · rw [bytesOf_some, count_byte_cons, List.count_nil]
          omega
        · omega
      · have hne : Lexeme.oper c ≠ .oper op.byte := by
          intro e
          exact hunknown (.inr (.inr ⟨op, Lexeme.oper.inj e⟩))
        rw [if_neg fun e => hunknown (.inl e), if_neg fun e => hunknown (.inr (.inl e)),
          if_neg fun e => hunknown (.inl e), if_neg fun e => hunknown (.inr (.inl e)),
          toOp_unknown hunknown, List.count_cons_of_ne hne]
        simp

/-- The rest of a run in which all parentheses match. -/
theorem matched_after {waiting : List Waiting} {l : Lexeme} {ls : List Lexeme} (hl : l.Fits)
    (h : ¬ Unmatched waiting (l :: ls)) : ¬ Unmatched (after waiting l) ls := by
  intro hun
  apply h
  cases l with
  | operand w => exact ⟨hl, hun⟩
  | oper c =>
      rw [after] at hun
      rw [Unmatched]
      split at hun
      · rw [if_pos (by assumption)]
        exact hun
      · rw [if_neg (by assumption)]
        split at hun
        · rw [if_pos (by assumption)]
          exact .inr hun
        · rw [if_neg (by assumption)]
          rcases hop : toOp c with _ | op
          · rw [hop] at hun
            exact hun
          · rw [hop] at hun
            exact hun

theorem map_fst_mark (l : List UInt8) (k : ℕ) : (l.map (·, k)).map Prod.fst = l := by
  rw [List.map_map]
  exact List.map_id l

/-- **A run** in which all parentheses match. -/
theorem places_account {waiting : List Waiting} {ls : List Lexeme} (hfit : ∀ l ∈ ls, l.Fits)
    (hmatch : ¬ Unmatched waiting ls) (k : ℕ) (op : Op) :
    ((places k waiting ls).map Prod.fst).count op.byte + (lost waiting ls).count op =
      (bytesOf waiting).count op.byte + ls.count (.oper op.byte) := by
  induction ls generalizing k waiting with
  | nil =>
      have hall : waiting.takeWhile (·.isSome) = waiting := by
        apply List.takeWhile_eq_self_iff.mpr
        intro m hm
        apply Option.isSome_iff_ne_none.mpr
        rintro rfl
        exact hmatch hm
      rw [places, hall, map_fst_mark, lost, List.count_nil, List.count_nil]
  | cons l ls ih =>
      obtain ⟨hl, hfit⟩ := List.forall_mem_cons.mp hfit
      have hstep := step_account waiting l op
      have hrest := ih hfit (matched_after hl hmatch) (k + l.word.flatten.length)
      rw [places, List.map_append, List.count_append, map_fst_mark, lost, List.count_append,
        ← List.singleton_append, List.count_append]
      omega

theorem waitingOf_length (ch : ℤ) : (waitingOf ch).length ≤ 1 := by
  unfold waitingOf
  split
  · exact le_rfl
  · split
    · exact le_rfl
    · exact Nat.zero_le 1

/-- The first operator does not print what `ch` passes for. -/
theorem after_first (ch : ℤ) (op op' : Op) :
    (bytesOf (after (waitingOf ch) (.oper op.byte))).count op'.byte =
      ((waitingOf ch).dropWhile (!op.under ·)).reduceOption.count op' + [op].count op' := by
  have hroom : ((waitingOf ch).dropWhile (!op.under ·)).length < 16 := by
    have hdrop := List.length_dropWhile_le (!op.under ·) (waitingOf ch)
    have hone := waitingOf_length ch
    omega
  rw [after, if_neg op.byte_ne_open, if_neg op.byte_ne_close, toOp_byte]
  simp only
  rw [pushTo, if_pos hroom, bytesOf_some, count_byte_cons, bytesOf]
  rw [List.count_map_of_injective _ _ Op.byte_injective]

/-- **The account of a run** from the start. -/
theorem placesFrom_account {ch : ℤ} {ls : List Lexeme} (hfit : ∀ l ∈ ls, l.Fits)
    (hopens : ¬ OpensFirst ls) (hmatch : ¬ Unmatched (waitingOf ch) ls) (k : ℕ) (op : Op) :
    ((placesFrom ch k ls).map Prod.fst).count op.byte + (lostFrom ch ls).count op =
      (invented ch ls).count op + ls.count (.oper op.byte) := by
  induction ls generalizing k with
  | nil => rfl
  | cons l ls ih =>
      obtain ⟨hl, hfits⟩ := List.forall_mem_cons.mp hfit
      have hrest := matched_after hl hmatch
      cases l with
      | operand w =>
          have hne : Lexeme.operand w ≠ .oper op.byte := Lexeme.noConfusion
          rw [List.count_cons_of_ne hne]
          exact ih hfits hopens hrest _
      | oper c =>
          rw [placesFrom, lostFrom, invented]
          rcases known_cases c with rfl | rfl | ⟨op', rfl⟩ | hunknown
          · exact absurd (.inl rfl) hopens
          · -- nothing is open
            refine absurd ?_ hmatch
            rw [Unmatched, if_neg (by decide), if_pos rfl]
            exact .inl (none_notMem_waitingOf ch)
          · -- from here on the run is busy, with the invented operator at the bottom
            have hbusy := places_account hfits hrest k op
            have hfirst := after_first ch op' op
            rw [toOp_byte, ← List.singleton_append, List.count_append, count_oper]
            simp only
            omega
          · have hne : Lexeme.oper c ≠ .oper op.byte := by
              intro e
              exact hunknown (.inr (.inr ⟨op, Lexeme.oper.inj e⟩))
            have hafter : after (waitingOf ch) (.oper c) = waitingOf ch := by
              rw [after, if_neg fun e => hunknown (.inl e),
                if_neg fun e => hunknown (.inr (.inl e)), toOp_unknown hunknown]
            rw [hafter] at hrest
            rw [toOp_unknown hunknown, List.count_cons_of_ne hne]
            exact ih hfits (fun h => hopens (.inr ⟨hunknown, h⟩)) hrest k

/-! ### What is printed -/

/-- Behind the operators comes the newline. -/
theorem line_count {ch : ℤ} {inp : List UInt8} {out : List (List UInt8)}
    (hrun : convert ch inp = some ⟨0, out⟩) {c : UInt8} (hc : isalnum c = false)
    (hline : c ≠ chr '\n') :
    out.flatten.count c = ((placesFrom ch 0 (lexemes inp)).map Prod.fst).count c := by
  rw [← count_marks hc 0, (line_shape hrun).marks, lineMarks, List.map_append, List.count_append,
    List.map_singleton, List.count_cons_of_ne hline.symm, List.count_nil, Nat.add_zero]

theorem op_of_mem_bytesOf {waiting : List Waiting} {c : UInt8} (h : c ∈ bytesOf waiting) :
    ∃ op : Op, c = op.byte := by
  obtain ⟨op, -, rfl⟩ := List.mem_map.mp h
  exact ⟨op, rfl⟩

theorem op_of_mem_released {waiting : List Waiting} {l : Lexeme} {c : UInt8}
    (h : c ∈ released waiting l) : ∃ op : Op, c = op.byte := by
  cases l with
  | operand w => exact absurd h List.not_mem_nil
  | oper d =>
      rw [released] at h
      split at h
      · exact absurd h List.not_mem_nil
      · split at h
        · exact op_of_mem_bytesOf h
        · split at h
          · exact op_of_mem_bytesOf h
          · exact absurd h List.not_mem_nil

theorem op_of_mem_places {k : ℕ} {waiting : List Waiting} {ls : List Lexeme} {c : UInt8}
    (h : c ∈ (places k waiting ls).map Prod.fst) : ∃ op : Op, c = op.byte := by
  induction ls generalizing k waiting with
  | nil =>
      rw [places, map_fst_mark] at h
      exact op_of_mem_bytesOf h
  | cons l ls ih =>
      rw [places, List.map_append, map_fst_mark] at h
      rcases List.mem_append.mp h with h | h
      · exact op_of_mem_released h
      · exact ih h

/-- Only operators are marks. -/
theorem op_of_mem_placesFrom {ch : ℤ} {k : ℕ} {ls : List Lexeme} {c : UInt8}
    (h : c ∈ (placesFrom ch k ls).map Prod.fst) : ∃ op : Op, c = op.byte := by
  induction ls generalizing k with
  | nil => exact absurd h List.not_mem_nil
  | cons l ls ih =>
      cases l with
      | operand w => exact ih h
      | oper d =>
          rw [placesFrom] at h
          split at h
          · exact op_of_mem_places h
          · exact ih h

/-- No parenthesis is printed. -/
theorem line_notMem {ch : ℤ} {inp : List UInt8} {out : List (List UInt8)}
    (hrun : convert ch inp = some ⟨0, out⟩) {c : UInt8} (hc : isalnum c = false)
    (hline : c ≠ chr '\n') (hop : ∀ op : Op, op.byte ≠ c) : c ∉ out.flatten := by
  rw [← List.count_eq_zero, line_count hrun hc hline, List.count_eq_zero]
  intro hmem
  obtain ⟨op, rfl⟩ := op_of_mem_placesFrom hmem
  exact hop op rfl

/-! ### When nothing is lost -/

theorem invented_length (ch : ℤ) (ls : List Lexeme) : (invented ch ls).length ≤ 1 := by
  induction ls with
  | nil => exact Nat.zero_le 1
  | cons l ls ih =>
      cases l with
      | operand w => exact ih
      | oper c =>
          rw [invented]
          split
          · have hreduce := List.reduceOption_length_le
              ((waitingOf ch).dropWhile (!Op.under ‹Op› ·))
            have hdrop := List.length_dropWhile_le (!Op.under ‹Op› ·) (waitingOf ch)
            exact hreduce.trans (hdrop.trans (waitingOf_length ch))
          · exact ih

/-- **When the converter loses nothing**: every operator finds room, and the
initial `ch` does not pass for one; or else the only one that finds no room is
the one that `ch` passes for. -/
theorem convert_conserves_iff {ch : ℤ} {inp : List UInt8} {out : List (List UInt8)}
    (hrun : convert ch inp = some ⟨0, out⟩) :
    Conserves (lexemes inp) out ↔ lostFrom ch (lexemes inp) = invented ch (lexemes inp) := by
  obtain ⟨hfit, hjams, hmatch⟩ := matched_of_run hrun
  have haccount := placesFrom_account hfit (fun h => hjams (.inr h)) hmatch 0
  have hcount := fun op : Op => line_count hrun (isalnum_byte op) (by cases op <;> decide)
  constructor
  · intro h
    have hperm : (lostFrom ch (lexemes inp)).Perm (invented ch (lexemes inp)) := by
      rw [List.perm_iff_count]
      intro op
      have hread := (hcount op).symm.trans (h.operators op)
      have hbalance := haccount op
      omega
    -- at most one operator is invented
    rcases hinv : invented ch (lexemes inp) with _ | ⟨op, rest⟩
    · rw [hinv] at hperm
      exact hperm.eq_nil
    · have hlen := invented_length ch (lexemes inp)
      rw [hinv, List.length_cons] at hlen
      obtain rfl := List.length_eq_zero_iff.mp (by omega : rest.length = 0)
      rw [hinv] at hperm
      exact List.perm_singleton.mp hperm
  · intro h
    refine ⟨(line_shape hrun).words, fun op => ?_, ?_, ?_⟩
    · have hbalance := haccount op
      rw [h] at hbalance
      rw [hcount op]
      omega
    · exact line_notMem hrun rfl (by decide) Op.byte_ne_open
    · exact line_notMem hrun rfl (by decide) Op.byte_ne_close

/-- `a+b*c`, with nothing in `ch`. -/
theorem convert_conserves_short :
    Conserves (lexemes (bytes "a+b*c"))
        [bytes "a", bytes "b", bytes "c", bytes "*", bytes "+", bytes "\n"] ↔
      lostFrom 0 (lexemes (bytes "a+b*c")) = invented 0 (lexemes (bytes "a+b*c")) :=
  convert_conserves_iff (by decide : convert 0 (bytes "a+b*c") =
    some ⟨0, [bytes "a", bytes "b", bytes "c", bytes "*", bytes "+", bytes "\n"]⟩)

/-- With 15 open parentheses behind an operator the next one is lost, and with
`+` in `ch` one is printed that is not in `a*b`. -/
theorem not_convert_conserves :
    ¬ (∀ (ch : ℤ) (inp : List UInt8) (out : List (List UInt8)),
      convert ch inp = some ⟨0, out⟩ → Conserves (lexemes inp) out) ∧
    convert 0 (bytes "a+(((((((((((((((b+c)))))))))))))))") =
      some ⟨0, [bytes "a", bytes "b", bytes "c", bytes "+", bytes "\n"]⟩ ∧
    convert (code '+') (bytes "a*b") =
      some ⟨0, [bytes "a", bytes "b", bytes "*", bytes "+", bytes "\n"]⟩ := by
  have hdeep : convert 0 (bytes "a+(((((((((((((((b+c)))))))))))))))") =
      some ⟨0, [bytes "a", bytes "b", bytes "c", bytes "+", bytes "\n"]⟩ := by decide +kernel
  refine ⟨fun hevery => ?_, hdeep, by decide⟩
  have hcount := (hevery 0 _ _ hdeep).operators .add
  exact absurd hcount (by decide +kernel)

end ExpressionConvert

end CodeSnippet
