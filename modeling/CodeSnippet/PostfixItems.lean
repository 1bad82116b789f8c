/-
CodeSnippet/PostfixItems.lean

The evaluator of src/algorithm/stack/app/postfixExpression.c on any input, as a
machine on the items that it reads.

The token reader keeps a byte in a `char`, so byte 255 looks like `EOF`: it ends
the input, or is lost if it comes directly behind a number (`readable`).

Main results:
  * `getop_items` — the token reader finds the next item.
  * `mainLoop_items` — the program is the machine on the items.
-/
import CodeSnippet.PostfixExpression
import CodeSnippet.TokenStream

namespace CodeSnippet

open Memory Postfix

namespace PostfixExpression

/-! ### Byte 255 -/

/-- The input that is read, when the byte before it is a digit or not.  What
stands in the place of a lost byte separates items. -/
def readable (digit : Bool) : List UInt8 → List UInt8
  | [] => []
  | c :: cs =>
      if c = eofByte then
        if digit then chr ' ' :: readable false cs else []
      else c :: readable (isdigit c) cs

/-- The input ends before its last byte is read. -/
def endsEarly (digit : Bool) : List UInt8 → Bool
  | [] => false
  | c :: cs =>
      if c = eofByte then
        if digit then endsEarly false cs else true
      else endsEarly (isdigit c) cs

/-- A line and what follows it. -/
theorem readable_append (l rest : List UInt8) (digit : Bool) :
    readable digit (l ++ chr '\n' :: rest) =
      if endsEarly digit l then readable digit l
      else readable digit l ++ chr '\n' :: readable false rest := by
  induction l generalizing digit with
  | nil => rfl
  | cons c l ih =>
      rw [List.cons_append, readable, readable, endsEarly]
      by_cases hc : c = eofByte
      · rw [if_pos hc, if_pos hc, if_pos hc]
        cases digit with
        | false => rfl
        | true =>
            simp only [if_true]
            rw [ih]
            split
            · rfl
            · rfl
      · rw [if_neg hc, if_neg hc, if_neg hc, ih]
        split
        · rfl
        · rfl

theorem endsEarly_append (l rest : List UInt8) (digit : Bool) :
    endsEarly digit (l ++ chr '\n' :: rest) = (endsEarly digit l || endsEarly false rest) := by
  induction l generalizing digit with
  | nil => rfl
  | cons c l ih =>
      rw [List.cons_append, endsEarly, endsEarly]
      by_cases hc : c = eofByte
      · rw [if_pos hc, if_pos hc]
        cases digit with
        | false => rfl
        | true => exact ih false
      · rw [if_neg hc, if_neg hc, ih]

/-- Blanks in front are kept. -/
theorem readable_blanks {b : List UInt8} (hb : ∀ c ∈ b, isblank c = true) (rest : List UInt8) :
    items (readable false (b ++ rest)) = items (readable false rest) := by
  induction b with
  | nil => rfl
  | cons c b ih =>
      obtain ⟨hc, hb⟩ := List.forall_mem_cons.mp hb
      have heof : c ≠ eofByte := by
        rintro rfl
        cases hc
      have hdigit : isdigit c = false := by
        by_contra h
        rw [ExpressionConvert.isblank_eq_false_of_isdigit (Bool.of_not_eq_false h)] at hc
        cases hc
      rw [List.cons_append, readable, if_neg heof, hdigit, items_blank hc, ih hb]

/-- The rest behind a number. -/
theorem items_readable_afterRun {w rest : List UInt8} (hne : w ≠ [])
    (hw : ∀ c ∈ w, isdigit c = true) (hrest : rest.head?.any isdigit = false) :
    items (readable false (w ++ rest)) = .number w :: items (readable false (afterRun rest)) := by
  have hrun : ∀ (w : List UInt8), (∀ c ∈ w, isdigit c = true) → ∀ digit,
      (w = [] → digit = true) → readable digit (w ++ rest) = w ++ readable true rest := by
    intro w
    induction w with
    | nil =>
        intro _ digit h
        rw [h rfl]
        rfl
    | cons c w ih =>
        intro hw digit _
        obtain ⟨hc, hw⟩ := List.forall_mem_cons.mp hw
        have heof : c ≠ eofByte := by
          rintro rfl
          cases hc
        rw [List.cons_append, readable, if_neg heof, ih hw (isdigit c) fun _ => hc,
          List.cons_append]
  rw [hrun w hw false fun h => absurd h hne]
  cases rest with
  | nil =>
      rw [readable, List.append_nil]
      exact (congrArg items (List.append_nil w)).symm.trans (items_number hne hw rfl)
  | cons c cs =>
      rw [readable, afterRun]
      by_cases hc : c = eofByte
      · rw [if_pos hc, if_pos hc, if_pos rfl, items_number hne hw rfl, items_blank rfl]
      · have hhead : (c :: readable (isdigit c) cs).head?.any isdigit = false := hrest
        rw [if_neg hc, if_neg hc, items_number hne hw hhead, readable, if_neg hc]

theorem items_readable_dropWhile (inp : List UInt8) :
    items (readable false (inp.dropWhile isblank)) = items (readable false inp) := by
  conv_rhs => rw [← List.takeWhile_append_dropWhile (p := isblank) (l := inp)]
  exact (readable_blanks (fun c => List.mem_takeWhile_imp) _).symm

/-- **The first item that is read**, and the rest. -/
theorem items_readable_eq {inp cs : List UInt8} {c : UInt8} (h : inp.dropWhile isblank = c :: cs) :
    items (readable false inp) =
      if c = eofByte then []
      else if isdigit c then .number (c :: cs.takeWhile isdigit) ::
        items (readable false (afterRun (cs.dropWhile isdigit)))
      else .char c :: items (readable false cs) := by
  have hblank := head?_dropWhile (p := isblank) inp
  rw [h] at hblank
  rw [← items_readable_dropWhile, h]
  split
  · rename_i heof
    rw [readable, if_pos heof]
    rfl
  · rename_i heof
    split
    · rename_i hdigit
      have hrun : ∀ d ∈ c :: cs.takeWhile isdigit, isdigit d = true :=
        List.forall_mem_cons.mpr ⟨hdigit, fun d => List.mem_takeWhile_imp⟩
      rw [← items_readable_afterRun (List.cons_ne_nil _ _) hrun (head?_dropWhile cs),
        List.cons_append, List.takeWhile_append_dropWhile]
    · rename_i hdigit
      rw [readable, if_neg heof, Bool.of_not_eq_true hdigit,
        items_char hblank (Bool.of_not_eq_true hdigit)]

/-! ### The token reader -/

/-- **The token reader finds the next item**, and overruns `s` for a number of
more than 7 digits. -/
theorem getop_items {s : Block UInt8} (hs : s.size = 8) (inp : List UInt8) :
    match inp.dropWhile isblank with
    | [] => ∃ s' inp', getop s inp = some (.endOfInput, s', inp')
    | c :: cs =>
        if c = eofByte then ∃ s' inp', getop s inp = some (.endOfInput, s', inp')
        else if isdigit c then
          if (c :: cs.takeWhile isdigit).length ≤ 7 then
            ∃ s', getop s inp = some (.number, s', afterRun (cs.dropWhile isdigit)) ∧ s'.size = 8 ∧
              cString s' = c :: cs.takeWhile isdigit
          else getop s inp = none
        else ∃ s', getop s inp = some (.operator, s', cs) ∧ s'.size = 8 ∧ s'.cell 0 = c ∧
          s'.cell 1 = 0 := by
  obtain ⟨s₁, hskip, hsize, hcell⟩ := skipBlanks_spec (show 0 < s.size by omega) inp
  rw [hs] at hsize
  rcases h : inp.dropWhile isblank with _ | ⟨c, cs⟩
  · rw [h] at hskip hcell
    have hend : s₁.cell 0 = eofByte := hcell
    refine ⟨s₁.set 1 0, [], ?_⟩
    rw [getop, hskip]
    simp only [Option.bind_eq_bind, Option.bind_some]
    rw [Block.load_eq (by omega), Option.bind_some, if_pos hend, Block.store_eq (by omega)]
    rfl
  · rw [h] at hskip hcell
    have hc : s₁.cell 0 = c := hcell.trans (storedByte_toNat c)
    have hskip : skipBlanks s inp = some (s₁, (c.toNat : ℤ), cs) := hskip
    simp only
    rw [getop, hskip]
    simp only [Option.bind_eq_bind, Option.bind_some]
    rw [Block.load_eq (by omega), Option.bind_some, hc]
    split
    · rename_i heof
      rw [Block.store_eq (by omega)]
      exact ⟨s₁.set 1 0, cs, rfl⟩
    · rename_i heof
      split
      · rename_i hdigit
        have hread := readOperand_spec (show isdigit 0 = false from rfl) hsize
          (hc.symm ▸ hdigit) cs
        rw [hc] at hread
        split
        · rename_i hlen
          rw [if_pos hlen] at hread
          obtain ⟨s', hread, hsize', hstring⟩ := hread
          refine ⟨s', ?_, hsize', hstring⟩
          rw [hread]
          rfl
        · rename_i hlen
          rw [if_neg hlen] at hread
          rw [hread]
          rfl
      · rw [Block.store_eq (by omega)]
        refine ⟨s₁.set 1 0, rfl, hsize, ?_, rfl⟩
        rw [Block.set_cell, if_neg Nat.zero_ne_one, hc]

/-! ### The machine -/

def opOf (c : UInt8) : Option Op :=
  if c = chr '+' then some .add
  else if c = chr '-' then some .sub
  else if c = chr '*' then some .mul
  else if c = chr '/' then some .div
  else none

theorem opOf_eq_some {c : UInt8} {op : Op} (h : opOf c = some op) : c = op.byte := by
  rw [opOf] at h
  repeat' split at h
  · rename_i hc
    obtain rfl := Option.some.inj h
    exact hc
  · rename_i hc
    obtain rfl := Option.some.inj h
    exact hc
  · rename_i hc
    obtain rfl := Option.some.inj h
    exact hc
  · rename_i hc
    obtain rfl := Option.some.inj h
    exact hc
  · cases h

theorem opOf_byte (op : Op) : opOf op.byte = some op := by
  cases op <;> rfl

/-- The stack with `op1` and `op2`, and what was printed. -/
structure Trace where
  state : Postfix.State ℤ
  out : List ℤ

/-- One item. -/
def Trace.step (tr : Trace) : Item → Option Trace
  | .number w => some { tr with state := { tr.state with stack := pushTo 16 tr.state.stack (decimal w) } }
  | .char c =>
      match opOf c with
      | some op => (machine.step tr.state (.op op)).map fun state => { tr with state := state }
      | none =>
          if c = chr '\n' then
            some ⟨⟨tr.state.stack.tail, tr.state.stack.headD tr.state.left, tr.state.right⟩,
              tr.out ++ [tr.state.stack.headD tr.state.left]⟩
          else some tr

def Trace.run (tr : Trace) (ts : List Item) : Option Trace := ts.foldlM Trace.step tr

theorem Trace.run_cons (tr : Trace) (t : Item) (ts : List Item) :
    tr.run (t :: ts) = (tr.step t).bind fun tr => tr.run ts := rfl

theorem Trace.run_append (tr : Trace) (ts us : List Item) :
    tr.run (ts ++ us) = (tr.run ts).bind fun tr => tr.run us :=
  List.foldlM_append

/-- What is printed stays. -/
theorem Trace.run_out {tr tr' : Trace} {ts : List Item} (h : tr.run ts = some tr') :
    tr.out <+: tr'.out := by
  induction ts generalizing tr with
  | nil =>
      obtain rfl := Option.some.inj h
      exact List.prefix_rfl
  | cons t ts ih =>
      rw [Trace.run_cons] at h
      obtain ⟨tr₁, hstep, hrun⟩ := Option.bind_eq_some_iff.mp h
      refine List.IsPrefix.trans ?_ (ih hrun)
      cases t with
      | number w =>
          obtain rfl := Option.some.inj hstep
          exact List.prefix_rfl
      | char c =>
          rw [Trace.step] at hstep
          split at hstep
          · obtain ⟨m, -, rfl⟩ := Option.map_eq_some_iff.mp hstep
            exact List.prefix_rfl
          · split at hstep
            · obtain rfl := Option.some.inj hstep
              exact List.prefix_append ..
            · obtain rfl := Option.some.inj hstep
              exact List.prefix_rfl

/-! ### The program -/

/-- The program is at this point of the trace. -/
structure State.Shows (st : State) (tr : Trace) : Prop where
  state : st.machine = tr.state
  max : st.stack.max = 16
  out : st.out = tr.out

/-- A character in the program. -/
theorem operate_char {st : State} {tr : Trace} (h : st.Shows tr) (c : UInt8) :
    match tr.step (.char c) with
    | some tr' => ∃ st', operate c st = some st' ∧ st'.Shows tr'
    | none => operate c st = none := by
  rw [Trace.step]
  rcases hop : opOf c with _ | op
  · have hoperate : operate c st = if c = chr '\n' then
        some ⟨(stackPop st.stack st.op1).2.1, (stackPop st.stack st.op1).2.2, st.op2,
          st.out ++ [(stackPop st.stack st.op1).2.2]⟩ else some st := by
      rw [opOf] at hop
      rw [operate]
      repeat' split at hop
      · cases hop
      · cases hop
      · cases hop
      · cases hop
      · rename_i hadd hsub hmul hdiv
        rw [if_neg hadd, if_neg hsub, if_neg hmul, if_neg hdiv]
    simp only [hoperate]
    by_cases hnl : c = chr '\n'
    · obtain ⟨hcontents, hop1, hmax⟩ := stackPop_contents st.stack st.op1
      have hstack : st.stack.contents = tr.state.stack := congrArg Postfix.State.stack h.state
      have hleft : st.op1 = tr.state.left := congrArg Postfix.State.left h.state
      have hright : st.op2 = tr.state.right := congrArg Postfix.State.right h.state
      rw [hstack, hleft] at hop1
      rw [if_pos hnl, if_pos hnl]
      refine ⟨_, rfl, ?_, hmax.trans h.max, ?_⟩
      · show (⟨(stackPop st.stack st.op1).2.1.contents, (stackPop st.stack st.op1).2.2, st.op2⟩ :
          Postfix.State ℤ) = _
        rw [hcontents, hleft, hop1, hstack, hright]
      · show st.out ++ [(stackPop st.stack st.op1).2.2] = _
        rw [hleft, hop1, h.out]
    · rw [if_neg hnl, if_neg hnl]
      exact ⟨st, rfl, h⟩
  · obtain rfl := opOf_eq_some hop
    obtain ⟨hsome, hnone⟩ := operate_op h.max op
    rw [h.state] at hsome hnone
    simp only
    rcases hstep : machine.step tr.state (.op op) with _ | m
    · exact hnone hstep
    · obtain ⟨st', hoperate, hstate, hmax, hout⟩ := hsome m hstep
      exact ⟨st', hoperate, hstate, hmax, hout.trans h.out⟩

theorem State.Shows.push {st : State} {tr : Trace} (h : st.Shows tr) (data : ℤ) :
    (st.push data).Shows
      { tr with state := { tr.state with stack := pushTo 16 tr.state.stack data } } := by
  obtain ⟨hmachine, hmax⟩ := push_machine h.max data
  refine ⟨?_, hmax, h.out⟩
  rw [hmachine, h.state]

/-- **The program is the machine on the items that it reads**, if all of them
fit into `s`. -/
theorem mainLoop_items {fuel : ℕ} {inp : List UInt8} (hfuel : inp.length < fuel) {s : Block UInt8}
    (hs : s.size = 8) {st : State} {tr : Trace} (h : st.Shows tr) :
    mainLoop fuel s st inp =
      if ∀ t ∈ items (readable false inp), t.Fits then
        (tr.run (items (readable false inp))).map Trace.out
      else none := by
  induction fuel generalizing inp s st tr with
  | zero => exact absurd hfuel (Nat.not_lt_zero _)
  | succ fuel ih =>
      have hget := getop_items hs inp
      have hend : items (readable false inp) = [] →
          (∃ s' inp', getop s inp = some (.endOfInput, s', inp')) →
          mainLoop (fuel + 1) s st inp =
            if ∀ t ∈ items (readable false inp), t.Fits then
              (tr.run (items (readable false inp))).map Trace.out
            else none := by
        rintro hnil ⟨s', inp', hget⟩
        rw [mainLoop, hget, hnil, if_pos fun t ht => absurd ht List.not_mem_nil]
        exact congrArg some h.out
      rcases hinp : inp.dropWhile isblank with _ | ⟨c, cs⟩
      · rw [hinp] at hget
        refine hend ?_ hget
        rw [← items_readable_dropWhile, hinp]
        rfl
      · have hle : (c :: cs).length ≤ inp.length := by
          rw [← hinp]
          exact List.length_dropWhile_le ..
        have hdrop : (cs.dropWhile isdigit).length ≤ cs.length := List.length_dropWhile_le ..
        have hafter := length_afterRun_le (cs.dropWhile isdigit)
        have hitems := items_readable_eq hinp
        rw [List.length_cons] at hle
        rw [hinp] at hget
        simp only at hget
        split at hget
        · rename_i heof
          rw [if_pos heof] at hitems
          exact hend hitems hget
        · rename_i heof
          rw [if_neg heof] at hitems
          split at hget
          · rename_i hdigit
            rw [if_pos hdigit] at hitems
            rw [hitems]
            split at hget
            · rename_i hlen
              obtain ⟨s', hget, hs', hstring⟩ := hget
              have hfits : (Item.number (c :: cs.takeWhile isdigit)).Fits := hlen
              rw [mainLoop, hget, if_congr (Item.forall_fits_cons hfits _) rfl rfl, Trace.run_cons]
              simp only [Option.bind_eq_bind, Option.bind_some]
              rw [hstring, atoi_digits (List.cons_ne_nil _ _) (List.forall_mem_cons.mpr
                ⟨hdigit, fun d => List.mem_takeWhile_imp⟩), ih (by omega) hs' (h.push _)]
              rfl
            · rename_i hlen
              rw [mainLoop, hget, if_neg fun hfits => hlen (hfits _ (List.mem_cons_self ..))]
              rfl
          · rename_i hdigit
            rw [if_neg hdigit] at hitems
            obtain ⟨s', hget, hs', hcell, -⟩ := hget
            have hoperate := operate_char h c
            have hfits : (Item.char c).Fits := trivial
            rw [hitems, mainLoop, hget, if_congr (Item.forall_fits_cons hfits _) rfl rfl,
              Trace.run_cons]
            simp only [Option.bind_eq_bind, Option.bind_some]
            rw [Block.load_eq (by omega), Option.bind_some, hcell]
            rcases hstep : tr.step (.char c) with _ | tr'
            · rw [hstep] at hoperate
              have hnone : operate c st = none := hoperate
              rw [hnone, Option.bind_none, Option.bind_none, Option.map_none, ite_self]
            · rw [hstep] at hoperate
              obtain ⟨st', hst', hshows⟩ := hoperate
              rw [hst', Option.bind_some, Option.bind_some, ih (by omega) hs' hshows]

/-- The items that are read. -/
def seen (inp : List UInt8) : List Item := items (readable false inp)

theorem postfixExpression_items (s : ℕ → UInt8) (op1 op2 : ℤ) (inp : List UInt8) :
    postfixExpression s op1 op2 inp =
      if ∀ t ∈ seen inp, t.Fits then (Trace.run ⟨⟨[], op1, op2⟩, []⟩ (seen inp)).map Trace.out
      else none :=
  mainLoop_items (Nat.lt_succ_self _) rfl ⟨rfl, rfl, rfl⟩

end PostfixExpression

end CodeSnippet
