/-
CodeSnippet/ExpressionConvert.lean

The converter from infix to postfix notation of
src/algorithm/stack/app/expressionConvert.c, and what it amounts to: a machine
that reads lexemes and keeps a list of pending operators and parentheses.

Main results:
  * `getop_spec` — the token reader reads the next lexeme, if it fits `s`.
  * `convert_eq` — the program is the run of the machine on the lexemes of its
    input.
-/
import CodeSnippet.CharStream
import CodeSnippet.SeqStack

namespace CodeSnippet

namespace ExpressionConvert

open Memory

/-! ### The token reader -/

/-- Return value of `getop`. -/
inductive OpType
  | endOfInput
  | alpha
  | number
  | operator
  deriving DecidableEq

def getop (s : Block UInt8) (inp : List UInt8) : Option (OpType × Block UInt8 × List UInt8) := do
  let (s, _, inp) ← skipBlanks s inp
  let c ← s.load 0
  if c = eofByte then
    let s ← s.store 1 0
    return (.endOfInput, s, inp)
  else if isalpha c then
    let (s, inp) ← readOperand isalpha s inp
    return (.alpha, s, inp)
  else if isdigit c then
    let (s, inp) ← readOperand isdigit s inp
    return (.number, s, inp)
  else
    let s ← s.store 1 0
    return (.operator, s, inp)

/-! ### The program -/

/-- The local variables of `main`, and what was written so far: one list of
bytes for each call of `printf` or `putchar`. -/
structure State where
  stack : SeqStack
  ch : ℤ
  out : List (List UInt8)

/-- The return value and the output of the program. -/
structure Exit where
  ret : ℤ
  out : List (List UInt8)
  deriving DecidableEq

/-- `ch == '('` -/
def isParen (ch : ℤ) : Bool := ch == code '('

/-- `ch == '(' || ch == '+' || ch == '-'` -/
def isParenOrLow (ch : ℤ) : Bool := ch == code '(' || ch == code '+' || ch == code '-'

/-- `while (stack_pop(stack, &ch) != -1 && !stop(ch)) putchar(ch);`.  Every
iteration takes an entry, so `top + 1` of them are enough. -/
def popLoop (stop : ℤ → Bool) : ℕ → State → State
  | 0, st => st
  | n + 1, st =>
      let (ret, stack, ch) := stackPop st.stack st.ch
      if ret ≠ -1 ∧ stop ch = false then
        popLoop stop n ⟨stack, ch, st.out ++ [[putchar ch]]⟩
      else ⟨stack, ch, st.out⟩

def popWhileNot (stop : ℤ → Bool) (st : State) : State := popLoop stop (st.stack.top + 1) st

def State.push (st : State) (data : ℤ) : State :=
  { st with stack := (stackPush st.stack data).2 }

/-- The operators, by `s[0]`; the error is `goto err`. -/
def operate (c : UInt8) (st : State) : Except State State :=
  if c = chr '(' then
    .ok (st.push (charInt c))
  else if c = chr ')' then
    let st := popWhileNot isParen st
    if st.ch ≠ code '(' then .error st else .ok st
  else if c = chr '+' ∨ c = chr '-' then
    let st := popWhileNot isParen st
    let st := if st.ch = code '(' then st.push st.ch else st
    .ok (st.push (charInt c))
  else if c = chr '*' ∨ c = chr '/' then
    let st := popWhileNot isParenOrLow st
    let st := if st.ch = code '(' ∨ st.ch = code '+' ∨ st.ch = code '-' then st.push st.ch else st
    .ok (st.push (charInt c))
  else
    -- the message goes to stderr
    .ok st

/-- The label `err`. -/
def err (out : List (List UInt8)) : Exit := ⟨-1, out ++ [bytes "Error!\n"]⟩

/-- After the loop. -/
def finish (st : State) : Exit :=
  let st := popWhileNot isParen st
  if st.ch = code '(' then err st.out else ⟨0, st.out ++ [bytes "\n"]⟩

/-- `while ((optype = getop(s)) != END)`. -/
def mainLoop : ℕ → Block UInt8 → State → List UInt8 → Option Exit
  | 0, _, _, _ => none
  | fuel + 1, s, st, inp => do
      let (optype, s, inp) ← getop s inp
      match optype with
      | .endOfInput => return finish st
      | .alpha | .number => mainLoop fuel s { st with out := st.out ++ [cString s] } inp
      | .operator =>
          let c ← s.load 0
          match operate c st with
          | .ok st => mainLoop fuel s st inp
          | .error st => return err st.out

/-- `main`, with the value that `ch` happens to have at the start.  Every call
of `getop` but the last takes a byte. -/
def convert (ch : ℤ) (inp : List UInt8) : Option Exit :=
  mainLoop (inp.length + 1) ⟨8, fun _ => 0⟩ ⟨stackInit 16, ch, []⟩ inp

/-! ### Lexemes -/

/-- An operand, or any other character. -/
inductive Lexeme
  | operand (w : List UInt8)
  | oper (c : UInt8)
  deriving DecidableEq

/-- The first lexeme of an input, and the rest. -/
def nextLexeme (inp : List UInt8) : Option (Lexeme × List UInt8) :=
  match inp.dropWhile isblank with
  | [] => none
  | c :: cs =>
      if c = eofByte then none
      else if isalpha c then
        some (.operand (c :: cs.takeWhile isalpha), afterRun (cs.dropWhile isalpha))
      else if isdigit c then
        some (.operand (c :: cs.takeWhile isdigit), afterRun (cs.dropWhile isdigit))
      else some (.oper c, cs)

/-- The lexemes of an input, at most `n` of them. -/
def lexemesUpTo : ℕ → List UInt8 → List Lexeme
  | 0, _ => []
  | n + 1, inp =>
      match nextLexeme inp with
      | none => []
      | some (l, rest) => l :: lexemesUpTo n rest

/-- All lexemes of an input. -/
def lexemes (inp : List UInt8) : List Lexeme := lexemesUpTo inp.length inp

/-- **The token reader reads the next lexeme**, and overruns `s` for an operand
of more than 7 characters. -/
theorem getop_spec {s : Block UInt8} (hs : s.size = 8) (inp : List UInt8) :
    match nextLexeme inp with
    | none => ∃ s' rest, getop s inp = some (.endOfInput, s', rest)
    | some (.operand w, rest) =>
        if w.length ≤ 7 then
          ∃ t s', getop s inp = some (t, s', rest) ∧
            (t = .alpha ∨ t = .number ∧ ∀ c ∈ w, isdigit c = true) ∧ s'.size = 8 ∧ cString s' = w
        else getop s inp = none
    | some (.oper c, rest) =>
        ∃ s', getop s inp = some (.operator, s', rest) ∧ s'.size = 8 ∧ s'.cell 0 = c ∧
          s'.cell 1 = 0 := by
  obtain ⟨s₁, hskip, hsize, hcell⟩ := skipBlanks_spec (show 0 < s.size by omega) inp
  unfold nextLexeme getop
  rw [hskip]
  simp only [Option.bind_eq_bind, Option.bind_some]
  rw [Block.load_eq (by omega), Option.bind_some, hcell]
  rcases e : inp.dropWhile isblank with _ | ⟨c, cs⟩
  · rw [show storedByte (getchar []).1 = eofByte by rfl, if_pos rfl, Block.store_eq (by omega)]
    exact ⟨_, _, rfl⟩
  · rw [e] at hcell
    have hc : s₁.cell 0 = c := hcell.trans (storedByte_toNat c)
    rw [show storedByte (getchar (c :: cs)).1 = c from storedByte_toNat c]
    simp only [getchar]
    -- the two branches for an operand
    have hoperand : ∀ (isx : UInt8 → Bool) (t : OpType), isx 0 = false → isx c = true →
        (t = .alpha ∨ t = .number ∧ isx = isdigit) →
        if (c :: cs.takeWhile isx).length ≤ 7 then
          ∃ t' s', ((readOperand isx s₁ cs).bind fun r => some (t, r.1, r.2))
              = some (t', s', afterRun (cs.dropWhile isx)) ∧
            (t' = .alpha ∨ t' = .number ∧ ∀ d ∈ c :: cs.takeWhile isx, isdigit d = true) ∧
            s'.size = 8 ∧ cString s' = c :: cs.takeWhile isx
        else ((readOperand isx s₁ cs).bind fun r => some (t, r.1, r.2)) = none := by
      intro isx t hzero hx ht
      have hread := readOperand_spec hzero (hsize.trans hs) (hc.symm ▸ hx) cs
      rw [hc] at hread
      split
      · rename_i hle
        rw [if_pos hle] at hread
        obtain ⟨s', hread, hsize', hstring⟩ := hread
        refine ⟨t, s', by rw [hread]; rfl, ht.imp_right ?_, hsize', hstring⟩
        rintro ⟨hnumber, rfl⟩
        exact ⟨hnumber, List.forall_mem_cons.mpr ⟨hx, fun d => List.mem_takeWhile_imp⟩⟩
      · rename_i hgt
        rw [if_neg hgt] at hread
        rw [hread]
        rfl
    by_cases heof : c = eofByte
    · rw [if_pos heof, if_pos heof, Block.store_eq (by omega)]
      exact ⟨_, _, rfl⟩
    · rw [if_neg heof, if_neg heof]
      rcases ha : isalpha c with _ | _
      · rcases hd : isdigit c with _ | _
        · simp only [Bool.false_eq_true, if_false]
          rw [Block.store_eq (by omega)]
          refine ⟨s₁.set 1 0, rfl, hsize.trans hs, ?_, rfl⟩
          rw [Block.set_cell, if_neg (by decide)]
          exact hc
        · exact hoperand isdigit .number rfl hd (.inr ⟨rfl, rfl⟩)
      · exact hoperand isalpha .alpha rfl ha (.inl rfl)

/-- Every lexeme takes a byte. -/
theorem nextLexeme_length {inp rest : List UInt8} {l : Lexeme}
    (h : nextLexeme inp = some (l, rest)) : rest.length < inp.length := by
  have hblank : (inp.dropWhile isblank).length ≤ inp.length := List.length_dropWhile_le ..
  unfold nextLexeme at h
  rcases e : inp.dropWhile isblank with _ | ⟨c, cs⟩
  · rw [e] at h
    cases h
  · rw [e, List.length_cons] at hblank
    rw [e] at h
    simp only at h
    split at h
    · cases h
    · split at h
      · cases h
        have := length_afterRun_le (cs.dropWhile isalpha)
        have := List.length_dropWhile_le isalpha cs
        omega
      · split at h
        · cases h
          have := length_afterRun_le (cs.dropWhile isdigit)
          have := List.length_dropWhile_le isdigit cs
          omega
        · cases h
          omega

/-- More fuel finds no more lexemes. -/
theorem lexemesUpTo_eq {n : ℕ} {inp : List UInt8} (h : inp.length ≤ n) :
    lexemesUpTo n inp = lexemes inp := by
  have hstable : ∀ m n inp, List.length inp ≤ m → inp.length ≤ n →
      lexemesUpTo m inp = lexemesUpTo n inp := by
    intro m
    induction m with
    | zero =>
        intro n inp hm _
        rw [List.length_eq_zero_iff.mp (Nat.le_zero.mp hm)]
        cases n <;> rfl
    | succ m ih =>
        intro n inp hm hn
        cases n with
        | zero =>
            rw [List.length_eq_zero_iff.mp (Nat.le_zero.mp hn)]
            rfl
        | succ n =>
            rw [lexemesUpTo, lexemesUpTo]
            rcases e : nextLexeme inp with _ | ⟨l, rest⟩
            · rfl
            · have hlt := nextLexeme_length e
              simp only [ih n rest (by omega) (by omega)]
  exact hstable n inp.length inp h le_rfl

theorem lexemes_of_none {inp : List UInt8} (h : nextLexeme inp = none) : lexemes inp = [] := by
  rw [← lexemesUpTo_eq (Nat.le_succ _), lexemesUpTo, h]

theorem lexemes_of_some {inp rest : List UInt8} {l : Lexeme}
    (h : nextLexeme inp = some (l, rest)) : lexemes inp = l :: lexemes rest := by
  have hlt := nextLexeme_length h
  rw [← lexemesUpTo_eq (Nat.le_succ _), lexemesUpTo, h]
  simp only [lexemesUpTo_eq (show rest.length ≤ inp.length by omega)]

/-! ### The machine on lists -/

/-- The state of `main` with the stack as a list. -/
structure Pending where
  stack : List ℤ
  ch : ℤ
  out : List (List UInt8)

def State.pending (st : State) : Pending := ⟨st.stack.contents, st.ch, st.out⟩

/-- Popping and printing until an entry stops it or none is left. -/
def popEntries (stop : ℤ → Bool) : List ℤ → ℤ → List (List UInt8) → Pending
  | [], ch, out => ⟨[], ch, out⟩
  | c :: l, _, out =>
      if stop c then ⟨l, c, out⟩ else popEntries stop l c (out ++ [[putchar c]])

def Pending.popWhileNot (stop : ℤ → Bool) (p : Pending) : Pending :=
  popEntries stop p.stack p.ch p.out

def Pending.push (p : Pending) (data : ℤ) : Pending :=
  { p with stack := pushTo 16 p.stack data }

def Pending.operate (c : UInt8) (p : Pending) : Except Pending Pending :=
  if c = chr '(' then
    .ok (p.push (charInt c))
  else if c = chr ')' then
    let p := p.popWhileNot isParen
    if p.ch ≠ code '(' then .error p else .ok p
  else if c = chr '+' ∨ c = chr '-' then
    let p := p.popWhileNot isParen
    let p := if p.ch = code '(' then p.push p.ch else p
    .ok (p.push (charInt c))
  else if c = chr '*' ∨ c = chr '/' then
    let p := p.popWhileNot isParenOrLow
    let p := if p.ch = code '(' ∨ p.ch = code '+' ∨ p.ch = code '-' then p.push p.ch else p
    .ok (p.push (charInt c))
  else .ok p

def Pending.finish (p : Pending) : Exit :=
  let p := p.popWhileNot isParen
  if p.ch = code '(' then err p.out else ⟨0, p.out ++ [bytes "\n"]⟩

/-- One lexeme. -/
def Pending.step (p : Pending) : Lexeme → Except Pending Pending
  | .operand w => .ok { p with out := p.out ++ [w] }
  | .oper c => p.operate c

/-- The array `s` has room for it. -/
def Lexeme.Fits : Lexeme → Prop
  | .operand w => w.length ≤ 7
  | .oper _ => True

instance : DecidablePred Lexeme.Fits
  | .operand w => inferInstanceAs (Decidable (w.length ≤ 7))
  | .oper _ => inferInstanceAs (Decidable True)

/-- The machine on a list of lexemes; an operand that does not fit is undefined
behaviour. -/
def Pending.run : Pending → List Lexeme → Option Exit
  | p, [] => some p.finish
  | p, l :: ls =>
      if l.Fits then
        match p.step l with
        | .ok p => p.run ls
        | .error p => some (err p.out)
      else none

theorem State.push_pending {st : State} (hmax : st.stack.max = 16) (data : ℤ) :
    (st.push data).pending = st.pending.push data ∧ (st.push data).stack.max = 16 := by
  obtain ⟨hcontents, hkeep⟩ := stackPush_contents st.stack data
  rw [hmax] at hcontents hkeep
  exact ⟨congrArg (fun l => Pending.mk l st.ch st.out) hcontents, hkeep⟩

theorem popLoop_pending (stop : ℤ → Bool) {n : ℕ} {st : State}
    (hn : st.stack.contents.length < n) :
    (popLoop stop n st).pending = st.pending.popWhileNot stop ∧
      (popLoop stop n st).stack.max = st.stack.max := by
  induction n generalizing st with
  | zero => omega
  | succ n ih =>
      rcases h : st.stack.contents with _ | ⟨c, l⟩
      · rw [popLoop, stackPop_nil h]
        simp only
        rw [if_neg (by simp)]
        refine ⟨?_, rfl⟩
        simp only [Pending.popWhileNot, State.pending, h, popEntries]
      · obtain ⟨stack', hpop, hcontents, hmax⟩ := stackPop_cons st.ch h
        rw [popLoop, hpop]
        simp only
        rw [h, List.length_cons] at hn
        rcases e : stop c with _ | _
        · rw [if_pos ⟨by decide, rfl⟩]
          obtain ⟨ih₁, ih₂⟩ := @ih ⟨stack', c, st.out ++ [[putchar c]]⟩ (by
            show stack'.contents.length < n
            rw [hcontents]
            omega)
          refine ⟨ih₁.trans ?_, ih₂.trans hmax⟩
          rw [Pending.popWhileNot, Pending.popWhileNot, State.pending, State.pending, h, hcontents,
            popEntries, if_neg (ne_true_of_eq_false e)]
        · rw [if_neg (by simp)]
          refine ⟨?_, hmax⟩
          rw [Pending.popWhileNot, State.pending, State.pending, h, hcontents, popEntries, if_pos e]

theorem popWhileNot_pending (stop : ℤ → Bool) (st : State) :
    (popWhileNot stop st).pending = st.pending.popWhileNot stop ∧
      (popWhileNot stop st).stack.max = st.stack.max :=
  popLoop_pending stop (by rw [ArrayStack.contents_length]; exact Nat.lt_succ_self _)

/-- The array stack and the list go through the same operators. -/
theorem operate_pending {st : State} (hmax : st.stack.max = 16) (c : UInt8) :
    match operate c st with
    | .ok st' => st.pending.operate c = .ok st'.pending ∧ st'.stack.max = 16
    | .error st' => st.pending.operate c = .error st'.pending := by
  have hch : ∀ st : State, st.pending.ch = st.ch := fun _ => rfl
  -- pop, push back what stopped it, push the operator
  have hbinary : ∀ (stop : ℤ → Bool) (back : ℤ → Prop) [DecidablePred back],
      let st₁ := popWhileNot stop st
      let p₁ := st.pending.popWhileNot stop
      let st₂ := if back st₁.ch then st₁.push st₁.ch else st₁
      let p₂ := if back p₁.ch then p₁.push p₁.ch else p₁
      (st₂.push (charInt c)).pending = p₂.push (charInt c) ∧
        (st₂.push (charInt c)).stack.max = 16 := by
    intro stop back _ st₁ p₁ st₂ p₂
    obtain ⟨hp, hm⟩ := popWhileNot_pending stop st
    have hm₁ : st₁.stack.max = 16 := hm.trans hmax
    have h₂ : st₂.pending = p₂ ∧ st₂.stack.max = 16 := by
      have hch₁ : p₁.ch = st₁.ch := by rw [← hch st₁]; exact congrArg Pending.ch hp.symm
      simp only [st₂, p₂, hch₁]
      split
      · rw [show p₁ = st₁.pending from hp.symm]
        exact State.push_pending hm₁ _
      · exact ⟨hp, hm₁⟩
    rw [← h₂.1]
    exact State.push_pending h₂.2 _
  unfold operate Pending.operate
  by_cases hopen : c = chr '('
  · rw [if_pos hopen, if_pos hopen]
    obtain ⟨hp, hm⟩ := State.push_pending hmax (charInt c)
    exact ⟨congrArg _ hp.symm, hm⟩
  · rw [if_neg hopen, if_neg hopen]
    by_cases hclose : c = chr ')'
    · rw [if_pos hclose, if_pos hclose]
      obtain ⟨hp, hm⟩ := popWhileNot_pending isParen st
      simp only [← hp, hch]
      split <;> rename_i hmatch
      · split at hmatch
        · cases hmatch
        · cases hmatch
          exact ⟨by rw [if_neg (by assumption)], hm.trans hmax⟩
      · split at hmatch
        · cases hmatch
          rw [if_pos (by assumption)]
        · cases hmatch
    · rw [if_neg hclose, if_neg hclose]
      by_cases hlow : c = chr '+' ∨ c = chr '-'
      · rw [if_pos hlow, if_pos hlow]
        obtain ⟨hp, hm⟩ := hbinary isParen fun ch => ch = code '('
        exact ⟨congrArg _ hp.symm, hm⟩
      · rw [if_neg hlow, if_neg hlow]
        by_cases hhigh : c = chr '*' ∨ c = chr '/'
        · rw [if_pos hhigh, if_pos hhigh]
          obtain ⟨hp, hm⟩ := hbinary isParenOrLow fun ch =>
            ch = code '(' ∨ ch = code '+' ∨ ch = code '-'
          exact ⟨congrArg _ hp.symm, hm⟩
        · rw [if_neg hhigh, if_neg hhigh]
          exact ⟨rfl, hmax⟩

theorem finish_pending (st : State) : finish st = st.pending.finish := by
  obtain ⟨hp, -⟩ := popWhileNot_pending isParen st
  unfold finish Pending.finish
  rw [← hp]
  rfl

/-- The main loop is the run of the machine. -/
theorem mainLoop_eq {fuel : ℕ} {s : Block UInt8} {st : State} {inp : List UInt8}
    (hfuel : inp.length < fuel) (hs : s.size = 8) (hmax : st.stack.max = 16) :
    mainLoop fuel s st inp = st.pending.run (lexemes inp) := by
  induction fuel generalizing s st inp with
  | zero => omega
  | succ fuel ih =>
      have hspec := getop_spec hs inp
      rw [mainLoop]
      rcases e : nextLexeme inp with _ | ⟨l, rest⟩
      · rw [e] at hspec
        obtain ⟨s', rest, hget⟩ := hspec
        rw [hget, lexemes_of_none e, Pending.run, ← finish_pending]
        rfl
      · have hlt := nextLexeme_length e
        rw [e] at hspec
        rw [lexemes_of_some e, Pending.run]
        cases l with
        | operand w =>
            simp only at hspec
            by_cases hw : w.length ≤ 7
            · rw [if_pos hw] at hspec
              obtain ⟨t, s', hget, ht, hs', hstring⟩ := hspec
              rw [hget, if_pos (show (Lexeme.operand w).Fits from hw)]
              have hnext := @ih s' { st with out := st.out ++ [w] } rest (by omega) hs' hmax
              rcases ht with rfl | ⟨rfl, -⟩
              · simp only [Option.bind_eq_bind, Option.bind_some, hstring]
                exact hnext
              · simp only [Option.bind_eq_bind, Option.bind_some, hstring]
                exact hnext
            · rw [if_neg hw] at hspec
              rw [hspec, if_neg (show ¬ (Lexeme.operand w).Fits from hw)]
              rfl
        | oper c =>
            obtain ⟨s', hget, hs', hcell, -⟩ := hspec
            have hop := operate_pending hmax c
            rw [hget, if_pos (show (Lexeme.oper c).Fits from trivial)]
            simp only [Option.bind_eq_bind, Option.bind_some]
            rw [Block.load_eq (by omega), Option.bind_some, hcell]
            show _ = match st.pending.operate c with
              | .ok p => p.run (lexemes rest)
              | .error p => some (err p.out)
            rcases eop : operate c st with st' | st'
            · rw [eop] at hop
              rw [hop]
              rfl
            · rw [eop] at hop
              rw [hop.1]
              exact ih (by omega) hs' hop.2

/-- **The program is the machine** on the lexemes of its input. -/
theorem convert_eq (ch : ℤ) (inp : List UInt8) :
    convert ch inp = Pending.run ⟨[], ch, []⟩ (lexemes inp) :=
  mainLoop_eq (Nat.lt_succ_self _) rfl rfl

end ExpressionConvert

end CodeSnippet
