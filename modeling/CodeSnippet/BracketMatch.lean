/-
CodeSnippet/BracketMatch.lean

The bracket matchers of src/algorithm/stack/app and src/exam/haier.  They differ
in the stack that they use only, and both stacks hold 16 entries and ignore what
does not fit; so `caculate` is a counter that stays at 16.

Main results:
  * `caculateLoop_eq` — `caculate` over any stack of limited depth.
  * `caculate_exact_iff` — when it is exact, in both copies.
-/
import CodeSnippet.BracketDepth
import CodeSnippet.CharStream
import CodeSnippet.SeqStack

namespace CodeSnippet

open Memory Brackets DyckStep

namespace BracketMatch

/-! ### Source -/

/-- The functions of a stack that `caculate` calls. -/
structure StackCalls (σ : Type) where
  init : σ
  push : σ → ℤ → ℤ × σ
  pop : σ → ℤ → ℤ × σ × ℤ
  isempty : σ → Bool

/-- `caculate`, from a character on, with the value of `count`. -/
def caculateLoop {σ : Type} (calls : StackCalls σ) : List UInt8 → σ → ℤ → ℤ
  | [], stack, count => if calls.isempty stack then count else -1
  | c :: s, stack, count =>
      let p := charInt c
      if p = code '(' then caculateLoop calls s (calls.push stack p).2 count
      else if p = code ')' then
        let (_, stack, q) := calls.pop stack 0
        if q ≠ code '(' then -1 else caculateLoop calls s stack (count + 1)
      else caculateLoop calls s stack count

def caculateOver {σ : Type} (calls : StackCalls σ) (s : List UInt8) : ℤ :=
  caculateLoop calls s calls.init 0

/-- The stack of src/algorithm/stack/seqstack, made by `stack_init(16)`. -/
def seqStackCalls : StackCalls SeqStack where
  init := stackInit 16
  push := stackPush
  pop := stackPop
  isempty := stackIsempty

/-- `caculate` of src/algorithm/stack/app/bracketMatch.c. -/
def caculate : List UInt8 → ℤ := caculateOver seqStackCalls

/-! The copy in src/exam/haier/bracketMatch.c has a stack of its own. -/

namespace Exam

/-- `STACK_SIZE` -/
def stackSize : ℕ := 16

/-- `struct _stack_t_`.  `max` is the size of `buf`. -/
abbrev Stack := ArrayStack ℤ

/-- `stack_init`, when `malloc` succeeds and leaves `cell` in `buf`. -/
def stackInit (cell : ℕ → ℤ) : Stack := ⟨⟨stackSize, cell⟩, 0, Nat.zero_le _⟩

def stackPush (stack : Stack) (data : ℤ) : ℤ × Stack :=
  if h : stack.top = stack.max then (-1, stack)
  else (0, stack.store data (stack.top_le.lt_of_ne h))

def stackPop (stack : Stack) (data : ℤ) : ℤ × Stack × ℤ :=
  if stack.top = 0 then (-1, stack, data) else (0, stack.drop, stack.last)

def stackLen (stack : Stack) : ℤ := stack.top

/-- `caculate` tests `stack_len(stack) != 0` in the end. -/
def stackCalls (cell : ℕ → ℤ) : StackCalls Stack where
  init := stackInit cell
  push := stackPush
  pop := stackPop
  isempty := fun stack => !(stackLen stack != 0)

def caculate (cell : ℕ → ℤ) : List UInt8 → ℤ := caculateOver (stackCalls cell)

end Exam

/-! ### Exactness -/

/-- The brackets of a string. -/
def brackets (s : List UInt8) : List DyckStep :=
  s.filterMap fun c => if c = chr '(' then some U else if c = chr ')' then some D else none

/-- The number of pairs where the brackets balance, and -1 where they do not. -/
def Exact (result : ℤ) (l : List DyckStep) : Prop :=
  (∀ w : DyckWord, w.toList = l → result = w.semilength) ∧
    ((¬ ∃ w : DyckWord, w.toList = l) → result = -1)

/-! ### Stacks of limited depth -/

/-- The calls do what they do on a list of at most `max` entries. -/
structure StackCalls.Limited {σ : Type} (calls : StackCalls σ) (max : ℕ)
    (holds : σ → List ℤ → Prop) : Prop where
  init : holds calls.init []
  push : ∀ {s l} (x : ℤ), holds s l → holds (calls.push s x).2 (pushTo max l x)
  pop : ∀ {s l} (d : ℤ), holds s l →
    holds (calls.pop s d).2.1 l.tail ∧ (calls.pop s d).2.2 = l.headD d
  isempty : ∀ {s l}, holds s l → (calls.isempty s = true ↔ l = [])

/-- The contents of an array stack of 16 cells. -/
def Holds16 (stack : ArrayStack ℤ) (l : List ℤ) : Prop := stack.contents = l ∧ stack.max = 16

theorem contents_eq_nil_iff {stack : ArrayStack ℤ} : stack.contents = [] ↔ stack.top = 0 := by
  rw [← List.length_eq_zero_iff, stack.contents_length]

theorem seqStackCalls_limited : seqStackCalls.Limited 16 Holds16 where
  init := ⟨rfl, rfl⟩
  push := by
    rintro s l x ⟨rfl, hmax⟩
    have hpush := stackPush_contents s x
    rw [hmax] at hpush
    exact hpush
  pop := by
    rintro s l d ⟨rfl, hmax⟩
    obtain ⟨htail, hhead, hsame⟩ := stackPop_contents s d
    exact ⟨⟨htail, hsame.trans hmax⟩, hhead⟩
  isempty := by
    rintro s l ⟨rfl, -⟩
    rw [contents_eq_nil_iff]
    exact beq_iff_eq

/-- The stack of the exam is the same stack. -/
theorem Exam.stackPush_eq : Exam.stackPush = CodeSnippet.stackPush := by
  funext stack data
  unfold Exam.stackPush CodeSnippet.stackPush
  have hfull : stackIsfull stack = true ↔ stack.top = stack.max := beq_iff_eq
  by_cases h : stack.top = stack.max
  · rw [dif_pos h, dif_pos (hfull.mpr h)]
  · rw [dif_neg h, dif_neg fun e => h (hfull.mp e)]

theorem Exam.stackPop_eq : Exam.stackPop = CodeSnippet.stackPop := by
  funext stack data
  unfold Exam.stackPop CodeSnippet.stackPop
  have hempty : stackIsempty stack = true ↔ stack.top = 0 := beq_iff_eq
  by_cases h : stack.top = 0
  · rw [if_pos h, if_pos (hempty.mpr h)]
  · rw [if_neg h, if_neg fun e => h (hempty.mp e)]

theorem Exam.stackCalls_limited (cell : ℕ → ℤ) : (Exam.stackCalls cell).Limited 16 Holds16 where
  init := ⟨rfl, rfl⟩
  push := by
    intro s l x h
    show Holds16 (Exam.stackPush s x).2 _
    rw [Exam.stackPush_eq]
    exact seqStackCalls_limited.push x h
  pop := by
    intro s l d h
    show Holds16 (Exam.stackPop s d).2.1 _ ∧ (Exam.stackPop s d).2.2 = _
    rw [Exam.stackPop_eq]
    exact seqStackCalls_limited.pop d h
  isempty := by
    rintro s l ⟨rfl, -⟩
    rw [contents_eq_nil_iff]
    show (!(Exam.stackLen s != 0)) = true ↔ _
    rw [bne, Bool.not_not, beq_iff_eq]
    exact Int.natCast_eq_zero

/-! ### The matcher -/

theorem charInt_eq_code_iff {c : UInt8} {x : Char} : charInt c = code x ↔ c = chr x := by
  rw [code, charInt, charInt, Int8.toInt_inj]
  exact ⟨congrArg Int8.toUInt8, congrArg UInt8.toInt8⟩

theorem pushTo_replicate {max n : ℕ} (x : ℤ) :
    pushTo max (List.replicate n x) x = List.replicate (if n < max then n + 1 else n) x := by
  rw [pushTo, List.length_replicate]
  split_ifs
  · rfl
  · rfl

variable {σ : Type} {calls : StackCalls σ} {max : ℕ} {holds : σ → List ℤ → Prop}

/-- **`caculate` is a counter**: the stack holds nothing but opening brackets. -/
theorem caculateLoop_eq (h : calls.Limited max holds) (s : List UInt8) {stack : σ} {n : ℕ}
    (hs : holds stack (List.replicate n (code '('))) (count : ℤ) :
    caculateLoop calls s stack count =
      if bounded max n (brackets s) = some 0 then count + (brackets s).count D else -1 := by
  induction s generalizing stack n count with
  | nil =>
      have hempty := h.isempty hs
      rw [List.replicate_eq_nil_iff] at hempty
      show (if calls.isempty stack = true then count else -1) = if some n = some 0 then count + 0 else -1
      rw [add_zero]
      exact if_congr (hempty.trans Option.some_inj.symm) rfl rfl
  | cons c s ih =>
      rw [caculateLoop]
      simp only [charInt_eq_code_iff]
      by_cases hopen : c = chr '('
      · have hbrackets : brackets (c :: s) = U :: brackets s :=
          List.filterMap_cons_some (if_pos hopen)
        have hpush := h.push (charInt c) hs
        rw [charInt_eq_code_iff.mpr hopen, pushTo_replicate] at hpush
        rw [if_pos hopen, charInt_eq_code_iff.mpr hopen, ih hpush, hbrackets,
          List.count_cons_of_ne (by decide)]
        rfl
      · rw [if_neg hopen]
        by_cases hclose : c = chr ')'
        · have hbrackets : brackets (c :: s) = D :: brackets s :=
            List.filterMap_cons_some ((if_neg hopen).trans (if_pos hclose))
          obtain ⟨hpop, hhead⟩ := h.pop 0 hs
          rw [if_pos hclose, hbrackets]
          show (if (calls.pop stack 0).2.2 ≠ code '(' then _ else _) = _
          rw [hhead]
          cases n with
          | zero =>
              rw [if_pos (by decide)]
              exact (if_neg (Option.some_ne_none 0).symm).symm
          | succ n =>
              have hlast : (List.replicate (n + 1) (code '(')).headD 0 = code '(' := rfl
              rw [if_neg (not_not_intro hlast), ih hpop, List.count_cons_self]
              show _ = if bounded max n (brackets s) = some 0 then _ else -1
              push_cast
              rw [add_assoc, add_comm (1 : ℤ)]
        · have hbrackets : brackets (c :: s) = brackets s :=
            List.filterMap_cons_none ((if_neg hopen).trans (if_neg hclose))
          rw [if_neg hclose, ih hs, hbrackets]

theorem caculateOver_eq (h : calls.Limited max holds) (s : List UInt8) :
    caculateOver calls s =
      if bounded max 0 (brackets s) = some 0 then ((brackets s).count D : ℤ) else -1 := by
  have hloop := caculateLoop_eq h s (n := 0) h.init 0
  rw [zero_add] at hloop
  exact hloop

/-- A result is exact where the counter accepts just the balanced sequences. -/
theorem exact_iff_accepts {l : List DyckStep} :
    Exact (if bounded max 0 l = some 0 then (l.count D : ℤ) else -1) l ↔
      (bounded max 0 l = some 0 ↔ ∃ w : DyckWord, w.toList = l) := by
  constructor
  · rintro ⟨hpairs, hfail⟩
    constructor
    · intro haccepts
      by_contra hbalance
      have hcount := hfail hbalance
      rw [if_pos haccepts] at hcount
      omega
    · rintro ⟨w, hw⟩
      by_contra hrejects
      have hcount := hpairs w hw
      rw [if_neg hrejects] at hcount
      omega
  · intro haccepts
    constructor
    · rintro w rfl
      rw [if_pos (haccepts.mpr ⟨w, rfl⟩), w.semilength_eq_count_D]
    · exact fun hbalance => if_neg fun h => hbalance (haccepts.mp h)

/-- Where the brackets nest deeper than the counter counts, an accepted sequence
leaves as many brackets open as were lost. -/
theorem bounded_iff_dyckWord_of_lt {l : List DyckStep} (hdeep : max < peak l) :
    (bounded max 0 l = some 0 ↔ ∃ w : DyckWord, w.toList = l) ↔
      (¬ ∃ w : DyckWord, w.toList = l) ∧ ¬ (WithinReach max l ∧ height l + max = peak l) := by
  have hbounded : bounded max 0 l = some 0 ↔ WithinReach max l ∧ height l + max = peak l := by
    rw [bounded_eq_some_iff]
    refine and_congr_right fun _ => ?_
    omega
  rw [hbounded, exists_dyckWord_iff]
  constructor
  · intro h
    constructor
    · intro hbalance
      have hopen := (h.mpr hbalance).2
      have hend := hbalance.1
      omega
    · intro hreach
      have hopen := hreach.2
      have hend := (h.mp hreach).1
      omega
  · rintro ⟨hbalance, hreach⟩
    exact iff_of_false hreach hbalance

/-- **When the result is exact**, over any stack of limited depth. -/
theorem caculateOver_exact_iff (h : calls.Limited max holds) (s : List UInt8) :
    Exact (caculateOver calls s) (brackets s) ↔
      peak (brackets s) ≤ max ∨ (¬ ∃ w : DyckWord, w.toList = brackets s) ∧
        ¬ (WithinReach max (brackets s) ∧ height (brackets s) + max = peak (brackets s)) := by
  rw [caculateOver_eq h, exact_iff_accepts]
  rcases Nat.lt_or_ge max (peak (brackets s)) with hdeep | hle
  · rw [bounded_iff_dyckWord_of_lt hdeep, or_iff_right (Nat.not_le.mpr hdeep)]
  · exact iff_of_true (bounded_iff_dyckWord hle) (.inl hle)

/-- **When bracket matching is exact**, in both copies. -/
theorem caculate_exact_iff (s : List UInt8) (cell : ℕ → ℤ) :
    (Exact (caculate s) (brackets s) ∧ Exact (Exam.caculate cell s) (brackets s)) ↔
      peak (brackets s) ≤ 16 ∨ (¬ ∃ w : DyckWord, w.toList = brackets s) ∧
        ¬ (WithinReach 16 (brackets s) ∧ height (brackets s) + 16 = peak (brackets s)) := by
  have happ := caculateOver_exact_iff seqStackCalls_limited s
  have hexam := caculateOver_exact_iff (Exam.stackCalls_limited cell) s
  rw [Nat.cast_ofNat] at happ hexam
  exact (and_congr happ hexam).trans (and_self_iff)

/-- Seventeen opening brackets and the same number of closing ones. -/
def nested : List UInt8 := List.replicate 17 (chr '(') ++ List.replicate 17 (chr ')')

/-- The seventeenth bracket is lost, so that nested brackets do not match and an
open one is not noticed. -/
theorem not_caculate_exact :
    ¬ (∀ (s : List UInt8) (cell : ℕ → ℤ),
      Exact (caculate s) (brackets s) ∧ Exact (Exam.caculate cell s) (brackets s)) ∧
    caculate nested = -1 ∧ (∃ w : DyckWord, w.toList = brackets nested ∧ w.semilength = 17) ∧
    caculate nested.dropLast = 16 := by
  have hpeak : peak (brackets nested) ≤ 17 := le_of_eq rfl
  obtain ⟨w, hw⟩ := (bounded_iff_dyckWord hpeak).mp rfl
  have hcount : w.semilength = 17 := by
    rw [DyckWord.semilength, hw]
    rfl
  have hmatch : caculate nested = -1 := (caculateOver_eq seqStackCalls_limited nested).trans rfl
  have hmatch' : caculate nested.dropLast = 16 :=
    (caculateOver_eq seqStackCalls_limited nested.dropLast).trans rfl
  refine ⟨fun hevery => ?_, hmatch, ⟨w, hw, hcount⟩, hmatch'⟩
  have hexact := (hevery nested fun _ => 0).1.1 w hw
  rw [hmatch] at hexact
  omega

end BracketMatch

end CodeSnippet
