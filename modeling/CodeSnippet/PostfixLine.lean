/-
CodeSnippet/PostfixLine.lean

Postfix expressions over decimal numbers: their value in the arithmetic of
`int`, and the lines that spell them.

Main results:
  * `atoi_digits` — what `atoi` makes of a number.
  * `line_spell` — every postfix expression over numbers can be spelled.
-/
import CodeSnippet.CInt
import CodeSnippet.Infix
import CodeSnippet.Postfix

namespace CodeSnippet

open Memory Postfix

/-! ### The arithmetic of `int` -/

/-- `x / y` rounds towards zero. -/
def checkedDiv (x y : ℤ) : Option ℤ := if y = 0 then none else checkedInt (x.tdiv y)

/-- `x % y` is undefined where `x / y` is. -/
def checkedMod (x y : ℤ) : Option ℤ := (checkedDiv x y).map fun _ => x.tmod y

def Op.apply : Op → ℤ → ℤ → Option ℤ
  | .add, x, y => checkedInt (x + y)
  | .sub, x, y => checkedInt (x - y)
  | .mul, x, y => checkedInt (x * y)
  | .div, x, y => checkedDiv x y

/-! ### Numbers -/

def isspace (c : UInt8) : Bool := c == chr ' ' || (9 ≤ c && c ≤ 13)

/-- The value of the digits that a string starts with. -/
def decimal (l : List UInt8) : ℤ :=
  (l.takeWhile isdigit).foldl (fun n c => 10 * n + (c.toNat - (chr '0').toNat : ℤ)) 0

/-- `atoi`, for a result that fits in `int`. -/
def atoi (l : List UInt8) : ℤ :=
  match l.dropWhile isspace with
  | [] => 0
  | c :: cs =>
      if c = chr '-' then -decimal cs
      else if c = chr '+' then decimal cs
      else decimal (c :: cs)

/-- A decimal number of at most 7 digits. -/
def IsNumber (w : List UInt8) : Prop := w ≠ [] ∧ w.length ≤ 7 ∧ ∀ c ∈ w, isdigit c = true

theorem isspace_eq_false_of_isdigit {c : UInt8} (h : isdigit c = true) : isspace c = false := by
  have h0 : (chr '0').toNat = 48 := rfl
  have hblank : chr ' ' = 32 := rfl
  rw [isdigit, Bool.and_eq_true, decide_eq_true_iff, decide_eq_true_iff, UInt8.le_iff_toNat_le] at h
  rw [isspace, Bool.or_eq_false_iff, Bool.and_eq_false_iff]
  constructor
  · apply beq_eq_false_iff_ne.mpr
    rintro rfl
    exact absurd h.1 (by decide)
  · right
    apply decide_eq_false
    rw [UInt8.le_iff_toNat_le, show (13 : UInt8).toNat = 13 from rfl]
    omega

theorem atoi_digits {w : List UInt8} (hne : w ≠ []) (hw : ∀ c ∈ w, isdigit c = true) :
    atoi w = decimal w := by
  obtain ⟨c, cs, rfl⟩ := List.exists_cons_of_ne_nil hne
  have hc := hw c (List.mem_cons_self ..)
  rw [atoi, List.dropWhile_cons_of_neg (ne_true_of_eq_false (isspace_eq_false_of_isdigit hc))]
  have hminus : c ≠ chr '-' := by
    rintro rfl
    exact absurd hc (by decide)
  have hplus : c ≠ chr '+' := by
    rintro rfl
    exact absurd hc (by decide)
  exact (if_neg hminus).trans (if_neg hplus)

/-! ### Expressions -/

/-- Expressions over numbers, which are given by their digits. -/
abbrev PostfixExpr := Tree (List UInt8) Op

/-- The value, if no step overflows or divides by zero. -/
def PostfixExpr.value : PostfixExpr → Option ℤ
  | .num w => some (decimal w)
  | .bin op l r => do
      let x ← value l
      let y ← value r
      op.apply x y

/-- All operands are numbers. -/
def PostfixExpr.WellFormed : PostfixExpr → Prop
  | .num w => IsNumber w
  | .bin _ l r => WellFormed l ∧ WellFormed r

/-! ### Lines -/

/-- A line that consists of the given tokens, with any blanks before, between
and behind them; what follows a number must not be a digit. -/
inductive Line : List (Token (List UInt8) Op) → List UInt8 → Prop
  | newline {b : List UInt8} (hb : ∀ c ∈ b, isblank c = true) : Line [] (b ++ [chr '\n'])
  | num {b w : List UInt8} {ts : List (Token (List UInt8) Op)} {text : List UInt8}
      (hb : ∀ c ∈ b, isblank c = true) (hnext : ∀ c ∈ text.head?, isdigit c = false)
      (h : Line ts text) : Line (.num w :: ts) (b ++ (w ++ text))
  | op {b : List UInt8} {op : Op} {ts : List (Token (List UInt8) Op)} {text : List UInt8}
      (hb : ∀ c ∈ b, isblank c = true) (h : Line ts text) :
      Line (.op op :: ts) (b ++ op.byte :: text)

/-- The operands among tokens are numbers. -/
def Numbers (ts : List (Token (List UInt8) Op)) : Prop := ∀ w, Token.num w ∈ ts → IsNumber w

theorem numbers_tokens {e : PostfixExpr} (h : e.WellFormed) : Numbers e.tokens := by
  induction e with
  | num w =>
      intro w' hw'
      obtain rfl : w' = w := Token.num.inj (List.mem_singleton.mp hw')
      exact h
  | bin op l r ihl ihr =>
      intro w hw
      rcases List.mem_append.mp hw with hw | hw
      · exact ihl h.1 w hw
      · rcases List.mem_append.mp hw with hw | hw
        · exact ihr h.2 w hw
        · cases List.mem_singleton.mp hw

/-- A text for tokens, with a blank before each. -/
def spell : List (Token (List UInt8) Op) → List UInt8
  | [] => [chr '\n']
  | .num w :: ts => chr ' ' :: (w ++ spell ts)
  | .op op :: ts => chr ' ' :: op.byte :: spell ts

theorem spell_head (ts : List (Token (List UInt8) Op)) :
    ∀ c ∈ (spell ts).head?, isdigit c = false := by
  intro c hc
  cases ts with
  | nil =>
      obtain rfl := Option.some.inj hc
      rfl
  | cons t ts =>
      cases t with
      | num w | op op =>
          obtain rfl := Option.some.inj hc
          rfl

/-- **Every list of tokens can be spelled.** -/
theorem line_spell (ts : List (Token (List UInt8) Op)) : Line ts (spell ts) := by
  have hb : ∀ c ∈ [chr ' '], isblank c = true := by
    intro c hc
    obtain rfl := List.mem_singleton.mp hc
    rfl
  induction ts with
  | nil => exact .newline (b := []) fun c hc => absurd hc List.not_mem_nil
  | cons t ts ih =>
      cases t with
      | num w => exact .num hb (spell_head ts) ih
      | op op => exact .op hb ih

/-- A line has no byte that looks like `EOF`. -/
theorem Line.head_ne_eof {ts : List (Token (List UInt8) Op)} {text : List UInt8} (h : Line ts text)
    (hts : Numbers ts) : ∀ c ∈ text.head?, c ≠ eofByte := by
  have hblank : ∀ (b : List UInt8) (rest : List UInt8), (∀ c ∈ b, isblank c = true) →
      (∀ c ∈ rest.head?, c ≠ eofByte) → ∀ c ∈ (b ++ rest).head?, c ≠ eofByte := by
    intro b rest hb hrest c hc
    cases b with
    | nil => exact hrest c hc
    | cons d b =>
        obtain rfl : d = c := Option.some.inj hc
        rintro rfl
        exact absurd (hb eofByte (List.mem_cons_self ..)) (by decide)
  cases h with
  | newline hb =>
      apply hblank _ _ hb
      intro c hc
      obtain rfl := Option.some.inj hc
      decide
  | @num b w ts text hb hnext h =>
      apply hblank _ _ hb
      intro c hc
      obtain ⟨hne, -, hdigits⟩ := hts w (List.mem_cons_self ..)
      obtain ⟨d, w, rfl⟩ := List.exists_cons_of_ne_nil hne
      obtain rfl : d = c := Option.some.inj hc
      rintro rfl
      exact absurd (hdigits eofByte (List.mem_cons_self ..)) (by decide)
  | @op b op ts text hb h =>
      apply hblank _ _ hb
      intro c hc
      obtain rfl : op.byte = c := Option.some.inj hc
      cases op <;> decide

end CodeSnippet
