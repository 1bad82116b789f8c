/-
CodeSnippet/Infix.lean

Infix expressions: their syntax with precedences, their tokens, the texts that
spell them, and their postfix form.

Main results:
  * `lexemes_of_spells` — a text that spells separated tokens has these tokens
    as lexemes.
  * `Infix.lexemes_eq` — so has every text that spells an expression.
-/
import CodeSnippet.ExpressionConvert

namespace CodeSnippet

open ExpressionConvert

/-! ### Operators -/

inductive Op
  | add
  | sub
  | mul
  | div
  deriving DecidableEq

def Op.byte : Op → UInt8
  | .add => chr '+'
  | .sub => chr '-'
  | .mul => chr '*'
  | .div => chr '/'

/-- The operator as the stack holds it. -/
def Op.code (op : Op) : ℤ := charInt op.byte

/-- The usual precedence. -/
def Op.prec : Op → ℕ
  | .add | .sub => 0
  | .mul | .div => 1

/-! ### Expressions -/

/-- An infix expression with its parentheses. -/
inductive Infix
  | operand (w : List UInt8)
  | paren (e : Infix)
  | bin (op : Op) (l r : Infix)

namespace Infix

/-- Operands and parentheses bind more tightly than any operator. -/
def prec : Infix → ℕ
  | operand _ | paren _ => 2
  | bin op _ _ => op.prec

/-- An identifier (letters) or a number (digits) of at most 7 characters. -/
def IsOperand (w : List UInt8) : Prop :=
  w ≠ [] ∧ w.length ≤ 7 ∧ ((∀ c ∈ w, isalpha c = true) ∨ ∀ c ∈ w, isdigit c = true)

/-- The operands are operands, and where an operator applies to an operator of
lower precedence, or on its right to one of the same precedence, there are
parentheses. -/
def WellFormed : Infix → Prop
  | operand w => IsOperand w
  | paren e => e.WellFormed
  | bin op l r => l.WellFormed ∧ r.WellFormed ∧ op.prec ≤ l.prec ∧ op.prec < r.prec

def tokens : Infix → List Lexeme
  | operand w => [.operand w]
  | paren e => .oper (chr '(') :: e.tokens ++ [.oper (chr ')')]
  | bin op l r => l.tokens ++ .oper op.byte :: r.tokens

/-- The tokens of the postfix form, each as the bytes that are printed. -/
def postfixForm : Infix → List (List UInt8)
  | operand w => [w]
  | paren e => e.postfixForm
  | bin op l r => l.postfixForm ++ r.postfixForm ++ [[op.byte]]

end Infix

/-! ### Texts -/

namespace ExpressionConvert

/-- The bytes of a lexeme. -/
def Lexeme.text : Lexeme → List UInt8
  | .operand w => w
  | .oper c => [c]

/-- A text that consists of the given lexemes, with any blanks before, between
and behind them. -/
inductive Spells : List Lexeme → List UInt8 → Prop
  | nil {b : List UInt8} (hb : ∀ c ∈ b, isblank c = true) : Spells [] b
  | cons {b : List UInt8} {l : Lexeme} {ls : List Lexeme} {text : List UInt8}
      (hb : ∀ c ∈ b, isblank c = true) (h : Spells ls text) :
      Spells (l :: ls) (b ++ (Lexeme.text l ++ text))

/-- No operand, blank or end of input. -/
def IsPlain (c : UInt8) : Prop :=
  isblank c = false ∧ isalpha c = false ∧ isdigit c = false ∧ c ≠ eofByte

/-- A lexeme that reads back as itself. -/
def Lexeme.Proper : Lexeme → Prop
  | .operand w => Infix.IsOperand w
  | .oper c => IsPlain c

/-- Two operands must not stand side by side. -/
def Apart : Lexeme → Lexeme → Prop
  | .operand _, .operand _ => False
  | _, _ => True

/-- Blanks and operators end an operand. -/
def EndsOperand (c : UInt8) : Prop := isalpha c = false ∧ isdigit c = false ∧ c ≠ eofByte

theorem endsOperand_of_isblank {c : UInt8} (h : isblank c = true) : EndsOperand c := by
  rw [isblank, Bool.or_eq_true, beq_iff_eq, beq_iff_eq] at h
  rcases h with rfl | rfl
  · exact ⟨rfl, rfl, by decide⟩
  · exact ⟨rfl, rfl, by decide⟩

theorem isblank_eq_false_of_isalpha {c : UInt8} (h : isalpha c = true) : isblank c = false := by
  by_contra hb
  have hend := endsOperand_of_isblank (Bool.of_not_eq_false hb)
  rw [hend.1] at h
  cases h

theorem isblank_eq_false_of_isdigit {c : UInt8} (h : isdigit c = true) : isblank c = false := by
  by_contra hb
  have hend := endsOperand_of_isblank (Bool.of_not_eq_false hb)
  rw [hend.2.1] at h
  cases h

theorem isalpha_eq_false_of_isdigit {c : UInt8} (h : isdigit c = true) : isalpha c = false := by
  have h9 : (chr '9').toNat = 57 := rfl
  have ha : (chr 'a').toNat = 97 := rfl
  have hA : (chr 'A').toNat = 65 := rfl
  rw [isdigit, Bool.and_eq_true, decide_eq_true_iff, decide_eq_true_iff,
    UInt8.le_iff_toNat_le, UInt8.le_iff_toNat_le] at h
  rw [isalpha, Bool.or_eq_false_iff, Bool.and_eq_false_iff, Bool.and_eq_false_iff]
  constructor
  · refine .inl (decide_eq_false ?_)
    rw [UInt8.le_iff_toNat_le]
    omega
  · refine .inl (decide_eq_false ?_)
    rw [UInt8.le_iff_toNat_le]
    omega

/-- What follows an operand in a text ends it. -/
theorem Spells.endsOperand (w : List UInt8) {ls : List Lexeme} {text : List UInt8}
    (h : Spells ls text) (hproper : ∀ l ∈ ls, l.Proper)
    (hapart : (Lexeme.operand w :: ls).IsChain Apart) :
    ∀ c ∈ text.head?, EndsOperand c := by
  intro c hc
  cases h with
  | nil hb => exact endsOperand_of_isblank (hb c (List.mem_of_mem_head? hc))
  | @cons b l ls text hb h =>
      cases b with
      | cons d b =>
          obtain rfl : d = c := Option.some.inj hc
          exact endsOperand_of_isblank (hb d (List.mem_cons_self ..))
      | nil =>
          cases l with
          | operand w' => exact absurd (List.isChain_cons_cons.mp hapart).1 id
          | oper d =>
              obtain rfl : d = c := Option.some.inj hc
              obtain ⟨-, hprop⟩ := hproper (.oper d) (List.mem_cons_self ..)
              exact hprop

theorem dropWhile_isblank_append {b text : List UInt8} (hb : ∀ c ∈ b, isblank c = true) :
    (b ++ text).dropWhile isblank = text.dropWhile isblank :=
  List.dropWhile_append_of_pos hb

/-- A run that is ended by what follows is read to its end, and nothing else
is lost. -/
theorem run_append {isx : UInt8 → Bool} {w text : List UInt8} (hw : ∀ c ∈ w, isx c = true)
    (htext : ∀ c ∈ text.head?, isx c = false ∧ c ≠ eofByte) :
    (w ++ text).takeWhile isx = w ∧ afterRun ((w ++ text).dropWhile isx) = text := by
  obtain ⟨htake, hdrop⟩ := run_eq hw fun c hc => (htext c hc).1
  rw [htake, hdrop]
  refine ⟨rfl, ?_⟩
  cases text with
  | nil => rfl
  | cons c cs => exact if_neg (htext c rfl).2

/-- What is read behind blanks, by its first byte. -/
theorem nextLexeme_append {b cs : List UInt8} {c : UInt8} (hb : ∀ d ∈ b, isblank d = true)
    (hc : isblank c = false) :
    nextLexeme (b ++ c :: cs) =
      if c = eofByte then none
      else if isalpha c then
        some (.operand (c :: cs.takeWhile isalpha), afterRun (cs.dropWhile isalpha))
      else if isdigit c then
        some (.operand (c :: cs.takeWhile isdigit), afterRun (cs.dropWhile isdigit))
      else some (.oper c, cs) := by
  rw [nextLexeme, dropWhile_isblank_append hb,
    List.dropWhile_cons_of_neg (ne_true_of_eq_false hc)]

/-- **A text has the lexemes that it spells.** -/
theorem lexemes_of_spells {ls : List Lexeme} {text : List UInt8} (h : Spells ls text)
    (hproper : ∀ l ∈ ls, l.Proper) (hapart : ls.IsChain Apart) : lexemes text = ls := by
  induction h with
  | @nil b hb =>
      apply lexemes_of_none
      rw [nextLexeme, List.dropWhile_eq_nil_iff.mpr hb]
  | @cons b l ls text hb h ih =>
      have ih := ih (fun l hl => hproper l (List.mem_cons_of_mem _ hl)) hapart.tail
      suffices hnext : nextLexeme (b ++ (Lexeme.text l ++ text)) = some (l, text) by
        rw [lexemes_of_some hnext, ih]
      have hl := hproper l (List.mem_cons_self ..)
      cases l with
      | oper c =>
          obtain ⟨hblank, halpha, hdigit, heof⟩ := hl
          show nextLexeme (b ++ c :: text) = _
          rw [nextLexeme_append hb hblank]
          simp only [halpha, hdigit, heof, if_false, Bool.false_eq_true]
      | operand w =>
          have hend := h.endsOperand _ (fun l hl => hproper l (List.mem_cons_of_mem _ hl)) hapart
          obtain ⟨hne, -, hclass⟩ := hl
          obtain ⟨c, w, rfl⟩ := List.exists_cons_of_ne_nil hne
          show nextLexeme (b ++ c :: (w ++ text)) = _
          rcases hclass with halpha | hdigit
          · have hc := halpha c (List.mem_cons_self ..)
            obtain ⟨htake, hdrop⟩ := run_append
              (fun d hd => halpha d (List.mem_cons_of_mem _ hd)) fun d hd =>
                ⟨(hend d hd).1, (hend d hd).2.2⟩
            have heof : c ≠ eofByte := by
              rintro rfl
              exact absurd hc (by decide)
            rw [nextLexeme_append hb (isblank_eq_false_of_isalpha hc)]
            simp only [heof, if_false, hc, if_true, htake, hdrop]
          · have hc := hdigit c (List.mem_cons_self ..)
            obtain ⟨htake, hdrop⟩ := run_append
              (fun d hd => hdigit d (List.mem_cons_of_mem _ hd)) fun d hd =>
                ⟨(hend d hd).2.1, (hend d hd).2.2⟩
            have heof : c ≠ eofByte := by
              rintro rfl
              exact absurd hc (by decide)
            have halpha := isalpha_eq_false_of_isdigit hc
            rw [nextLexeme_append hb (isblank_eq_false_of_isdigit hc)]
            simp only [heof, if_false, halpha, hc, if_true, htake, hdrop, Bool.false_eq_true]

end ExpressionConvert

namespace Infix

theorem tokens_proper {e : Infix} (h : e.WellFormed) : ∀ l ∈ e.tokens, l.Proper := by
  induction e with
  | operand w =>
      intro l hl
      obtain rfl := List.mem_singleton.mp hl
      exact h
  | paren e ih =>
      intro l hl
      rcases List.mem_cons.mp hl with rfl | hl
      · exact ⟨rfl, rfl, rfl, by decide⟩
      · rcases List.mem_append.mp hl with hl | hl
        · exact ih h l hl
        · obtain rfl := List.mem_singleton.mp hl
          exact ⟨rfl, rfl, rfl, by decide⟩
  | bin op l r ihl ihr =>
      intro t ht
      rcases List.mem_append.mp ht with ht | ht
      · exact ihl h.1 t ht
      · rcases List.mem_cons.mp ht with rfl | ht
        · cases op <;> exact ⟨rfl, rfl, rfl, by decide⟩
        · exact ihr h.2.1 t ht

/-- Tokens before and behind an operator are apart. -/
theorem isChain_append_oper {ls ls' : List Lexeme} (c : UInt8) (h : ls.IsChain Apart)
    (h' : ls'.IsChain Apart) : (ls ++ Lexeme.oper c :: ls').IsChain Apart := by
  refine List.isChain_append.mpr ⟨h, ?_, ?_⟩
  · cases ls' with
    | nil => exact List.isChain_singleton _
    | cons l ls' => exact List.isChain_cons_cons.mpr ⟨trivial, h'⟩
  · intro x _ y hy
    obtain rfl : Lexeme.oper c = y := Option.some.inj hy
    cases x <;> trivial

theorem tokens_apart (e : Infix) : e.tokens.IsChain Apart := by
  induction e with
  | operand w => exact List.isChain_singleton _
  | paren e ih =>
      have hclose := isChain_append_oper (chr ')') ih List.isChain_nil
      exact isChain_append_oper (chr '(') List.isChain_nil hclose
  | bin op l r ihl ihr => exact isChain_append_oper op.byte ihl ihr

/-- **A text that spells an expression has its tokens as lexemes.** -/
theorem lexemes_eq {e : Infix} (h : e.WellFormed) {text : List UInt8}
    (htext : Spells e.tokens text) : lexemes text = e.tokens :=
  lexemes_of_spells htext (tokens_proper h) e.tokens_apart

end Infix

end CodeSnippet
