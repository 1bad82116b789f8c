/-
CodeSnippet/ExpressionText.lean

What the evaluator of src/algorithm/tree/app/expressionOperation prints for the
tree of an expression, as a token reader sees it.  A node prints one item: its
number, or a character if the number is the code of an operator.

Main results:
  * `items_printfData` — the item of one node.
  * `items_inorder` — the infix text is the fully parenthesised form of these
    items.
  * `apart_postorder_iff` — where the postfix text cuts no number.
-/
import CodeSnippet.Brackets
import CodeSnippet.Decimal
import CodeSnippet.ExpressionTrees

namespace CodeSnippet

open Memory Postfix

namespace ExpressionOperation

/-! ### Expressions -/

/-- An operator of the program. -/
abbrev Operator := {c : UInt8 // isOperator c = true}

/-- Expressions over numbers, which are given by their digits. -/
abbrev Expression := Tree (List UInt8) Operator

def opItem (o : Operator) : Item := .char o.val

def tokenItem : Token (List UInt8) Operator → Item
  | .num w => .number w
  | .op o => opItem o

/-- The tree of an expression, with its tokens. -/
def grown : Expression → Grown
  | .num w => .number w
  | .bin o l r => .operator o.val (grown l) (grown r)

/-- The value that is the code of an operator. -/
def IsCode (data : ℤ) : Prop :=
  data = code '+' ∨ data = code '-' ∨ data = code '*' ∨ data = code '/' ∨ data = code '%'

instance : DecidablePred IsCode := fun _ => inferInstanceAs (Decidable (_ ∨ _))

theorem printfData_eq (data : ℤ) :
    printfData data = if IsCode data then padded [putchar data] else padded (bytes (toString data)) :=
  rfl

theorem isCode_operator (o : Operator) : IsCode (o.val.toNat : ℤ) := isOperator_iff.mp o.property

theorem isdigit_operator (o : Operator) : isdigit o.val = false ∧ isblank o.val = false := by
  obtain ⟨c, hc⟩ := o
  simp only [isOperator, Bool.or_eq_true, beq_iff_eq] at hc
  rcases hc with (((rfl | rfl) | rfl) | rfl) | rfl <;> exact ⟨rfl, rfl⟩

theorem putchar_toNat (c : UInt8) : putchar (c.toNat : ℤ) = c := storedByte_toNat c

theorem grown_isNull (e : Expression) : (grown e).tree.isNull = false := by
  cases e with
  | num w => rfl
  | bin o l r => rfl

/-! ### One node -/

/-- The item that is printed for a node. -/
def printedItem (data : ℤ) : Item :=
  if IsCode data then .char (putchar data) else .number (bytes (toString data))

theorem isblank_padding {l : List UInt8} :
    ∀ c ∈ List.replicate (3 - l.length) (chr ' '), isblank c = true := by
  intro c hc
  rw [List.eq_of_mem_replicate hc]
  rfl

theorem items_padded (l rest : List UInt8) : items (padded l ++ rest) = items (l ++ rest) := by
  rw [padded, List.append_assoc, items_blanks isblank_padding]

theorem printfData_operator (o : Operator) : printfData (o.val.toNat : ℤ) = padded [o.val] := by
  rw [printfData_eq, if_pos (isCode_operator o), putchar_toNat]

theorem printfData_numeral {n : ℕ} (h : ¬ IsCode n) : printfData n = padded (numeral n) := by
  rw [printfData_eq, if_neg h, bytes_toString]

theorem printedItem_operator (o : Operator) : printedItem (o.val.toNat : ℤ) = opItem o := by
  rw [printedItem, if_pos (isCode_operator o), putchar_toNat, opItem]

theorem printedItem_numeral {n : ℕ} (h : ¬ IsCode n) : printedItem n = .number (numeral n) := by
  rw [printedItem, if_neg h, bytes_toString]

/-- A number whose value is the code of an operator is printed as one. -/
theorem exists_operator {n : ℕ} (h : IsCode n) : ∃ o : Operator, (n : ℤ) = (o.val.toNat : ℤ) := by
  rcases h with h | h | h | h | h
  · exact ⟨⟨chr '+', rfl⟩, h⟩
  · exact ⟨⟨chr '-', rfl⟩, h⟩
  · exact ⟨⟨chr '*', rfl⟩, h⟩
  · exact ⟨⟨chr '/', rfl⟩, h⟩
  · exact ⟨⟨chr '%', rfl⟩, h⟩

/-- **A node prints one item.** -/
theorem items_printfData (n : ℕ) {rest : List UInt8} (hrest : rest.head?.any isdigit = false) :
    items (printfData n ++ rest) = printedItem n :: items rest := by
  by_cases h : IsCode n
  · obtain ⟨o, ho⟩ := exists_operator h
    obtain ⟨hdigit, hblank⟩ := isdigit_operator o
    rw [ho, printfData_operator, items_padded, printedItem_operator, List.singleton_append,
      items_char hblank hdigit, opItem]
  · rw [printfData_numeral h, items_padded, printedItem_numeral h,
      items_number (numeral_ne_nil n) (isdigit_numeral n) hrest]

theorem printfData_ne_nil (data : ℤ) : printfData data ≠ [] := by
  have hpadded : ∀ l : List UInt8, padded l ≠ [] := by
    intro l h
    have hlen := congrArg List.length h
    rw [padded, List.length_append, List.length_replicate, List.length_nil] at hlen
    omega
  rw [printfData]
  split
  · exact hpadded _
  · exact hpadded _

/-- A digit comes last, unless an operator is printed. -/
theorem getLast?_printfData (n : ℕ) :
    (printfData n).getLast?.any isdigit = !decide (IsCode n) := by
  have hlast : ∀ l : List UInt8, l ≠ [] → (padded l).getLast? = l.getLast? :=
    fun l hl => List.getLast?_append_of_ne_nil _ hl
  by_cases h : IsCode n
  · obtain ⟨o, ho⟩ := exists_operator h
    rw [decide_eq_true h, ho, printfData_operator, hlast _ (List.cons_ne_nil _ _)]
    exact (isdigit_operator o).1
  · have hne := numeral_ne_nil n
    rw [decide_eq_false h, printfData_numeral h, hlast _ hne, List.getLast?_eq_some_getLast hne]
    exact isdigit_numeral n _ (List.getLast_mem hne)

/-- A digit comes first in a number of three or more digits. -/
theorem head?_printfData (n : ℕ) :
    (printfData n).head?.any isdigit = decide (¬ IsCode n ∧ 100 ≤ n) := by
  have hshort : ∀ l : List UInt8, l.length < 3 → (padded l).head?.any isdigit = false := by
    intro l hl
    obtain ⟨k, hk⟩ := Nat.exists_eq_add_of_lt hl
    rw [padded, show 3 - l.length = k + 1 by omega, List.replicate_succ]
    rfl
  by_cases h : IsCode n
  · obtain ⟨o, ho⟩ := exists_operator h
    rw [decide_eq_false fun hn => hn.1 h, ho, printfData_operator]
    exact hshort _ (by decide : 1 < 3)
  · have hlen : (numeral n).length ≤ 2 ↔ n < 10 ^ 2 := length_numeral_le_iff (by decide)
    rw [printfData_numeral h]
    by_cases hn : 100 ≤ n
    · obtain ⟨c, cs, hcs⟩ := List.exists_cons_of_ne_nil (numeral_ne_nil n)
      have hdigit := isdigit_numeral n c (hcs ▸ List.mem_cons_self ..)
      have hpadding : 3 - (numeral n).length = 0 := by omega
      rw [decide_eq_true ⟨h, hn⟩, padded, hpadding, List.replicate_zero, List.nil_append, hcs]
      exact hdigit
    · rw [decide_eq_false fun h' => hn h'.2]
      exact hshort _ (by omega)

/-! ### The infix text -/

/-- The items of the infix form. -/
def infixItems (e : Tree Item Item) : List Item := e.brackets (.char (chr '(')) (.char (chr ')'))

/-- The expression that is printed. -/
def printed (e : Expression) : Tree Item Item := e.map (fun w => printedItem (decimal w)) opItem

/-- **The infix text spells the parenthesised form** of what the nodes print. -/
theorem items_inorder (e : Expression) :
    ∃ out, inorderFn (grown e).tree = some out ∧
      ∀ rest : List UInt8, rest.head?.any isdigit = false →
        items (out ++ rest) = infixItems (printed e) ++ items rest := by
  induction e with
  | num w =>
      obtain ⟨n, hn⟩ := exists_decimal w
      refine ⟨printfData (decimal w), rfl, ?_⟩
      intro rest hrest
      show _ = [printedItem (decimal w)] ++ _
      rw [hn, items_printfData n hrest, List.singleton_append]
  | bin o l r ihl ihr =>
      obtain ⟨outl, hl, hitemsl⟩ := ihl
      obtain ⟨outr, hr, hitemsr⟩ := ihr
      refine ⟨bytes "(" ++ outl ++ bytes ")" ++ printfData (o.val.toNat : ℤ) ++ bytes "(" ++ outr ++
        bytes ")", ?_, ?_⟩
      · rw [grown, Grown.tree, inorderFn, grown_isNull, Bool.false_and, if_neg Bool.false_ne_true,
          hl, hr]
        rfl
      · intro rest hrest
        have hout : bytes "(" ++ outl ++ bytes ")" ++ printfData (o.val.toNat : ℤ) ++ bytes "(" ++
            outr ++ bytes ")" ++ rest = chr '(' :: (outl ++ chr ')' ::
              (printfData (o.val.toNat : ℤ) ++ chr '(' :: (outr ++ chr ')' :: rest))) := by
          simp only [show bytes "(" = [chr '('] from rfl, show bytes ")" = [chr ')'] from rfl,
            List.append_assoc, List.cons_append, List.nil_append]
        have hform : infixItems (printed (.bin o l r)) = .char (chr '(') :: (infixItems (printed l) ++
            .char (chr ')') :: opItem o :: .char (chr '(') :: (infixItems (printed r) ++
              [.char (chr ')')])) := rfl
        rw [hout, items_char rfl rfl, hitemsl _ rfl, items_char rfl rfl,
          items_printfData o.val.toNat rfl, items_char rfl rfl, hitemsr _ rfl, items_char rfl rfl,
          printedItem_operator, hform]
        simp only [List.append_assoc, List.cons_append, List.nil_append]

/-! ### The postfix text -/

/-- What is printed for the node of a token. -/
def printedToken : Token (List UInt8) Operator → List UInt8
  | .num w => printfData (decimal w)
  | .op o => printfData (o.val.toNat : ℤ)

theorem bitreePostorder_eq (e : Expression) :
    bitreePostorder (grown e).tree = (e.tokens.map printedToken).flatten := by
  induction e with
  | num w => exact List.flatten_singleton.symm
  | bin o l r ihl ihr =>
      have hop : (List.map printedToken [.op o]).flatten = printfData (o.val.toNat : ℤ) :=
        List.flatten_singleton
      rw [grown, Grown.tree, bitreePostorder, ihl, ihr, Tree.tokens, List.map_append,
        List.map_append, List.flatten_append, List.flatten_append, List.append_assoc, hop]

/-- The node of a token holds a number. -/
theorem exists_printedToken (t : Token (List UInt8) Operator) :
    ∃ n : ℕ, printedToken t = printfData n := by
  cases t with
  | num w =>
      obtain ⟨n, hn⟩ := exists_decimal w
      exact ⟨n, by rw [printedToken, hn]⟩
  | op o => exact ⟨_, rfl⟩

theorem printedToken_ne_nil (t : Token (List UInt8) Operator) : printedToken t ≠ [] := by
  obtain ⟨n, hn⟩ := exists_printedToken t
  rw [hn]
  exact printfData_ne_nil _

theorem length_items_printedToken (t : Token (List UInt8) Operator) :
    (items (printedToken t)).length = 1 := by
  obtain ⟨n, hn⟩ := exists_printedToken t
  have hitems := items_printfData n (show ([] : List UInt8).head?.any isdigit = false from rfl)
  rw [List.append_nil] at hitems
  rw [hn, hitems]
  rfl

/-- Numbers are printed as numbers. -/
def Plain (ts : List (Token (List UInt8) Operator)) : Prop :=
  ∀ w, .num w ∈ ts → ¬ IsCode (decimal w)

/-- The digits that are printed for a number. -/
def canonical (w : List UInt8) : List UInt8 := bytes (toString (decimal w))

theorem items_printedToken {ts : List (Token (List UInt8) Operator)} (hplain : Plain ts)
    {t : Token (List UInt8) Operator} (ht : t ∈ ts) :
    items (printedToken t) = [tokenItem (t.map canonical id)] := by
  cases t with
  | num w =>
      obtain ⟨n, hn⟩ := exists_decimal w
      have hcode := hplain w ht
      have hitems := items_printfData n (show ([] : List UInt8).head?.any isdigit = false from rfl)
      rw [hn] at hcode
      rw [List.append_nil, printedItem_numeral hcode] at hitems
      rw [printedToken, hn, hitems, Token.map, tokenItem, canonical, hn, bytes_toString]
      rfl
  | op o =>
      have hitems := items_printfData o.val.toNat
        (show ([] : List UInt8).head?.any isdigit = false from rfl)
      rw [List.append_nil, printedItem_operator] at hitems
      exact hitems

/-- Two tokens whose nodes are printed apart: a number of three or more digits
is printed without a blank in front. -/
def Separated : Token (List UInt8) Operator → Token (List UInt8) Operator → Prop
  | .num _, .num w => decimal w < 100
  | _, _ => True

/-- **Where the postfix text cuts no number.** -/
theorem apart_postorder_iff {ts : List (Token (List UInt8) Operator)} (hplain : Plain ts) :
    Apart (ts.map printedToken) ↔ ts.IsChain Separated := by
  rw [Apart, List.isChain_map]
  apply List.IsChain.iff_of_mem_imp
  intro t t' ht ht'
  have hop : ∀ o : Operator, (printfData (o.val.toNat : ℤ)).head?.any isdigit = false ∧
      (printfData (o.val.toNat : ℤ)).getLast?.any isdigit = false := by
    intro o
    rw [head?_printfData, getLast?_printfData]
    exact ⟨decide_eq_false fun h => h.1 (isCode_operator o),
      by rw [decide_eq_true (isCode_operator o), Bool.not_true]⟩
  cases t with
  | op o => exact iff_of_true (by rw [cutsNumber, printedToken, (hop o).2, Bool.false_and]) trivial
  | num w =>
      cases t' with
      | op o =>
          exact iff_of_true (by rw [cutsNumber, printedToken, printedToken, (hop o).1, Bool.and_false])
            trivial
      | num w' =>
          obtain ⟨n, hn⟩ := exists_decimal w
          obtain ⟨n', hn'⟩ := exists_decimal w'
          have hcode := hplain w ht
          have hcode' := hplain w' ht'
          rw [hn] at hcode
          rw [hn'] at hcode'
          show cutsNumber (printfData (decimal w)) (printfData (decimal w')) = false ↔ decimal w' < 100
          rw [cutsNumber, hn, hn', getLast?_printfData, head?_printfData, decide_eq_false hcode,
            Bool.not_false, Bool.true_and, decide_eq_false_iff_not, and_iff_right hcode', not_le]
          exact Nat.cast_lt.symm

end ExpressionOperation

end CodeSnippet
