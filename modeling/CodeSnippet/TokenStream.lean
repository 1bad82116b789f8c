/-
CodeSnippet/TokenStream.lean

What a token reader over numbers makes of any input: its items, which are
numbers and single characters.  Blanks only separate items; a number ends in
front of the first byte that is no digit.

Main results:
  * `items_eq` — the first item and the rest, as a reader finds them.
  * `items_append` — the items of a text are those of its parts, unless a number
    is cut.
  * `length_items_append` — where a number is cut there is one item less.
  * `items_flatten`, `length_items_flatten` — the same for many texts of one item
    each.
-/
import CodeSnippet.PostfixLine

namespace CodeSnippet

open Postfix

/-- A number, given by its digits, or another character. -/
inductive Item
  | number (w : List UInt8)
  | char (c : UInt8)
  deriving DecidableEq

/-- An array of 8 `char`s has room for it. -/
def Item.Fits : Item → Prop
  | .number w => w.length ≤ 7
  | .char _ => True

instance : DecidablePred Item.Fits
  | .number w => inferInstanceAs (Decidable (w.length ≤ 7))
  | .char _ => inferInstanceAs (Decidable True)

theorem Item.forall_fits_cons {t : Item} (h : t.Fits) (ts : List Item) :
    (∀ t' ∈ t :: ts, t'.Fits) ↔ ∀ t' ∈ ts, t'.Fits :=
  List.forall_mem_cons.trans (and_iff_right h)

/-- The items of an input that starts with the digit `c`, when `ts` are those of
the rest. -/
def addDigit (c : UInt8) (rest : List UInt8) (ts : List Item) : List Item :=
  match ts with
  | .number w :: ts =>
      if rest.head?.any isdigit then .number (c :: w) :: ts else .number [c] :: .number w :: ts
  | ts => .number [c] :: ts

/-- The items of an input. -/
def items : List UInt8 → List Item
  | [] => []
  | c :: cs =>
      if isblank c then items cs
      else if isdigit c then addDigit c cs (items cs)
      else .char c :: items cs

variable {b w rest : List UInt8} {c : UInt8}

theorem items_blank (h : isblank c = true) (rest : List UInt8) : items (c :: rest) = items rest :=
  if_pos h

theorem items_char (hblank : isblank c = false) (hdigit : isdigit c = false) (rest : List UInt8) :
    items (c :: rest) = .char c :: items rest := by
  rw [items, hblank, hdigit]
  rfl

theorem items_digit (h : isdigit c = true) (rest : List UInt8) :
    items (c :: rest) = addDigit c rest (items rest) := by
  rw [items, ExpressionConvert.isblank_eq_false_of_isdigit h, h]
  rfl

theorem items_blanks (hb : ∀ c ∈ b, isblank c = true) (rest : List UInt8) :
    items (b ++ rest) = items rest := by
  induction b with
  | nil => rfl
  | cons c b ih =>
      obtain ⟨hc, hb⟩ := List.forall_mem_cons.mp hb
      rw [List.cons_append, items_blank hc, ih hb]

/-- An input that does not start with a digit. -/
theorem addDigit_of_not (h : rest.head?.any isdigit = false) (c : UInt8) (ts : List Item) :
    addDigit c rest ts = .number [c] :: ts := by
  rcases ts with _ | ⟨_ | _, ts⟩
  · rfl
  · rw [addDigit, h]
    rfl
  · rfl

/-- A number and what follows it. -/
theorem items_number (hne : w ≠ []) (hw : ∀ c ∈ w, isdigit c = true)
    (hrest : rest.head?.any isdigit = false) : items (w ++ rest) = .number w :: items rest := by
  induction w with
  | nil => exact absurd rfl hne
  | cons c w ih =>
      obtain ⟨hc, hw⟩ := List.forall_mem_cons.mp hw
      rw [List.cons_append, items_digit hc]
      rcases w with _ | ⟨d, w⟩
      · rw [List.nil_append, addDigit_of_not hrest]
      · have hd : ((d :: w) ++ rest).head?.any isdigit = true := hw d (List.mem_cons_self ..)
        rw [ih (List.cons_ne_nil d w) hw, addDigit, hd]
        rfl

theorem head?_dropWhile {p : UInt8 → Bool} (l : List UInt8) :
    (l.dropWhile p).head?.any p = false := by
  rcases h : l.dropWhile p with _ | ⟨c, cs⟩
  · rfl
  · have hne : l.dropWhile p ≠ [] := h ▸ List.cons_ne_nil c cs
    have hhead := List.head_dropWhile_not p hne
    simp only [h, List.head_cons] at hhead
    exact hhead

theorem items_dropWhile (inp : List UInt8) : items (inp.dropWhile isblank) = items inp := by
  conv_rhs => rw [← List.takeWhile_append_dropWhile (p := isblank) (l := inp)]
  exact (items_blanks (fun c => List.mem_takeWhile_imp) _).symm

/-- **The first item of an input**, and the rest. -/
theorem items_eq {inp cs : List UInt8} (h : inp.dropWhile isblank = c :: cs) :
    items inp =
      if isdigit c then .number (c :: cs.takeWhile isdigit) :: items (cs.dropWhile isdigit)
      else .char c :: items cs := by
  have hblank := head?_dropWhile (p := isblank) inp
  rw [h] at hblank
  rw [← items_dropWhile, h]
  split
  · rename_i hdigit
    have hrun : ∀ d ∈ c :: cs.takeWhile isdigit, isdigit d = true :=
      List.forall_mem_cons.mpr ⟨hdigit, fun d => List.mem_takeWhile_imp⟩
    rw [← items_number (List.cons_ne_nil _ _) hrun (head?_dropWhile cs), List.cons_append,
      List.takeWhile_append_dropWhile]
  · rename_i hdigit
    exact items_char hblank (Bool.of_not_eq_true hdigit) cs

/-! ### Texts that are put together -/

/-- An input that starts with a digit has a number as its first item. -/
theorem exists_items_number {l : List UInt8} (h : l.head?.any isdigit = true) :
    ∃ w ts, items l = .number w :: ts := by
  rcases l with _ | ⟨c, l⟩
  · cases h
  · rw [items_digit h]
    rcases items l with _ | ⟨w | d, ts⟩
    · exact ⟨_, _, rfl⟩
    · rw [addDigit]
      split
      · exact ⟨_, _, rfl⟩
      · exact ⟨_, _, rfl⟩
    · exact ⟨_, _, rfl⟩

/-- A number is cut between two texts. -/
def cutsNumber (l rest : List UInt8) : Bool :=
  l.getLast?.any isdigit && rest.head?.any isdigit

theorem cutsNumber_cons (c d : UInt8) (l rest : List UInt8) :
    cutsNumber (c :: d :: l) rest = cutsNumber (d :: l) rest := by
  rw [cutsNumber, List.getLast?_cons_cons, cutsNumber]

/-- **The items of a text** are those of its parts, unless a number is cut. -/
theorem items_append {l : List UInt8} (h : cutsNumber l rest = false) :
    items (l ++ rest) = items l ++ items rest := by
  induction l with
  | nil => rfl
  | cons c l ih =>
      rw [List.cons_append]
      rcases l with _ | ⟨d, l⟩
      · -- the last byte of the first text
        rw [List.nil_append]
        rcases hdigit : isdigit c with _ | _
        · rcases hblank : isblank c with _ | _
          · rw [items_char hblank hdigit, items_char hblank hdigit]
            rfl
          · rw [items_blank hblank, items_blank hblank]
            rfl
        · rw [cutsNumber, List.getLast?_singleton, Option.any_some, hdigit, Bool.true_and] at h
          rw [items_digit hdigit, items_digit hdigit, addDigit_of_not h]
          rfl
      · rw [cutsNumber_cons] at h
        rcases hdigit : isdigit c with _ | _
        · rcases hblank : isblank c with _ | _
          · rw [items_char hblank hdigit, items_char hblank hdigit, ih h]
            rfl
          · rw [items_blank hblank, items_blank hblank, ih h]
        · have hhead : ((d :: l) ++ rest).head? = (d :: l).head? := rfl
          rw [items_digit hdigit, items_digit hdigit, ih h]
          rcases hl : (d :: l).head?.any isdigit with _ | _
          · rw [addDigit_of_not hl, addDigit_of_not (hhead ▸ hl)]
            rfl
          · obtain ⟨w, ts, hts⟩ := exists_items_number hl
            rw [hts]
            show addDigit c _ (.number w :: (ts ++ items rest)) = _
            rw [addDigit, addDigit, hhead, hl]
            rfl

theorem length_addDigit (c : UInt8) (l : List UInt8) :
    (addDigit c l (items l)).length + (l.head?.any isdigit).toNat = (items l).length + 1 := by
  rcases hl : l.head?.any isdigit with _ | _
  · rw [addDigit_of_not hl]
    rfl
  · obtain ⟨w, ts, hts⟩ := exists_items_number hl
    rw [hts, addDigit, hl]
    rfl

/-- **Where a number is cut there is one item less.** -/
theorem length_items_append (l rest : List UInt8) :
    (items (l ++ rest)).length + (cutsNumber l rest).toNat =
      (items l).length + (items rest).length := by
  induction l with
  | nil =>
      rw [List.nil_append]
      exact Nat.add_comm ..
  | cons c l ih =>
      rw [List.cons_append]
      rcases l with _ | ⟨d, l⟩
      · -- the last byte of the first text
        rw [List.nil_append, cutsNumber, List.getLast?_singleton, Option.any_some]
        rcases hdigit : isdigit c with _ | _
        · rcases hblank : isblank c with _ | _
          · rw [items_char hblank hdigit, items_char hblank hdigit]
            simp [items, Nat.add_comm]
          · rw [items_blank hblank, items_blank hblank]
            simp [items]
        · have hlength := length_addDigit c rest
          rw [items_digit hdigit, items_digit hdigit, Bool.true_and, hlength]
          exact Nat.add_comm ..
      · rw [cutsNumber_cons]
        rcases hdigit : isdigit c with _ | _
        · rcases hblank : isblank c with _ | _
          · rw [items_char hblank hdigit, items_char hblank hdigit, List.length_cons,
              List.length_cons]
            omega
          · rw [items_blank hblank, items_blank hblank, ih]
        · have hlong := length_addDigit c ((d :: l) ++ rest)
          have hshort := length_addDigit c (d :: l)
          have hhead : ((d :: l) ++ rest).head? = (d :: l).head? := rfl
          rw [hhead] at hlong
          rw [items_digit hdigit, items_digit hdigit]
          omega

/-! ### Texts with one item each -/

/-- No number is cut between neighbours. -/
def Apart : List (List UInt8) → Prop := List.IsChain fun l l' => cutsNumber l l' = false

theorem cutsNumber_append {l l' : List UInt8} (h : l' ≠ []) (rest : List UInt8) :
    cutsNumber l (l' ++ rest) = cutsNumber l l' := by
  rw [cutsNumber, List.head?_append_of_ne_nil _ h, cutsNumber]

/-- **The items of texts that stand apart.** -/
theorem items_flatten {ls : List (List UInt8)} (hne : ∀ l ∈ ls, l ≠ []) (h : Apart ls) :
    items ls.flatten = ls.flatMap items := by
  induction ls with
  | nil => rfl
  | cons l ls ih =>
      obtain ⟨-, hne⟩ := List.forall_mem_cons.mp hne
      rcases ls with _ | ⟨l', ls⟩
      · rw [List.flatten_singleton, List.flatMap_singleton]
      · obtain ⟨hcut, hchain⟩ := List.isChain_cons_cons.mp h
        have hl' := hne l' (List.mem_cons_self ..)
        rw [List.flatten_cons, List.flatMap_cons, ← ih hne hchain, items_append]
        rw [List.flatten_cons, cutsNumber_append hl']
        exact hcut

/-- **Where a number is cut the items are fewer than the texts.** -/
theorem length_items_flatten {ls : List (List UInt8)} (hne : ∀ l ∈ ls, l ≠ [])
    (hone : ∀ l ∈ ls, (items l).length = 1) :
    (items ls.flatten).length ≤ ls.length ∧
      (¬ Apart ls → (items ls.flatten).length < ls.length) := by
  induction ls with
  | nil => exact ⟨Nat.zero_le _, fun h => absurd List.isChain_nil h⟩
  | cons l ls ih =>
      obtain ⟨hl, hne⟩ := List.forall_mem_cons.mp hne
      obtain ⟨hone, hones⟩ := List.forall_mem_cons.mp hone
      obtain ⟨hle, hlt⟩ := ih hne hones
      have happend := length_items_append l ls.flatten
      rw [List.flatten_cons, List.length_cons]
      refine ⟨by omega, ?_⟩
      intro h
      rcases ls with _ | ⟨l', ls⟩
      · exact absurd (List.isChain_singleton l) h
      · by_cases hcut : cutsNumber l l' = false
        · have hnot : ¬ Apart (l' :: ls) := fun hchain => h (List.isChain_cons_cons.mpr ⟨hcut, hchain⟩)
          have hlt := hlt hnot
          omega
        · have hcut : cutsNumber l (l' :: ls).flatten = true := by
            rw [List.flatten_cons, cutsNumber_append (hne l' (List.mem_cons_self ..))]
            exact Bool.of_not_eq_false hcut
          rw [hcut, Bool.toNat_true] at happend
          omega

end CodeSnippet
