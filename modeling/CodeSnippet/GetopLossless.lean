/-
CodeSnippet/GetopLossless.lean

The three token readers of src/algorithm, which are copies of each other.  The
copy in tree/app compares the result of `getchar` itself with `EOF`, so that byte
255 is not lost on it; but it returns a NUL as it is, which is `NUMBER`.

Main results:
  * `getop_lossless_iff` — the inputs on which each of them is lossless.
-/
import CodeSnippet.ExpressionTrees
import CodeSnippet.PostfixItems
import CodeSnippet.TokenReader

namespace CodeSnippet

open Memory TokenReader

/-! ### The readers -/

/-- `getop` of src/algorithm/stack/app/expressionConvert.c -/
def convertReader : Reader ExpressionConvert.OpType where
  getop := ExpressionConvert.getop
  isEnd ret := ret = .endOfInput
  isNumber ret := ret = .number

/-- `getop` of src/algorithm/stack/app/postfixExpression.c -/
def postfixReader : Reader PostfixExpression.OpType where
  getop := PostfixExpression.getop
  isEnd ret := ret = .endOfInput
  isNumber ret := ret = .number

/-- `getop` of src/algorithm/tree/app/expressionOperation; `NUMBER` is 0. -/
def operationReader : Reader ℤ where
  getop := ExpressionOperation.getop
  isEnd ret := ret = eof
  isNumber ret := ret = 0

/-- A `char` that equals `EOF`. -/
def isEofByte (c : UInt8) : Bool := c == eofByte

theorem afterRun_eq (l : List UInt8) : afterRun l = putBack isEofByte l := by
  rcases l with _ | ⟨c, l⟩
  · rfl
  · rw [afterRun, putBack, isEofByte]
    simp only [beq_iff_eq]

theorem putBack_none (l : List UInt8) : putBack (fun _ => false) l = l := by
  cases l <;> rfl

/-! ### Classes -/

/-- NUL and the `char` that equals `EOF` are in no class. -/
theorem ne_of_class {isx : UInt8 → Bool} (hnul : isx 0 = false) (heof : isx eofByte = false)
    {c : UInt8} (h : isx c = true) : c ≠ 0 ∧ isEofByte c = false := by
  constructor
  · rintro rfl
    rw [hnul] at h
    cases h
  · refine Bool.of_not_eq_true fun hc => ?_
    rw [eq_of_beq hc, heof] at h
    cases h

theorem isblank_apart {c : UInt8} (h : isblank c = true) : c ≠ 0 ∧ isEofByte c = false :=
  ne_of_class rfl rfl h

theorem isdigit_apart {c : UInt8} (h : isdigit c = true) :
    isblank c = false ∧ c ≠ 0 ∧ isEofByte c = false :=
  ⟨ExpressionConvert.isblank_eq_false_of_isdigit h, ne_of_class rfl rfl h⟩

theorem isalpha_apart {c : UInt8} (h : isalpha c = true) :
    isblank c = false ∧ c ≠ 0 ∧ isEofByte c = false :=
  ⟨ExpressionConvert.isblank_eq_false_of_isalpha h, ne_of_class rfl rfl h⟩

theorem isblank_eq_false_of_isEofByte {c : UInt8} (h : isEofByte c = true) : isblank c = false := by
  rw [eq_of_beq h]
  rfl

theorem convertClasses : Classes isEofByte [isalpha, isdigit] where
  digit := List.mem_pair.mpr (.inr rfl)
  disjoint := by
    have hdisjoint : ∀ c, isalpha c = true → ¬ isdigit c = true := by
      intro c halpha hdigit
      rw [ExpressionConvert.isalpha_eq_false_of_isdigit hdigit] at halpha
      cases halpha
    intro isx hx isy hy c hcx hcy
    rcases List.mem_pair.mp hx with rfl | rfl <;> rcases List.mem_pair.mp hy with rfl | rfl
    · rfl
    · exact absurd hcy (hdisjoint c hcx)
    · exact absurd hcx (hdisjoint c hcy)
    · rfl
  apart := by
    intro isx hx c hc
    rcases List.mem_pair.mp hx with rfl | rfl
    · exact isalpha_apart hc
    · exact isdigit_apart hc
  blank _ := isblank_apart

/-- Digits are the only class. -/
theorem digitClasses {lost : UInt8 → Bool} (hlost : ∀ c, isEofByte c = false → lost c = false) :
    Classes lost [isdigit] where
  digit := List.mem_singleton_self _
  disjoint _ hx _ hy _ _ _ := (List.mem_singleton.mp hx).trans (List.mem_singleton.mp hy).symm
  apart := List.forall_mem_singleton.mpr fun c hc =>
    (isdigit_apart hc).imp_right (And.imp_right (hlost c))
  blank c hc := (isblank_apart hc).imp_right (hlost c)

/-! ### The three copies -/

theorem dropWhile_char {b : List UInt8} {c : UInt8} (hb : ∀ d ∈ b, isblank d = true)
    (hc : isblank c = false) (l : List UInt8) : (b ++ c :: l).dropWhile isblank = c :: l :=
  dropWhile_front hb (List.cons_ne_nil c []) (List.forall_mem_singleton.mpr hc) l

theorem postfixReads : Reads postfixReader isEofByte [isdigit] where
  atEnd s inp hs hb := by
    have hget := PostfixExpression.getop_items hs inp
    rw [List.dropWhile_eq_nil_iff.mpr hb] at hget
    obtain ⟨s', rest, hget⟩ := hget
    exact ⟨_, s', rest, hget, rfl⟩
  atLost s b c l hs hb hlost := by
    have hget := PostfixExpression.getop_items hs (b ++ c :: l)
    rw [dropWhile_char hb (isblank_eq_false_of_isEofByte hlost)] at hget
    simp only [eq_of_beq hlost, if_true] at hget
    obtain ⟨s', rest, hget⟩ := hget
    rw [eq_of_beq hlost]
    exact ⟨_, s', rest, hget, rfl⟩
  atRun s b w l isx hisx hs hb hne hw hl := by
    obtain rfl := List.mem_singleton.mp hisx
    have hget := PostfixExpression.getop_items hs (b ++ (w ++ l))
    rw [dropWhile_front hb hne fun d hd => (isdigit_apart (hw d hd)).1] at hget
    rcases w with _ | ⟨c, w⟩
    · exact absurd rfl hne
    · obtain ⟨hc, hrun⟩ := List.forall_mem_cons.mp hw
      obtain ⟨htake, hdrop⟩ := run_eq hrun hl
      have heof : c ≠ eofByte := fun h => by
        rw [h] at hc
        cases hc
      simp only [List.cons_append] at hget
      rw [if_neg heof, if_pos hc, htake, hdrop] at hget
      split
      · rename_i hlength
        rw [if_pos hlength] at hget
        obtain ⟨s', hget, hs', htext⟩ := hget
        refine ⟨.number, s', ?_, hs', rfl, fun _ => rfl, htext⟩
        rw [← afterRun_eq]
        exact hget
      · rename_i hlength
        rw [if_neg hlength] at hget
        exact hget
  atChar s b c l hs hb hblank hlost hclasses := by
    have hget := PostfixExpression.getop_items hs (b ++ c :: l)
    rw [dropWhile_char hb hblank] at hget
    have heof : c ≠ eofByte := fun h => by
      rw [h] at hlost
      cases hlost
    have hdigit := ne_true_of_eq_false (hclasses isdigit (List.mem_singleton_self _))
    simp only at hget
    rw [if_neg heof, if_neg hdigit] at hget
    obtain ⟨s', hget, hs', hcell, hnul⟩ := hget
    refine ⟨.operator, s', hget, hs', rfl, fun h => (by cases h), ?_⟩
    rw [cString_char hs' hnul, hcell]

theorem operationReads : Reads operationReader (fun _ => false) [isdigit] where
  atEnd s inp hs hb := by
    have hget := ExpressionOperation.getop_items hs inp
    rw [List.dropWhile_eq_nil_iff.mpr hb] at hget
    obtain ⟨s', hget⟩ := hget
    exact ⟨_, s', [], hget, rfl⟩
  atLost _ _ _ _ _ _ hlost := absurd hlost Bool.false_ne_true
  atRun s b w l isx hisx hs hb hne hw hl := by
    obtain rfl := List.mem_singleton.mp hisx
    have hget := ExpressionOperation.getop_items hs (b ++ (w ++ l))
    rw [dropWhile_front hb hne fun d hd => (isdigit_apart (hw d hd)).1] at hget
    rcases w with _ | ⟨c, w⟩
    · exact absurd rfl hne
    · obtain ⟨hc, hrun⟩ := List.forall_mem_cons.mp hw
      obtain ⟨htake, hdrop⟩ := run_eq hrun hl
      simp only [List.cons_append] at hget
      rw [if_pos hc, htake, hdrop] at hget
      split
      · rename_i hlength
        rw [if_pos hlength] at hget
        obtain ⟨s', hget, hs', htext⟩ := hget
        refine ⟨0, s', ?_, hs', rfl, fun _ => rfl, htext⟩
        rw [putBack_none]
        exact hget
      · rename_i hlength
        rw [if_neg hlength] at hget
        exact hget
  atChar s b c l hs hb hblank _ hclasses := by
    have hget := ExpressionOperation.getop_items hs (b ++ c :: l)
    rw [dropWhile_char hb hblank] at hget
    have hdigit := ne_true_of_eq_false (hclasses isdigit (List.mem_singleton_self _))
    simp only at hget
    rw [if_neg hdigit] at hget
    obtain ⟨s', hget, hs', hcell, hnul⟩ := hget
    have hend : (c.toNat : ℤ) ≠ eof := fun heof => by
      have hnonneg : (0 : ℤ) ≤ (c.toNat : ℤ) := Int.natCast_nonneg _
      rw [heof] at hnonneg
      exact absurd hnonneg (by decide)
    have hzero : (c.toNat : ℤ) = 0 → c = 0 := fun h => UInt8.toNat_inj.mp (Int.natCast_inj.mp h)
    refine ⟨(c.toNat : ℤ), s', hget, hs', decide_eq_false hend, fun h => ?_, ?_⟩
    · exact hzero (of_decide_eq_true h)
    · rw [cString_char hs' hnul, hcell]

theorem nextLexeme_run {isx : UInt8 → Bool} (hisx : isx ∈ [isalpha, isdigit]) {b w l : List UInt8}
    (hb : ∀ d ∈ b, isblank d = true) (hne : w ≠ []) (hw : ∀ c ∈ w, isx c = true)
    (hl : ∀ c ∈ l.head?, isx c = false) :
    ExpressionConvert.nextLexeme (b ++ (w ++ l)) = some (.operand w, putBack isEofByte l) := by
  have hplain : ∀ d ∈ w, isblank d = false := fun d hd =>
    (convertClasses.apart isx hisx d (hw d hd)).1
  rw [ExpressionConvert.nextLexeme, dropWhile_front hb hne hplain, ← afterRun_eq]
  rcases w with _ | ⟨c, w⟩
  · exact absurd rfl hne
  · obtain ⟨hc, hrun⟩ := List.forall_mem_cons.mp hw
    obtain ⟨htake, hdrop⟩ := run_eq hrun hl
    have heof : c ≠ eofByte := fun h => by
      have hapart := (convertClasses.apart isx hisx c hc).2.2
      rw [h] at hapart
      cases hapart
    simp only [List.cons_append]
    rw [if_neg heof]
    rcases List.mem_pair.mp hisx with rfl | rfl
    · rw [if_pos hc, htake, hdrop]
    · rw [if_neg (ne_true_of_eq_false (ExpressionConvert.isalpha_eq_false_of_isdigit hc)),
        if_pos hc, htake, hdrop]

theorem convertReads : Reads convertReader isEofByte [isalpha, isdigit] where
  atEnd s inp hs hb := by
    have hget := ExpressionConvert.getop_spec hs inp
    rw [ExpressionConvert.nextLexeme, List.dropWhile_eq_nil_iff.mpr hb] at hget
    obtain ⟨s', rest, hget⟩ := hget
    exact ⟨_, s', rest, hget, rfl⟩
  atLost s b c l hs hb hlost := by
    have hget := ExpressionConvert.getop_spec hs (b ++ c :: l)
    rw [ExpressionConvert.nextLexeme, dropWhile_char hb (isblank_eq_false_of_isEofByte hlost)]
      at hget
    simp only [eq_of_beq hlost, if_true] at hget
    obtain ⟨s', rest, hget⟩ := hget
    rw [eq_of_beq hlost]
    exact ⟨_, s', rest, hget, rfl⟩
  atRun s b w l isx hisx hs hb hne hw hl := by
    have hget := ExpressionConvert.getop_spec hs (b ++ (w ++ l))
    rw [nextLexeme_run hisx hb hne hw hl] at hget
    simp only at hget
    split
    · rename_i hlength
      rw [if_pos hlength] at hget
      obtain ⟨ret, s', hget, hret, hs', htext⟩ := hget
      have hend : convertReader.isEnd ret = false := by
        rcases hret with rfl | ⟨rfl, -⟩
        · rfl
        · rfl
      refine ⟨ret, s', hget, hs', hend, fun hnumber => ?_, htext⟩
      rcases hret with rfl | ⟨-, hdigits⟩
      · cases hnumber
      · -- a run of both classes can only be one of digits
        obtain ⟨c, hmem⟩ := List.exists_mem_of_ne_nil w hne
        exact convertClasses.disjoint isx hisx isdigit convertClasses.digit c (hw c hmem)
          (hdigits c hmem)
    · rename_i hlength
      rw [if_neg hlength] at hget
      exact hget
  atChar s b c l hs hb hblank hlost hclasses := by
    have hget := ExpressionConvert.getop_spec hs (b ++ c :: l)
    have heof : c ≠ eofByte := fun h => by
      rw [h] at hlost
      cases hlost
    have halpha := ne_true_of_eq_false (hclasses isalpha (List.mem_pair.mpr (.inl rfl)))
    have hdigit := ne_true_of_eq_false (hclasses isdigit (List.mem_pair.mpr (.inr rfl)))
    have hnext : ExpressionConvert.nextLexeme (b ++ c :: l) = some (.oper c, l) := by
      rw [ExpressionConvert.nextLexeme, dropWhile_char hb hblank]
      simp only
      rw [if_neg heof, if_neg halpha, if_neg hdigit]
    rw [hnext] at hget
    obtain ⟨s', hget, hs', hcell, hnul⟩ := hget
    refine ⟨.operator, s', hget, hs', rfl, fun h => (by cases h), ?_⟩
    rw [cString_char hs' hnul, hcell]

/-! ### The result -/

/-- **When the readers are lossless**: NUL is no text, byte 255 passes for `EOF`
where it is stored in a `char` first, and there is room for 7 characters. -/
theorem getop_lossless_iff (s : { b : Block UInt8 // b.size = 8 }) (inp : List UInt8) :
    (convertReader.Lossless s inp ↔
      (∀ c ∈ inp, c ≠ 0 ∧ c ≠ 255) ∧ RunsFit isalpha inp ∧ RunsFit isdigit inp) ∧
    (postfixReader.Lossless s inp ↔ (∀ c ∈ inp, c ≠ 0 ∧ c ≠ 255) ∧ RunsFit isdigit inp) ∧
    (operationReader.Lossless s inp ↔ (∀ c ∈ inp, c ≠ 0) ∧ RunsFit isdigit inp) := by
  have hlost : ∀ c, isEofByte c = false ↔ c ≠ 255 := fun c => beq_eq_false_iff_ne
  refine ⟨?_, ?_, ?_⟩
  · rw [convertReads.lossless_iff convertClasses s.property, readable_iff]
    simp [hlost]
  · rw [postfixReads.lossless_iff (digitClasses fun _ => id) s.property, readable_iff]
    simp [hlost]
  · rw [operationReads.lossless_iff (digitClasses fun _ _ => rfl) s.property, readable_iff]
    simp

/-- Eight digits are written up to `s[8]`, by each of the three. -/
theorem not_getop_lossless :
    (¬ ∀ (s : { b : Block UInt8 // b.size = 8 }) inp, convertReader.Lossless s inp) ∧
    (¬ ∀ (s : { b : Block UInt8 // b.size = 8 }) inp, postfixReader.Lossless s inp) ∧
    ¬ ∀ (s : { b : Block UInt8 // b.size = 8 }) inp, operationReader.Lossless s inp := by
  have hlong : ∀ {lost classes}, isdigit ∈ classes →
      ¬ Readable lost classes (bytes "12345678") := fun hdigit hread =>
    absurd (hread.runs isdigit hdigit _ (List.suffix_refl _)) (by decide +kernel)
  refine ⟨fun h => ?_, fun h => ?_, fun h => ?_⟩
  · exact hlong convertClasses.digit ((convertReads.lossless_iff convertClasses rfl _).mp
      (h ⟨⟨8, fun _ => 0⟩, rfl⟩ (bytes "12345678")))
  · have hclasses := @digitClasses isEofByte fun _ => id
    exact hlong hclasses.digit ((postfixReads.lossless_iff hclasses rfl _).mp
      (h ⟨⟨8, fun _ => 0⟩, rfl⟩ (bytes "12345678")))
  · have hclasses := @digitClasses (fun _ => false) fun _ _ => rfl
    exact hlong hclasses.digit ((operationReads.lossless_iff hclasses rfl _).mp
      (h ⟨⟨8, fun _ => 0⟩, rfl⟩ (bytes "12345678")))

end CodeSnippet
