/-
CodeSnippet/PowerExpression.lean

The power towers of src/algorithm/stack/app/powerExpression.c.  `caculate`
pushes all operands but the last one on a stack with room for sixteen, and takes
them off again, each one raised to the power found so far.

Two things part the result from the tower.  A push on a full stack is ignored,
so that of a longer array only the first sixteen operands and the last one are
`seen`.  And the power is counted with an `int`, which overflows on the way to an
exponent that needs a `long`.

Main results:
  * `caculate_eq_foldrM` — the result as a fold over the operands on the stack.
  * `caculate_tower_iff` — the arrays whose tower is returned.
-/
import CodeSnippet.CInt
import CodeSnippet.SeqStack

namespace CodeSnippet

open Memory

namespace PowerExpression

/-! ### Source -/

/-- `for (; i < y; ++i) ret = ret * x;`, without a result when a product or `i`
overflows. -/
def powerLoop (x y i ret : ℤ) : Option ℤ :=
  if i < y then do
    let ret ← checkedLong (ret * x)
    let _ ← checkedInt (i + 1)
    powerLoop x y (i + 1) ret
  else some ret
termination_by (y - i).toNat

/-- The `while` loop.  `ret` is `none` as long as it is not assigned. -/
def popLoop (stack : SeqStack) (x : ℤ) (ret : Option ℤ) (y : ℤ) : Option ℤ :=
  if stackIsempty stack then ret
  else do
    let popped := stackPop stack x
    let ret ← powerLoop popped.2.2 y 0 1
    popLoop popped.2.1 popped.2.2 (some ret) ret
termination_by stack.top
decreasing_by
  rename_i hsome
  have hpos : stack.top ≠ 0 := fun h => hsome (beq_iff_eq.mpr h)
  change (stackPop stack x).2.1.top < stack.top
  rw [stackPop, if_neg hsome]
  exact Nat.sub_lt (Nat.pos_of_ne_zero hpos) one_pos

/-- `caculate`; `x` is the value of the variable before it is assigned. -/
def caculate (x : ℤ) (arr : List ℤ) : Option ℤ :=
  let n := arr.length
  if n = 1 then arr[0]?
  else do
    let stack := (arr.take (n - 1)).foldl (fun stack a => (stackPush stack a).2) (stackInit 16)
    let y ← arr[n - 1]?
    popLoop stack x none y

/-! ### Towers -/

/-- `a₀ ^ (a₁ ^ (… ^ aₙ))` -/
def tower (l : List ℤ) : ℤ := l.foldr (fun a e => a ^ e.toNat) 1

/-- `a₀ ^ (a₁ ^ (… ^ (aₙ ^ x)))` -/
def raise (ks : List ℤ) (x : ℤ) : ℤ := ks.foldr (fun a e => a ^ e.toNat) x

/-- The operands `ks` make no difference between `x` and `y`: one of them is 1, or
is 0 and raised to two positive numbers. -/
def Absorbs (ks : List ℤ) (x y : ℤ) : Prop :=
  x = y ∨ 1 ∈ ks ∨ ∃ t, 0 :: t <:+ ks ∧ ((0 < x ∧ 0 < y) ∨ ∃ a ∈ t, a ≠ 0)

/-- The operands that `caculate` makes use of. -/
def seen (arr : List ℤ) : List ℤ :=
  (arr.take (arr.length - 1)).take 16 ++ arr.drop (arr.length - 1)

@[simp] theorem tower_nil : tower [] = 1 := rfl

@[simp] theorem tower_cons (a : ℤ) (l : List ℤ) : tower (a :: l) = a ^ (tower l).toNat := rfl

theorem tower_nonneg {l : List ℤ} (h : ∀ a ∈ l, 0 ≤ a) : 0 ≤ tower l := by
  cases l with
  | nil => exact zero_le_one
  | cons a l => exact pow_nonneg (h a List.mem_cons_self) _

theorem tower_append (ks l : List ℤ) : tower (ks ++ l) = raise ks (tower l) := List.foldr_append

@[simp] theorem raise_nil (x : ℤ) : raise [] x = x := rfl

@[simp] theorem raise_cons (a : ℤ) (ks : List ℤ) (x : ℤ) :
    raise (a :: ks) x = a ^ (raise ks x).toNat := rfl

theorem seen_concat (ks : List ℤ) (e : ℤ) : seen (ks ++ [e]) = ks.take 16 ++ [e] := by
  rw [seen, List.length_append, List.length_singleton, Nat.add_sub_cancel, List.take_left,
    List.drop_left]

theorem seen_eq_self {arr : List ℤ} (h : arr.length ≤ 17) : seen arr = arr := by
  have hlength : (arr.take (arr.length - 1)).length ≤ 16 := by
    rw [List.length_take]
    omega
  rw [seen, List.take_of_length_le hlength, List.take_append_drop]

/-! ### Exponents that make no difference -/

section Absorbs

variable {ks : List ℤ} {x y : ℤ}

theorem raise_nonneg (hks : ∀ a ∈ ks, 0 ≤ a) (hx : 0 ≤ x) : 0 ≤ raise ks x := by
  cases ks with
  | nil => exact hx
  | cons a ks => exact pow_nonneg (hks a List.mem_cons_self) _

/-- Two powers of one base. -/
theorem pow_eq_pow_iff {a : ℤ} (ha : 0 ≤ a) (hx : 0 ≤ x) (hy : 0 ≤ y) :
    a ^ x.toNat = a ^ y.toNat ↔ x = y ∨ a = 1 ∨ (a = 0 ∧ 0 < x ∧ 0 < y) := by
  have hnat : x.toNat = y.toNat ↔ x = y := by omega
  constructor
  · intro h
    rcases ha.eq_or_lt with rfl | hpos
    · rw [zero_pow_eq, zero_pow_eq] at h
      split_ifs at h
      · exact .inl (by omega)
      · exact absurd h one_ne_zero
      · exact absurd h zero_ne_one
      · exact .inr (.inr ⟨rfl, by omega, by omega⟩)
    · by_cases hone : a = 1
      · exact .inr (.inl hone)
      · exact .inl (hnat.mp ((pow_right_inj₀ hpos hone).mp h))
  · rintro (rfl | rfl | ⟨rfl, hx, hy⟩)
    · rfl
    · rw [one_pow, one_pow]
    · rw [zero_pow (by omega), zero_pow (by omega)]

/-- Two positive numbers stay positive or become equal, and so do any two behind
an operand that is not 0. -/
theorem raise_alike (hks : ∀ a ∈ ks, 0 ≤ a) (h : (0 < x ∧ 0 < y) ∨ ∃ a ∈ ks, a ≠ 0) :
    raise ks x = raise ks y ∨ (0 < raise ks x ∧ 0 < raise ks y) := by
  induction ks with
  | nil => exact .inr (h.resolve_right (by simp))
  | cons a ks ih =>
      obtain ⟨ha, hothers⟩ := List.forall_mem_cons.mp hks
      rcases ha.eq_or_lt with rfl | hpos
      · have hrest : (0 < x ∧ 0 < y) ∨ ∃ a ∈ ks, a ≠ 0 := by
          refine h.imp_right ?_
          rintro ⟨b, hb, hne⟩
          rcases List.mem_cons.mp hb with rfl | hb
          · exact absurd rfl hne
          · exact ⟨b, hb, hne⟩
        left
        rw [raise_cons, raise_cons]
        rcases ih hothers hrest with heq | ⟨hx, hy⟩
        · rw [heq]
        · rw [zero_pow (by omega), zero_pow (by omega)]
      · exact .inr ⟨pow_pos hpos _, pow_pos hpos _⟩

/-- Conversely, positive numbers that differ come from positive ones, or there is
an operand that is not 0. -/
theorem alike_of_raise (hne : raise ks x ≠ raise ks y) (hpos : 0 < raise ks x ∧ 0 < raise ks y) :
    (0 < x ∧ 0 < y) ∨ ∃ a ∈ ks, a ≠ 0 := by
  cases ks with
  | nil => exact .inl hpos
  | cons a ks =>
      refine .inr ⟨a, List.mem_cons_self, ?_⟩
      rintro rfl
      -- a positive power of 0 is 1
      rw [raise_cons, raise_cons, zero_pow_eq, zero_pow_eq] at hne hpos
      split_ifs at hne hpos
      · exact hne rfl
      · exact hpos.2.false
      · exact hpos.1.false
      · exact hne rfl

/-- **The operands make no difference.** -/
theorem raise_eq_raise_iff (hks : ∀ a ∈ ks, 0 ≤ a) (hx : 0 ≤ x) (hy : 0 ≤ y) :
    raise ks x = raise ks y ↔ Absorbs ks x y := by
  induction ks with
  | nil => simp [Absorbs]
  | cons a ks ih =>
      obtain ⟨ha, hothers⟩ := List.forall_mem_cons.mp hks
      have ih := ih hothers
      rw [raise_cons, raise_cons,
        pow_eq_pow_iff ha (raise_nonneg hothers hx) (raise_nonneg hothers hy)]
      constructor
      · intro h
        by_cases heq : raise ks x = raise ks y
        · rcases ih.mp heq with hxy | hone | ⟨t, hsuffix, hlike⟩
          · exact .inl hxy
          · exact .inr (.inl (List.mem_cons_of_mem a hone))
          · exact .inr (.inr ⟨t, hsuffix.trans (List.suffix_cons a ks), hlike⟩)
        · rcases h.resolve_left heq with rfl | ⟨rfl, hpos⟩
          · exact .inr (.inl List.mem_cons_self)
          · exact .inr (.inr ⟨ks, List.suffix_refl _, alike_of_raise heq hpos⟩)
      · rintro (hxy | hone | ⟨t, hsuffix, hlike⟩)
        · exact .inl (ih.mpr (.inl hxy))
        · rcases List.mem_cons.mp hone with rfl | hone
          · exact .inr (.inl rfl)
          · exact .inl (ih.mpr (.inr (.inl hone)))
        · rcases List.suffix_cons_iff.mp hsuffix with heq | hsuffix
          · obtain ⟨hzero, rfl⟩ := List.cons.inj heq
            rcases raise_alike hothers hlike with heq | hpos
            · exact .inl heq
            · exact .inr (.inr ⟨hzero.symm, hpos⟩)
          · exact .inl (ih.mpr (.inr (.inr ⟨t, hsuffix, hlike⟩)))

end Absorbs

/-! ### The loops -/

/-- The power from some pass on. -/
theorem powerLoop_from {x : ℤ} (hx : 0 ≤ x) (k : ℕ) {i ret r : ℤ} (hi : 0 ≤ i) (hret : 0 ≤ ret)
    (hlong : ret < 2 ^ 63) :
    powerLoop x (i + k) i ret = some r ↔
      (k = 0 ∨ i + k < 2 ^ 31) ∧ ret * x ^ k < 2 ^ 63 ∧ ret * x ^ k = r := by
  induction k generalizing i ret with
  | zero =>
      rw [powerLoop, if_neg (by simp), pow_zero, mul_one, Option.some.injEq]
      exact ⟨fun h => ⟨.inl rfl, hlong, h⟩, fun h => h.2.2⟩
  | succ k ih =>
      have hadd : i + (k + 1 : ℕ) = i + 1 + k := by
        push_cast
        ring
      have hprod : 0 ≤ ret * x := mul_nonneg hret hx
      have hpow : ret * x ^ (k + 1) = ret * x * x ^ k := by rw [pow_succ', mul_assoc]
      rw [powerLoop, if_pos (by omega), hadd, hpow]
      simp only [Option.bind_eq_bind, Option.bind_eq_some_iff, checkedLong_eq_some_iff,
        checkedInt_eq_some_iff]
      constructor
      · rintro ⟨_, ⟨⟨-, hfits⟩, rfl⟩, _, ⟨⟨-, hnext⟩, rfl⟩, hrun⟩
        obtain ⟨hcount, hpower⟩ := (ih (by omega) hprod hfits).mp hrun
        exact ⟨.inr (by omega), hpower⟩
      · rintro ⟨hcount, hfits, hr⟩
        -- later products are not smaller, unless all of them are 0
        have hle : ret * x ≤ ret * x * x ^ k := by
          rcases hx.eq_or_lt with rfl | hpos
          · rw [mul_zero, zero_mul]
          · exact le_mul_of_one_le_right hprod (one_le_pow₀ hpos)
        have hcount : i + 1 + k < 2 ^ 31 := hcount.resolve_left k.succ_ne_zero
        have hlong := lt_of_le_of_lt hle hfits
        exact ⟨_, ⟨⟨by omega, hlong⟩, rfl⟩, _, ⟨⟨by omega, by omega⟩, rfl⟩,
          (ih (by omega) hprod hlong).mpr ⟨.inr hcount, hfits, hr⟩⟩

/-- **The inner loop.** -/
theorem powerLoop_eq_some_iff {x y r : ℤ} (hx : 0 ≤ x) (hy : 0 ≤ y) :
    powerLoop x y 0 1 = some r ↔ y < 2 ^ 31 ∧ x ^ y.toNat < 2 ^ 63 ∧ x ^ y.toNat = r := by
  obtain ⟨k, rfl⟩ := Int.eq_ofNat_of_zero_le hy
  have hrun := powerLoop_from hx k (i := 0) (r := r) le_rfl zero_le_one (by decide)
  rw [zero_add, one_mul] at hrun
  rw [hrun, Int.toNat_natCast]
  apply and_congr_left'
  omega

/-- The outer loop takes the contents one by one. -/
theorem popLoop_eq {stack : SeqStack} {l : List ℤ} (h : stack.contents = l) (x : ℤ)
    (ret : Option ℤ) (y : ℤ) :
    popLoop stack x ret y =
      if l = [] then ret else l.foldlM (fun y x => powerLoop x y 0 1) y := by
  induction l generalizing stack x ret y with
  | nil =>
      have hempty : stackIsempty stack = true := by
        rw [stackIsempty, beq_iff_eq, ← stack.contents_length, h, List.length_nil]
      rw [popLoop, if_pos hempty, if_pos rfl]
  | cons c l ih =>
      have hsome : ¬ stackIsempty stack = true := by
        rw [stackIsempty, beq_iff_eq, ← stack.contents_length, h, List.length_cons]
        exact l.length.succ_ne_zero
      obtain ⟨stack', hpop, hcontents, -⟩ := stackPop_cons x h
      rw [popLoop, if_neg hsome, if_neg (List.cons_ne_nil c l), List.foldlM_cons, hpop]
      -- `ret` is assigned from here on, whatever is left on the stack
      show (powerLoop c y 0 1 >>= fun r => popLoop stack' c (some r) r) = _
      congr 1
      funext r
      rw [ih hcontents]
      split
      · rename_i hnil
        rw [hnil, List.foldlM_nil]
        rfl
      · rfl

/-- The first sixteen of the numbers pushed are on the stack. -/
theorem pushed_contents (l : List ℤ) (stack : SeqStack) :
    (l.foldl (fun stack a => (stackPush stack a).2) stack).contents =
      (l.take (stack.max - stack.contents.length)).reverse ++ stack.contents := by
  induction l generalizing stack with
  | nil => rw [List.take_nil, List.reverse_nil, List.foldl_nil, List.nil_append]
  | cons a l ih =>
      obtain ⟨hcontents, hmax⟩ := stackPush_contents stack a
      have hle := stack.contents_length_le
      rw [List.foldl_cons, ih, hcontents, hmax, pushTo]
      split
      · have hroom : stack.max - stack.contents.length =
            stack.max - (a :: stack.contents).length + 1 := by
          rw [List.length_cons]
          omega
        rw [hroom, List.take_succ_cons, List.reverse_cons, List.append_assoc]
        rfl
      · have hfull : stack.max - stack.contents.length = 0 := by omega
        rw [hfull, List.take_zero, List.take_zero]

/-- **The result** as a fold over the operands that found room. -/
theorem caculate_eq_foldrM (x : ℤ) (ks : List ℤ) (e : ℤ) :
    caculate x (ks ++ [e]) = (ks.take 16).foldrM (fun x y => powerLoop x y 0 1) e := by
  have hlength : (ks ++ [e]).length - 1 = ks.length := by
    rw [List.length_append, List.length_singleton, Nat.add_sub_cancel]
  rw [caculate]
  split
  · -- a single operand is returned as it is, and is the fold over no other
    rename_i hone
    rw [List.length_append, List.length_singleton] at hone
    obtain rfl : ks = [] := List.length_eq_zero_iff.mp (by omega)
    rfl
  · rename_i hlong
    have hne : ks ≠ [] := fun h => hlong (by rw [h]; rfl)
    have hcontents : ((ks.foldl (fun stack a => (stackPush stack a).2) (stackInit 16))).contents =
        (ks.take 16).reverse := by
      rw [pushed_contents]
      exact List.append_nil _
    have hfirst : (ks.take 16).reverse ≠ [] := by
      rw [Ne, List.reverse_eq_nil_iff, List.take_eq_nil_iff]
      exact fun h => h.elim (by decide) hne
    simp only [hlength, List.take_left, List.getElem?_concat_length, Option.bind_eq_bind,
      Option.bind_some]
    rw [popLoop_eq hcontents, if_neg hfirst, List.foldlM_reverse]

/-! ### The result -/

/-- The operands on the stack, raised to `e` and to one another. -/
theorem foldrM_powerLoop {ks : List ℤ} {e r : ℤ} (hks : ∀ a ∈ ks, 0 ≤ a) (he : 0 ≤ e)
    (hint : e < 2 ^ 31) :
    ks.foldrM (fun x y => powerLoop x y 0 1) e = some r ↔
      (∀ a t, a :: t <:+ ks ++ [e] → tower t < 2 ^ 31) ∧ tower (ks ++ [e]) < 2 ^ 63 ∧
        tower (ks ++ [e]) = r := by
  induction ks generalizing r with
  | nil =>
      have htower : tower [e] = e := by
        rw [tower_cons]
        exact pow_one e
      rw [List.foldrM_nil, List.nil_append, htower]
      constructor
      · intro h
        refine ⟨fun a t hsuffix => ?_, hint.trans (by decide), Option.some.inj h⟩
        have hlength : t.length + 1 ≤ 1 := hsuffix.length_le
        obtain rfl : t = [] := List.length_eq_zero_iff.mp (by omega)
        decide
      · rintro ⟨-, -, rfl⟩
        rfl
  | cons c ks ih =>
      have hnonneg : 0 ≤ tower (ks ++ [e]) := by
        apply tower_nonneg
        intro a ha
        rcases List.mem_append.mp ha with ha | ha
        · exact hks a (List.mem_cons_of_mem c ha)
        · rw [List.mem_singleton.mp ha]
          exact he
      have hpower := fun v => ih (r := v) fun a ha => hks a (List.mem_cons_of_mem c ha)
      -- the tower behind `c` is found first, and then is the exponent
      rw [List.foldrM_cons, List.cons_append, tower_cons, Option.bind_eq_bind,
        Option.bind_eq_some_iff]
      constructor
      · rintro ⟨v, hv, hrun⟩
        obtain ⟨hexps, -, rfl⟩ := (hpower v).mp hv
        obtain ⟨hexp, hfits, hr⟩ :=
          (powerLoop_eq_some_iff (hks c List.mem_cons_self) hnonneg).mp hrun
        refine ⟨fun a t hsuffix => ?_, hfits, hr⟩
        rcases List.suffix_cons_iff.mp hsuffix with heq | hsuffix
        · rw [(List.cons.inj heq).2]
          exact hexp
        · exact hexps a t hsuffix
      · rintro ⟨hexps, hfits, hr⟩
        have hexp := hexps c _ (List.suffix_refl _)
        refine ⟨tower (ks ++ [e]), (hpower _).mpr ⟨fun a t hsuffix => ?_, ?_, rfl⟩, ?_⟩
        · exact hexps a t (hsuffix.trans (List.suffix_cons c _))
        · exact hexp.trans (by decide)
        · exact (powerLoop_eq_some_iff (hks c List.mem_cons_self) hnonneg).mpr ⟨hexp, hfits, hr⟩

/-- The operands that are lost make no difference. -/
theorem tower_seen_iff {ks : List ℤ} {e : ℤ} (hks : ∀ a ∈ ks, 0 ≤ a) (he : 0 ≤ e) :
    tower (seen (ks ++ [e])) = tower (ks ++ [e]) ↔
      (ks ++ [e]).length ≤ 17 ∨ Absorbs ((ks ++ [e]).take 16) e (tower ((ks ++ [e]).drop 16)) := by
  by_cases hlength : (ks ++ [e]).length ≤ 17
  · rw [seen_eq_self hlength]
    exact iff_of_true rfl (.inl hlength)
  · have hmore : 16 ≤ ks.length := by
      rw [List.length_append, List.length_singleton] at hlength
      omega
    have htake : (ks ++ [e]).take 16 = ks.take 16 := List.take_append_of_le_length hmore
    have hdrop : 0 ≤ tower ((ks ++ [e]).drop 16) := by
      apply tower_nonneg
      intro a ha
      rcases List.mem_append.mp (List.mem_of_mem_drop ha) with ha | ha
      · exact hks a ha
      · rw [List.mem_singleton.mp ha]
        exact he
    have hsplit := tower_append ((ks ++ [e]).take 16) ((ks ++ [e]).drop 16)
    have hlast : tower [e] = e := pow_one e
    rw [List.take_append_drop] at hsplit
    rw [or_iff_right hlength, hsplit, seen_concat, tower_append, hlast, htake]
    exact raise_eq_raise_iff (fun a ha => hks a (List.mem_of_mem_take ha)) he hdrop

/-- **When the tower of the array is returned**: no exponent needs more than an
`int` to be counted to, and if there are operands that are not seen, it makes no
difference whether the first sixteen are raised to the last one or to the tower
behind them. -/
theorem caculate_tower_iff (x : ℤ) (arr : List ℤ) (hne : arr ≠ [])
    (hint : ∀ a ∈ arr, 0 ≤ a ∧ a < 2 ^ 31) (hfits : ∀ t, t <:+ arr → tower t < 2 ^ 63) :
    caculate x arr = some (tower arr) ↔
      (∀ a t, a :: t <:+ seen arr → tower t < 2 ^ 31) ∧
        (arr.length ≤ 17 ∨ Absorbs (arr.take 16) (arr.getLast hne) (tower (arr.drop 16))) := by
  obtain ⟨ks, e, rfl⟩ := arr.eq_nil_or_concat'.resolve_left hne
  have he := hint e (List.mem_append_right ks (List.mem_singleton_self e))
  have hks : ∀ a ∈ ks, 0 ≤ a := fun a ha => (hint a (List.mem_append_left [e] ha)).1
  have hkept : ∀ a ∈ ks.take 16, 0 ≤ a := fun a ha => hks a (List.mem_of_mem_take ha)
  rw [caculate_eq_foldrM, foldrM_powerLoop hkept he.1 he.2, ← seen_concat,
    List.getLast_append_singleton, ← tower_seen_iff hks he.1]
  constructor
  · rintro ⟨hexps, -, heq⟩
    exact ⟨hexps, heq⟩
  · rintro ⟨hexps, heq⟩
    exact ⟨hexps, heq ▸ hfits _ (List.suffix_refl _), heq⟩

/-- `caculate_tower_iff` at 2 ^ 3 ^ 2. -/
theorem caculate_tower_iff_512 : caculate 0 [2, 3, 2] = some 512 := by
  have htails : ∀ t ∈ [2, 3, 2].tails, tower t < 2 ^ 63 := by decide
  have hexps : ∀ t ∈ (seen [2, 3, 2]).tails, tower t.tail < 2 ^ 31 := by decide
  have hiff := caculate_tower_iff 0 [2, 3, 2] (by decide) (by decide) fun t ht =>
    htails t ((List.mem_tails ..).mpr ht)
  exact hiff.mpr ⟨fun a t ht => hexps _ ((List.mem_tails ..).mpr ht), .inl (by decide)⟩

/-- Eighteen zeros make 1 and seventeen make 0.  In 1 ^ 2 ^ 31 the exponent is
one more than the largest `int`. -/
theorem not_caculate_tower :
    ¬ (∀ (x : ℤ) (arr : List ℤ), arr ≠ [] → (∀ a ∈ arr, 0 ≤ a ∧ a < 2 ^ 31) →
      (∀ t, t <:+ arr → tower t < 2 ^ 63) → caculate x arr = some (tower arr)) ∧
    ∀ x, caculate x [1, 2, 31] = none := by
  constructor
  · intro h
    have htails : ∀ t ∈ (List.replicate 17 (0 : ℤ) ++ [0]).tails, tower t < 2 ^ 63 := by decide
    have hrun := h 0 (List.replicate 17 0 ++ [0]) (by decide) (by decide) fun t ht =>
      htails t ((List.mem_tails ..).mpr ht)
    rw [caculate_eq_foldrM, foldrM_powerLoop (by decide) le_rfl (by decide)] at hrun
    exact absurd hrun.2.2 (by decide)
  · intro x
    have hrun := caculate_eq_foldrM x [1, 2] 31
    rw [Option.eq_none_iff_forall_ne_some]
    intro r hr
    obtain ⟨hexps, -⟩ := (foldrM_powerLoop (by decide) (by decide) (by decide)).mp (hrun ▸ hr)
    exact absurd (hexps 1 [2, 31] (List.suffix_refl _)) (by decide)

end PowerExpression

end CodeSnippet
