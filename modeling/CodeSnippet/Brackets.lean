/-
CodeSnippet/Brackets.lean

Fully parenthesised infix forms of the expressions of Postfix.lean.  An
expression is read off its form in one way only (`brackets_injective`), as long
as no operand is an opening bracket.
-/
import CodeSnippet.Postfix

namespace Postfix

variable {N O N' O' α : Type*}

def Token.map (f : N → N') (g : O → O') : Token N O → Token N' O'
  | num n => num (f n)
  | op o => op (g o)

namespace Tree

/-- Other operands and operators in the same places. -/
def map (f : N → N') (g : O → O') : Tree N O → Tree N' O'
  | num n => num (f n)
  | bin o l r => bin (g o) (l.map f g) (r.map f g)

theorem tokens_map (f : N → N') (g : O → O') (e : Tree N O) :
    (e.map f g).tokens = e.tokens.map (Token.map f g) := by
  induction e with
  | num n => rfl
  | bin o l r ihl ihr =>
      rw [map, tokens, ihl, ihr, tokens, List.map_append, List.map_append]
      rfl

theorem depth_map (f : N → N') (g : O → O') (e : Tree N O) : (e.map f g).depth = e.depth := by
  induction e with
  | num n => rfl
  | bin o l r ihl ihr => rw [map, depth, ihl, ihr, depth]

theorem map_map {N'' O'' : Type*} (f : N → N') (g : O → O') (f' : N' → N'') (g' : O' → O'')
    (e : Tree N O) : (e.map f g).map f' g' = e.map (f' ∘ f) (g' ∘ g) := by
  induction e with
  | num n => rfl
  | bin o l r ihl ihr => rw [map, map, ihl, ihr, map, Function.comp_apply]

theorem map_injective {f : N → N'} {g : O → O'} (hf : Function.Injective f)
    (hg : Function.Injective g) : Function.Injective (map f g) := by
  intro e e' h
  induction e generalizing e' with
  | num n =>
      cases e' with
      | num n' => rw [hf (num.inj h)]
      | bin o' l' r' => cases h
  | bin o l r ihl ihr =>
      cases e' with
      | num n' => cases h
      | bin o' l' r' =>
          obtain ⟨ho, hl, hr⟩ := bin.inj h
          rw [hg ho, ihl hl, ihr hr]

theorem num_mem_map {f : N → N'} {g : O → O'} {e : Tree N O} {n' : N'} :
    .num n' ∈ (e.map f g).tokens ↔ ∃ n, .num n ∈ e.tokens ∧ f n = n' := by
  rw [tokens_map, List.mem_map]
  constructor
  · rintro ⟨t, ht, hmap⟩
    cases t with
    | num n => exact ⟨n, ht, Token.num.inj hmap⟩
    | op o => cases hmap
  · rintro ⟨n, hn, rfl⟩
    exact ⟨.num n, hn, rfl⟩

/-- The operands of an operation. -/
theorem num_mem_bin {o : O} {l r : Tree N O} {n : N} :
    .num n ∈ (bin o l r).tokens ↔ .num n ∈ l.tokens ∨ .num n ∈ r.tokens := by
  rw [tokens, List.mem_append, List.mem_append, List.mem_singleton]
  simp only [reduceCtorEq, or_false]

/-! ### Brackets -/

/-- The infix form, with both operands of every operator in brackets. -/
def brackets (opening closing : α) : Tree α α → List α
  | num x => [x]
  | bin o l r =>
      opening :: (l.brackets opening closing ++
        closing :: o :: opening :: (r.brackets opening closing ++ [closing]))

variable {opening closing : α}

/-- Where one form ends is seen from the form. -/
theorem brackets_append_inj {e e' : Tree α α} (he : .num opening ∉ e.tokens)
    (he' : .num opening ∉ e'.tokens) {a a' : List α}
    (h : e.brackets opening closing ++ a = e'.brackets opening closing ++ a') : e = e' ∧ a = a' := by
  induction e generalizing e' a a' with
  | num x =>
      cases e' with
      | num x' =>
          obtain ⟨rfl, rfl⟩ := List.cons.inj h
          exact ⟨rfl, rfl⟩
      | bin o' l' r' =>
          obtain ⟨rfl, -⟩ := List.cons.inj h
          exact absurd (List.mem_singleton_self _) he
  | bin o l r ihl ihr =>
      cases e' with
      | num x' =>
          obtain ⟨rfl, -⟩ := List.cons.inj h
          exact absurd (List.mem_singleton_self _) he'
      | bin o' l' r' =>
          rw [num_mem_bin, not_or] at he he'
          rw [brackets, brackets, List.cons_append, List.cons_append, List.append_assoc,
            List.append_assoc] at h
          obtain ⟨rfl, hl⟩ := ihl he.1 he'.1 (List.cons.inj h).2
          obtain ⟨rfl, hr⟩ := List.cons.inj (List.cons.inj hl).2
          have hr := (List.cons.inj hr).2
          rw [List.append_eq, List.append_eq, List.append_assoc, List.append_assoc] at hr
          obtain ⟨rfl, ha⟩ := ihr he.2 he'.2 hr
          exact ⟨rfl, List.append_cancel_left ha⟩

/-- **An expression is read off its form in one way only.** -/
theorem brackets_injective {e e' : Tree α α} (he : .num opening ∉ e.tokens)
    (he' : .num opening ∉ e'.tokens)
    (h : e.brackets opening closing = e'.brackets opening closing) : e = e' :=
  (brackets_append_inj he he' (congrArg (· ++ []) h)).1

end Tree

end Postfix
