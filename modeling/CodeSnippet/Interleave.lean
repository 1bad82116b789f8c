/-
CodeSnippet/Interleave.lean

Lists of letters and marks.  A list is determined by its letters, in order, and
by its marks with the number of letters in front of each (`eq_of_letters`).  A
text of words and marks is determined by its elements and its words
(`eq_of_flatten`), so equal texts have equal pieces unless the same letters are
split into other words (`Shape.pieces_eq_iff`).
-/
import Mathlib

namespace Interleave

variable {α : Type*} (p : α → Bool)

/-- The letters of a list. -/
def letters (l : List α) : List α := l.filter p

/-- The other elements, each with the number of letters before it, when there
are `k` letters in front. -/
def marks (k : ℕ) : List α → List (α × ℕ)
  | [] => []
  | c :: cs => if p c then marks (k + 1) cs else (c, k) :: marks k cs

/-- The words among some pieces. -/
def wordsOf (pieces : List (List α)) : List (List α) := pieces.filter fun w => w.head?.any p

/-- A word of letters, or one mark. -/
def IsPiece (w : List α) : Prop := (w ≠ [] ∧ ∀ c ∈ w, p c = true) ∨ ∃ c, w = [c] ∧ p c = false

variable {p}

theorem letters_append (l l' : List α) : letters p (l ++ l') = letters p l ++ letters p l' :=
  List.filter_append ..

theorem marks_append (k : ℕ) (l l' : List α) :
    marks p k (l ++ l') = marks p k l ++ marks p (k + (letters p l).length) l' := by
  induction l generalizing k with
  | nil => rfl
  | cons c l ih =>
      rw [List.cons_append, marks, marks, letters]
      rcases hc : p c with _ | _
      · rw [if_neg Bool.false_ne_true, if_neg Bool.false_ne_true, ih k,
          List.filter_cons_of_neg (ne_true_of_eq_false hc), List.cons_append]
        rfl
      · rw [if_pos rfl, if_pos rfl, ih (k + 1), List.filter_cons_of_pos hc, List.length_cons,
          Nat.add_right_comm, Nat.add_assoc]
        rfl

/-- A word has no marks. -/
theorem marks_word {w : List α} (hw : ∀ c ∈ w, p c = true) (k : ℕ) : marks p k w = [] := by
  induction w generalizing k with
  | nil => rfl
  | cons c w ih =>
      obtain ⟨hc, hw⟩ := List.forall_mem_cons.mp hw
      rw [marks, if_pos hc, ih hw]

theorem letters_word {w : List α} (hw : ∀ c ∈ w, p c = true) : letters p w = w :=
  List.filter_eq_self.mpr hw

/-- Marks side by side. -/
theorem marks_of_marks {l : List α} (hl : ∀ c ∈ l, p c = false) (k : ℕ) :
    marks p k l = l.map (·, k) := by
  induction l with
  | nil => rfl
  | cons c l ih =>
      obtain ⟨hc, hl⟩ := List.forall_mem_cons.mp hl
      rw [marks, if_neg (ne_true_of_eq_false hc), ih hl, List.map_cons]

/-- Every mark of the list is there, as often as it stands there. -/
theorem count_marks [BEq α] {c : α} (hc : p c = false) [LawfulBEq α] (k : ℕ) (l : List α) :
    ((marks p k l).map Prod.fst).count c = l.count c := by
  induction l generalizing k with
  | nil => rfl
  | cons d l ih =>
      rw [marks]
      split
      · rename_i hd
        have hne : d ≠ c := by
          rintro rfl
          exact absurd (hc.symm.trans hd) Bool.false_ne_true
        rw [ih, List.count_cons_of_ne hne]
      · rw [List.map_cons, List.count_cons, List.count_cons, ih]

/-- No mark has fewer letters before it than there are in front. -/
theorem le_of_mem_marks {k : ℕ} {l : List α} {x : α × ℕ} (h : x ∈ marks p k l) : k ≤ x.2 := by
  induction l generalizing k with
  | nil => exact absurd h List.not_mem_nil
  | cons c l ih =>
      rw [marks] at h
      split at h
      · exact (Nat.le_succ k).trans (ih h)
      · rcases List.mem_cons.mp h with rfl | h
        · exact le_rfl
        · exact ih h

/-- **A list is determined by its letters and its marks.** -/
theorem eq_of_letters {l l' : List α} (hletters : letters p l = letters p l') {k : ℕ}
    (hmarks : marks p k l = marks p k l') : l = l' := by
  induction l generalizing l' k with
  | nil =>
      cases l' with
      | nil => rfl
      | cons c l' =>
          rw [marks, marks] at hmarks
          rcases hc : p c with _ | _
          · rw [if_neg (ne_true_of_eq_false hc)] at hmarks
            cases hmarks
          · rw [letters, letters, List.filter_cons_of_pos hc] at hletters
            cases hletters
  | cons c l ih =>
      -- a letter and a mark cannot stand in one place
      have hdiffer : ∀ {c d : α} {l l' : List α}, p c = true → p d = false →
          marks p k (c :: l) ≠ marks p k (d :: l') := by
        intro c d l l' hc hd h
        rw [marks, marks, if_pos hc, if_neg (ne_true_of_eq_false hd)] at h
        have hle : k + 1 ≤ k := le_of_mem_marks (h ▸ List.mem_cons_self ..)
        omega
      cases l' with
      | nil =>
          rcases hc : p c with _ | _
          · rw [marks, marks, if_neg (ne_true_of_eq_false hc)] at hmarks
            cases hmarks
          · rw [letters, letters, List.filter_cons_of_pos hc] at hletters
            cases hletters
      | cons d l' =>
          rcases hc : p c with _ | _
          · rcases hd : p d with _ | _
            · rw [letters, letters, List.filter_cons_of_neg (ne_true_of_eq_false hc),
                List.filter_cons_of_neg (ne_true_of_eq_false hd)] at hletters
              rw [marks, marks, if_neg (ne_true_of_eq_false hc), if_neg (ne_true_of_eq_false hd)]
                at hmarks
              obtain ⟨hhead, htail⟩ := List.cons.inj hmarks
              rw [(Prod.mk.inj hhead).1, ih hletters htail]
            · exact absurd hmarks.symm (hdiffer hd hc)
          · rcases hd : p d with _ | _
            · exact absurd hmarks (hdiffer hc hd)
            · rw [letters, letters, List.filter_cons_of_pos hc, List.filter_cons_of_pos hd]
                at hletters
              rw [marks, marks, if_pos hc, if_pos hd] at hmarks
              obtain ⟨rfl, htail⟩ := List.cons.inj hletters
              rw [ih htail hmarks]

/-! ### Pieces -/

theorem IsPiece.head_word {w : List α} (h : IsPiece p w) (hw : w.head?.any p = true) :
    w ≠ [] ∧ ∀ c ∈ w, p c = true := by
  rcases h with h | ⟨c, rfl, hc⟩
  · exact h
  · exact absurd (hc.symm.trans hw) Bool.false_ne_true

theorem IsPiece.head_mark {w : List α} (h : IsPiece p w) (hw : w.head?.any p = false) :
    ∃ c, w = [c] ∧ p c = false := by
  rcases h with ⟨hne, hall⟩ | h
  · obtain ⟨c, cs, rfl⟩ := List.exists_cons_of_ne_nil hne
    exact absurd ((hall c (List.mem_cons_self ..)).symm.trans hw) (by decide)
  · exact h

theorem IsPiece.ne_nil {w : List α} (h : IsPiece p w) : w ≠ [] := by
  rcases h with ⟨hne, -⟩ | ⟨c, rfl, -⟩
  · exact hne
  · exact List.cons_ne_nil _ _

theorem wordsOf_cons_word {w : List α} (h : w.head?.any p = true) (pieces : List (List α)) :
    wordsOf p (w :: pieces) = w :: wordsOf p pieces :=
  List.filter_cons_of_pos (p := fun w : List α => w.head?.any p) h

theorem wordsOf_cons_mark {w : List α} (h : w.head?.any p = false) (pieces : List (List α)) :
    wordsOf p (w :: pieces) = wordsOf p pieces :=
  List.filter_cons_of_neg (p := fun w : List α => w.head?.any p) (ne_true_of_eq_false h)

/-- The letters are those of the words. -/
theorem letters_flatten {pieces : List (List α)} (h : ∀ w ∈ pieces, IsPiece p w) :
    letters p pieces.flatten = (wordsOf p pieces).flatten := by
  induction pieces with
  | nil => rfl
  | cons w pieces ih =>
      obtain ⟨hw, h⟩ := List.forall_mem_cons.mp h
      rw [List.flatten_cons, letters_append, ih h]
      rcases hhead : w.head?.any p with _ | _
      · rw [wordsOf_cons_mark hhead]
        obtain ⟨c, rfl, hc⟩ := hw.head_mark hhead
        rw [letters, List.filter_cons_of_neg (ne_true_of_eq_false hc)]
        rfl
      · rw [wordsOf_cons_word hhead, letters_word (hw.head_word hhead).2, List.flatten_cons]

/-- **A text of words and marks is determined by its elements and its words.** -/
theorem eq_of_flatten {pieces pieces' : List (List α)} (h : ∀ w ∈ pieces, IsPiece p w)
    (h' : ∀ w ∈ pieces', IsPiece p w) (hflatten : pieces.flatten = pieces'.flatten)
    (hwords : wordsOf p pieces = wordsOf p pieces') : pieces = pieces' := by
  induction pieces generalizing pieces' with
  | nil =>
      cases pieces' with
      | nil => rfl
      | cons w pieces' =>
          have hne := (h' w (List.mem_cons_self ..)).ne_nil
          rw [List.flatten_nil, List.flatten_cons] at hflatten
          exact absurd (List.append_eq_nil_iff.mp hflatten.symm).1 hne
  | cons w pieces ih =>
      obtain ⟨hw, h⟩ := List.forall_mem_cons.mp h
      cases pieces' with
      | nil =>
          rw [List.flatten_nil, List.flatten_cons] at hflatten
          exact absurd (List.append_eq_nil_iff.mp hflatten).1 hw.ne_nil
      | cons w' pieces' =>
          obtain ⟨hw', hrest'⟩ := List.forall_mem_cons.mp h'
          rw [List.flatten_cons, List.flatten_cons] at hflatten
          -- the first elements agree, so both pieces are words or both are marks
          have hhead : w.head? = w'.head? := by
            have heq := congrArg List.head? hflatten
            rw [List.head?_append_of_ne_nil _ hw.ne_nil,
              List.head?_append_of_ne_nil _ hw'.ne_nil] at heq
            exact heq
          have hsame : w = w' ∧ wordsOf p pieces = wordsOf p pieces' := by
            rcases hmark : w.head?.any p with _ | _
            · have hmark' := hmark
              rw [hhead] at hmark'
              rw [wordsOf_cons_mark hmark, wordsOf_cons_mark hmark'] at hwords
              obtain ⟨c, rfl, -⟩ := hw.head_mark hmark
              obtain ⟨c', rfl, -⟩ := hw'.head_mark hmark'
              exact ⟨congrArg (fun c => [c]) (Option.some.inj hhead), hwords⟩
            · rw [wordsOf_cons_word hmark, wordsOf_cons_word (hhead ▸ hmark)] at hwords
              exact List.cons.inj hwords
          obtain ⟨rfl, hrests⟩ := hsame
          have htail : pieces = pieces' := ih h hrest' (List.append_cancel_left hflatten) hrests
          rw [htail]

/-! ### Shapes -/

/-- The pieces have the words `ws`, and behind `k` letters the marks `ms k`. -/
structure Shape (p : α → Bool) (pieces ws : List (List α)) (ms : ℕ → List (α × ℕ)) : Prop where
  isPiece : ∀ w ∈ pieces, IsPiece p w
  words : wordsOf p pieces = ws
  marks : ∀ k, marks p k pieces.flatten = ms k

variable {pieces pieces' ws ws' : List (List α)} {ms ms' : ℕ → List (α × ℕ)}

theorem Shape.nil : Shape p [] [] fun _ => [] :=
  ⟨fun _ hw => absurd hw List.not_mem_nil, rfl, fun _ => rfl⟩

theorem Shape.word {w : List α} (hne : w ≠ []) (hw : ∀ c ∈ w, p c = true) :
    Shape p [w] [w] fun _ => [] := by
  refine ⟨?_, ?_, fun k => ?_⟩
  · intro v hv
    obtain rfl := List.mem_singleton.mp hv
    exact .inl ⟨hne, hw⟩
  · obtain ⟨c, w, rfl⟩ := List.exists_cons_of_ne_nil hne
    have hhead : (c :: w).head?.any p = true := hw c (List.mem_cons_self ..)
    exact wordsOf_cons_word hhead []
  · rw [List.flatten_singleton]
    exact marks_word hw k

theorem Shape.ofMarks {l : List α} (hl : ∀ c ∈ l, p c = false) :
    Shape p (l.map fun c => [c]) [] fun k => l.map (·, k) := by
  refine ⟨?_, ?_, fun k => ?_⟩
  · intro w hw
    obtain ⟨c, hc, rfl⟩ := List.mem_map.mp hw
    exact .inr ⟨c, rfl, hl c hc⟩
  · apply List.filter_eq_nil_iff.mpr
    intro w hw
    obtain ⟨c, hc, rfl⟩ := List.mem_map.mp hw
    exact ne_true_of_eq_false (hl c hc)
  · rw [← List.flatMap_def, List.flatMap_singleton' l]
    exact marks_of_marks hl k

/-- The marks of the second text stand behind the letters of the first. -/
theorem Shape.append (h : Shape p pieces ws ms) (h' : Shape p pieces' ws' ms') :
    Shape p (pieces ++ pieces') (ws ++ ws') fun k => ms k ++ ms' (k + ws.flatten.length) := by
  refine ⟨List.forall_mem_append.mpr ⟨h.isPiece, h'.isPiece⟩, ?_, fun k => ?_⟩
  · rw [wordsOf, List.filter_append]
    exact congrArg₂ _ h.words h'.words
  · rw [List.flatten_append, marks_append, letters_flatten h.isPiece, h.words, h.marks, h'.marks]

/-- Two texts are equal exactly if their letters and their marks are. -/
theorem Shape.flatten_eq_iff (h : Shape p pieces ws ms) (h' : Shape p pieces' ws' ms') :
    pieces.flatten = pieces'.flatten ↔ ws.flatten = ws'.flatten ∧ ms 0 = ms' 0 := by
  rw [← h.words, ← h'.words, ← h.marks, ← h'.marks, ← letters_flatten h.isPiece,
    ← letters_flatten h'.isPiece]
  constructor
  · intro hflatten
    rw [hflatten]
    exact ⟨rfl, rfl⟩
  · rintro ⟨hletters, hmarks⟩
    exact eq_of_letters hletters hmarks

/-- **When equal texts have equal pieces**: unless the same letters are split
into other words, with the same marks in the same places. -/
theorem Shape.pieces_eq_iff (h : Shape p pieces ws ms) (h' : Shape p pieces' ws' ms') :
    (pieces.flatten = pieces'.flatten → pieces = pieces') ↔
      ¬ (ws.flatten = ws'.flatten ∧ ws ≠ ws' ∧ ms 0 = ms' 0) := by
  rw [h.flatten_eq_iff h']
  constructor
  · rintro hunique ⟨hflatten, hne, hmarks⟩
    apply hne
    rw [← h.words, ← h'.words, hunique ⟨hflatten, hmarks⟩]
  · -- the same words, or the texts would collide
    rintro hno ⟨hflatten, hmarks⟩
    have hws : ws = ws' := by
      by_contra hne
      exact hno ⟨hflatten, hne, hmarks⟩
    apply eq_of_flatten h.isPiece h'.isPiece ((h.flatten_eq_iff h').mpr ⟨hflatten, hmarks⟩)
    rw [h.words, h'.words, hws]

end Interleave
