/-
CodeSnippet/HeapExtends.lean

Who owns which cells of a heap.  `Extends h₀ h s` says that `h` is `h₀` with
cells at the addresses in `s` besides, so a program that comes back to `s = []`
has freed what it allocated, and nothing else (`Extends.without_eq`).  `Changes h h' s s'`
is what an operation does that owns the cells `s` before and the cells `s'`
behind it; operations follow one another (`Changes.trans`), and what is owned
besides is not touched (`Changes.extended`).
-/
import CodeSnippet.Heap

namespace Memory

namespace Heap

variable {β : Type}

theorem eq_of_cell {h h' : Heap β} (hcell : ∀ a, h.cell a = h'.cell a) : h = h' := by
  obtain ⟨cell, hfinite⟩ := h
  obtain ⟨cell', hfinite'⟩ := h'
  obtain rfl : cell = cell' := funext hcell
  rfl

theorem set_set (h : Heap β) (a : ℕ) (v w : Option β) : (h.set a v).set a w = h.set a w := by
  apply eq_of_cell
  intro b
  by_cases hb : b = a
  · simp [hb]
  · simp [hb]

/-! ### Leaving out cells -/

/-- The heap without the cells at some addresses. -/
def without (h : Heap β) (s : List ℕ) : Heap β where
  cell a := if a ∈ s then none else h.cell a
  finite := by
    obtain ⟨n, hn⟩ := h.finite
    exact ⟨n, fun a ha => ite_eq_left_iff.mpr fun _ => hn a ha⟩

@[simp] theorem without_cell (h : Heap β) (s : List ℕ) (a : ℕ) :
    (h.without s).cell a = if a ∈ s then none else h.cell a := rfl

theorem without_cell_ne {s : List ℕ} {a : ℕ} (ha : a ∉ s) (h : Heap β) :
    (h.without s).cell a = h.cell a :=
  if_neg ha

@[simp] theorem without_nil (h : Heap β) : h.without [] = h :=
  eq_of_cell fun a => by simp

theorem without_without (h : Heap β) (s s' : List ℕ) :
    (h.without s).without s' = h.without (s ++ s') := by
  apply eq_of_cell
  intro a
  by_cases hs : a ∈ s
  · simp [hs]
  · simp [hs]

/-- To free a cell is to leave it out. -/
theorem set_none (h : Heap β) (a : ℕ) : h.set a none = h.without [a] := by
  apply eq_of_cell
  intro b
  simp

/-- The order of the addresses does not matter. -/
theorem without_congr {s s' : List ℕ} (hs : ∀ a, a ∈ s ↔ a ∈ s') (h : Heap β) :
    h.without s = h.without s' := by
  apply eq_of_cell
  intro a
  simp [hs a]

/-! ### Cells besides -/

/-- `h` is `h₀` and the cells at the addresses in `s`, which are free in `h₀`. -/
structure Extends (h₀ h : Heap β) (s : List ℕ) : Prop where
  new : ∀ a ∈ s, h₀.cell a = none
  allocated : ∀ a ∈ s, ∃ v, h.cell a = some v
  frame : ∀ a, a ∉ s → h.cell a = h₀.cell a

namespace Extends

variable {h₀ h : Heap β} {s : List ℕ}

theorem refl (h : Heap β) : Extends h h [] :=
  ⟨fun _ ha => absurd ha List.not_mem_nil, fun _ ha => absurd ha List.not_mem_nil, fun _ _ => rfl⟩

theorem congr {s' : List ℕ} (hs : ∀ a, a ∈ s ↔ a ∈ s') (hx : Extends h₀ h s) :
    Extends h₀ h s' :=
  ⟨fun a ha => hx.new a ((hs a).mpr ha), fun a ha => hx.allocated a ((hs a).mpr ha),
    fun a ha => hx.frame a fun hmem => ha ((hs a).mp hmem)⟩

/-- A free address is free in both heaps. -/
theorem free_iff (hx : Extends h₀ h s) (a : ℕ) : h.cell a = none ↔ a ∉ s ∧ h₀.cell a = none := by
  by_cases ha : a ∈ s
  · obtain ⟨v, hv⟩ := hx.allocated a ha
    simp [ha, hv]
  · simp [ha, hx.frame a ha]

/-- A cell more. -/
theorem alloc (hx : Extends h₀ h s) {a : ℕ} (ha : h.cell a = none) (v : β) :
    Extends h₀ (h.set a (some v)) (a :: s) where
  new b hb := by
    rcases List.mem_cons.mp hb with rfl | hb
    · exact ((hx.free_iff b).mp ha).2
    · exact hx.new b hb
  allocated b hb := by
    by_cases hba : b = a
    · exact ⟨v, by rw [hba, set_cell_self]⟩
    · rw [set_cell_ne hba]
      exact hx.allocated b ((List.mem_cons.mp hb).resolve_left hba)
  frame b hb := by
    obtain ⟨hba, hb⟩ := List.ne_and_not_mem_of_not_mem_cons hb
    rw [set_cell_ne hba, hx.frame b hb]

/-- One of the cells is written. -/
theorem update (hx : Extends h₀ h s) {a : ℕ} (ha : a ∈ s) (v : β) :
    Extends h₀ (h.set a (some v)) s where
  new := hx.new
  allocated b hb := by
    by_cases hba : b = a
    · exact ⟨v, by rw [hba, set_cell_self]⟩
    · rw [set_cell_ne hba]
      exact hx.allocated b hb
  frame b hb := by
    rw [set_cell_ne (ne_of_mem_of_not_mem ha hb).symm, hx.frame b hb]

/-- Some of the cells are freed. -/
theorem without {r : List ℕ} (hx : Extends h₀ h (s ++ r)) (hr : ∀ a ∈ s, a ∉ r) :
    Extends h₀ (h.without s) r where
  new a ha := hx.new a (List.mem_append_right s ha)
  allocated a ha := by
    rw [without_cell_ne fun hs => hr a hs ha]
    exact hx.allocated a (List.mem_append_right s ha)
  frame a ha := by
    by_cases hs : a ∈ s
    · rw [without_cell, if_pos hs, hx.new a (List.mem_append_left r hs)]
    · rw [without_cell_ne hs, hx.frame a fun hmem => (List.mem_append.mp hmem).elim hs ha]

/-- **When all of them are freed, the heap is the old one.** -/
theorem without_eq (hx : Extends h₀ h s) : h.without s = h₀ := by
  have hx : Extends h₀ h (s ++ []) := by rwa [List.append_nil]
  have hnil := hx.without fun _ _ => List.not_mem_nil
  exact eq_of_cell fun a => hnil.frame a List.not_mem_nil

end Extends

/-! ### Operations -/

/-- What an operation does that owns the cells `s` before and `s'` behind it: it
takes cells that were free, frees those that it does not keep, and leaves the
others alone. -/
structure Changes (h h' : Heap β) (s s' : List ℕ) : Prop where
  fresh : ∀ a ∈ s', a ∈ s ∨ h.cell a = none
  freed : ∀ a ∈ s, a ∉ s' → h'.cell a = none
  frame : ∀ a, a ∉ s → a ∉ s' → h'.cell a = h.cell a

namespace Changes

variable {h h' : Heap β} {s s' : List ℕ}

theorem refl (h : Heap β) (s : List ℕ) : Changes h h s s :=
  ⟨fun _ ha => .inl ha, fun _ ha ha' => absurd ha ha', fun _ _ _ => rfl⟩

theorem trans {h'' : Heap β} {s'' : List ℕ} (hc : Changes h h' s s') (hc' : Changes h' h'' s' s'') :
    Changes h h'' s s'' where
  fresh a ha'' := by
    by_cases ha' : a ∈ s'
    · exact hc.fresh a ha'
    · by_cases ha : a ∈ s
      · exact .inl ha
      · exact .inr ((hc.frame a ha ha').symm.trans ((hc'.fresh a ha'').resolve_left ha'))
  freed a ha ha'' := by
    by_cases ha' : a ∈ s'
    · exact hc'.freed a ha' ha''
    · rw [hc'.frame a ha' ha'', hc.freed a ha ha']
  frame a ha ha'' := by
    by_cases ha' : a ∈ s'
    · -- the cell was taken and given back in between
      rw [hc'.freed a ha' ha'', (hc.fresh a ha').resolve_left ha]
    · rw [hc'.frame a ha' ha'', hc.frame a ha ha']

/-- Cells that are allocated and not its own stay as they are. -/
theorem cell_eq (hc : Changes h h' s s') {a : ℕ} {v : β} (hv : h.cell a = some v) (ha : a ∉ s) :
    a ∉ s' ∧ h'.cell a = some v := by
  have ha' : a ∉ s' := by
    intro hmem
    rcases hc.fresh a hmem with hmem | hfree
    · exact ha hmem
    · rw [hv] at hfree
      cases hfree
  exact ⟨ha', (hc.frame a ha ha').trans hv⟩

/-- An operation that neither takes cells nor frees any. -/
theorem of_frame (hs : ∀ a, a ∈ s ↔ a ∈ s') (hframe : ∀ a, a ∉ s → h'.cell a = h.cell a) :
    Changes h h' s s' :=
  ⟨fun a ha => .inl ((hs a).mpr ha), fun a ha ha' => absurd ((hs a).mp ha) ha',
    fun a ha _ => hframe a ha⟩

/-- **The cells besides `h₀`**, of which the operation owns some and leaves the
others alone. -/
theorem extended (hc : Changes h h' s s') (hs' : ∀ a ∈ s', ∃ v, h'.cell a = some v)
    {h₀ : Heap β} {r : List ℕ} (hx : Extends h₀ h (s ++ r)) (hr : ∀ a ∈ s, a ∉ r) :
    Extends h₀ h' (s' ++ r) ∧ ∀ a ∈ s', a ∉ r := by
  have hkeep : ∀ a ∈ r, a ∉ s' ∧ h'.cell a = h.cell a := by
    intro a ha
    obtain ⟨v, hv⟩ := hx.allocated a (List.mem_append_right s ha)
    rw [hv]
    exact hc.cell_eq hv fun hs => hr a hs ha
  refine ⟨⟨fun a ha => ?_, fun a ha => ?_, fun a ha => ?_⟩, fun a ha hmem => (hkeep a hmem).1 ha⟩
  · rcases List.mem_append.mp ha with ha | ha
    · rcases hc.fresh a ha with hs | hfree
      · exact hx.new a (List.mem_append_left r hs)
      · exact ((hx.free_iff a).mp hfree).2
    · exact hx.new a (List.mem_append_right s ha)
  · rcases List.mem_append.mp ha with ha | ha
    · exact hs' a ha
    · rw [(hkeep a ha).2]
      exact hx.allocated a (List.mem_append_right s ha)
  · rw [List.mem_append, not_or] at ha
    by_cases hs : a ∈ s
    · rw [hc.freed a hs ha.1, hx.new a (List.mem_append_left r hs)]
    · rw [hc.frame a hs ha.1]
      exact hx.frame a fun hmem => (List.mem_append.mp hmem).elim hs ha.2

/-- The same when it owns all of them. -/
theorem extends_all (hc : Changes h h' s s') (hs' : ∀ a ∈ s', ∃ v, h'.cell a = some v)
    {h₀ : Heap β} (hx : Extends h₀ h s) : Extends h₀ h' s' := by
  have hx : Extends h₀ h (s ++ []) := by rwa [List.append_nil]
  have hx' := (hc.extended hs' hx fun _ _ => List.not_mem_nil).1
  rwa [List.append_nil] at hx'

end Changes

end Heap

end Memory
