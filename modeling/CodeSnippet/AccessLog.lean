/-
CodeSnippet/AccessLog.lean

Blocks that are accessed as a machine does it, without a check, and that keep a
log of all indices read and written.  A program over logged blocks says which
indices it touches whether or not they lie inside the block; where the checked
program over `Block` is defined, both come to the same contents and the log
stays inside (`Logged.Inside`, one lemma for each operation).
-/
import CodeSnippet.Block

namespace Memory

variable {α β : Type*}

/-- A block and the indices at which it was read and written. -/
structure Logged (α : Type*) where
  block : Block α
  reads : List ℕ
  writes : List ℕ

/-- All indices of a list lie below `m`. -/
def Below (m : ℕ) (l : List ℕ) : Prop := ∀ i ∈ l, i < m

instance (m : ℕ) (l : List ℕ) : Decidable (Below m l) :=
  inferInstanceAs (Decidable (∀ i ∈ l, i < m))

theorem below_nil (m : ℕ) : Below m [] := fun _ h => absurd h List.not_mem_nil

theorem below_append {m : ℕ} {l l' : List ℕ} : Below m (l ++ l') ↔ Below m l ∧ Below m l' :=
  List.forall_mem_append

theorem below_singleton {m i : ℕ} : Below m [i] ↔ i < m := List.forall_mem_singleton

/-- A range lies below `m` if it is empty or ends there. -/
theorem below_range' {m d n : ℕ} : Below m (List.range' d n) ↔ n = 0 ∨ d + n ≤ m := by
  unfold Below
  constructor
  · intro h
    rcases Nat.eq_zero_or_pos n with rfl | hn
    · exact .inl rfl
    · have hlast := h (d + (n - 1)) (List.mem_range'_1.mpr (by omega))
      omega
  · rintro (rfl | h) i hi
    · exact absurd hi List.not_mem_nil
    · have hi := List.mem_range'_1.mp hi
      omega

namespace Logged

/-! ### Operations -/

/-- A block that was not touched yet. -/
def start (b : Block α) : Logged α := ⟨b, [], []⟩

/-- Write one cell. -/
def store (t : Logged α) (i : ℕ) (v : α) : Logged α :=
  { t with block := t.block.set i v, writes := t.writes ++ [i] }

/-- `memcpy(&b[d], &src[s], n)`. -/
def memcpy (t : Logged α) (d : ℕ) (src : Block α) (s n : ℕ) : Logged α :=
  { t with block := t.block.copyIn d src s n, writes := t.writes ++ List.range' d n }

/-- `memset(&b[d], v, n)`. -/
def memset (t : Logged α) (d : ℕ) (v : α) (n : ℕ) : Logged α :=
  { t with block := t.block.fillIn d v n, writes := t.writes ++ List.range' d n }

/-- The first `n` cells, as handed to a call that reads them all. -/
def read (t : Logged α) (n : ℕ) : List α × Logged α :=
  (t.block.cells 0 n, { t with reads := t.reads ++ List.range' 0 n })

/-- Read one cell. -/
def load (t : Logged α) (i : ℕ) : α × Logged α :=
  (t.block.cell i, { t with reads := t.reads ++ [i] })

/-- `n` cells from `s` on, as handed to a call that reads them all. -/
def readAt (t : Logged α) (s n : ℕ) : List α × Logged α :=
  (t.block.cells s n, { t with reads := t.reads ++ List.range' s n })

/-- The loop `for (i = 0; i < len; i++) sum += b[i]`, each addend first
converted by `f` to the type of the sum. -/
def sumLoop [Add β] (f : α → β) (t : Logged α) (len : ℕ) (sum : β) : β × Logged α :=
  (List.range len).foldl
    (fun r i => (r.1 + f (r.2.block.cell i), { r.2 with reads := r.2.reads ++ [i] })) (sum, t)

theorem sumLoop_eq [AddCommMonoid β] (f : α → β) (t : Logged α) (len : ℕ) (sum : β) :
    t.sumLoop f len sum = (sum + ((t.block.cells 0 len).map f).sum,
      { t with reads := t.reads ++ List.range' 0 len }) := by
  induction len with
  | zero => simp [sumLoop]
  | succ n ih =>
      unfold sumLoop at ih ⊢
      rw [List.range_succ, List.foldl_append, ih, List.foldl_cons, List.foldl_nil,
        Block.cells_succ, List.map_append, List.sum_append, List.map_singleton, List.sum_singleton,
        Nat.zero_add, List.range'_1_concat, Nat.zero_add, add_assoc, List.append_assoc]

/-! ### Staying below a bound -/

/-- Nothing was touched from `m` on. -/
structure Within (t : Logged α) (m : ℕ) : Prop where
  reads : Below m t.reads
  writes : Below m t.writes

variable {t : Logged α} {m : ℕ}

theorem within_start (b : Block α) (m : ℕ) : (start b).Within m := ⟨below_nil m, below_nil m⟩

theorem Within.store (h : t.Within m) {i : ℕ} (hi : i < m) (v : α) : (t.store i v).Within m :=
  ⟨h.reads, below_append.mpr ⟨h.writes, below_singleton.mpr hi⟩⟩

theorem Within.memcpy (h : t.Within m) {d n : ℕ} (hd : d + n ≤ m) (src : Block α) (s : ℕ) :
    (t.memcpy d src s n).Within m :=
  ⟨h.reads, below_append.mpr ⟨h.writes, below_range'.mpr (.inr hd)⟩⟩

theorem Within.memset (h : t.Within m) {d n : ℕ} (hd : d + n ≤ m) (v : α) :
    (t.memset d v n).Within m :=
  ⟨h.reads, below_append.mpr ⟨h.writes, below_range'.mpr (.inr hd)⟩⟩

theorem Within.read (h : t.Within m) {n : ℕ} (hn : n ≤ m) : (t.read n).2.Within m := by
  refine ⟨below_append.mpr ⟨h.reads, below_range'.mpr (.inr ?_)⟩, h.writes⟩
  rwa [Nat.zero_add]

theorem Within.load (h : t.Within m) {i : ℕ} (hi : i < m) : (t.load i).2.Within m :=
  ⟨below_append.mpr ⟨h.reads, below_singleton.mpr hi⟩, h.writes⟩

theorem Within.readAt (h : t.Within m) {s n : ℕ} (hs : s + n ≤ m) : (t.readAt s n).2.Within m :=
  ⟨below_append.mpr ⟨h.reads, below_range'.mpr (.inr hs)⟩, h.writes⟩

theorem Within.sumLoop [AddCommMonoid β] (h : t.Within m) {len : ℕ} (hlen : len ≤ m) (f : α → β)
    (sum : β) : (t.sumLoop f len sum).2.Within m := by
  rw [sumLoop_eq]
  refine ⟨below_append.mpr ⟨h.reads, below_range'.mpr (.inr ?_)⟩, h.writes⟩
  rwa [Nat.zero_add]

theorem sumLoop_block [AddCommMonoid β] (f : α → β) (t : Logged α) (len : ℕ) (sum : β) :
    (t.sumLoop f len sum).2.block = t.block := by
  rw [sumLoop_eq]

/-! ### Staying inside -/

/-- Nothing was touched outside the block. -/
def Inside (t : Logged α) : Prop := t.Within t.block.size

theorem inside_start (b : Block α) : (start b).Inside := within_start b b.size

theorem Inside.store (h : t.Inside) {i : ℕ} {v : α} {b : Block α}
    (hb : t.block.store i v = some b) : (t.store i v).Inside ∧ (t.store i v).block = b := by
  obtain ⟨hi, rfl⟩ := Block.store_eq_some_iff.mp hb
  exact ⟨Within.store h hi v, rfl⟩

theorem Inside.memcpy (h : t.Inside) {d s n : ℕ} {src b : Block α}
    (hb : t.block.memcpy d src s n = some b) :
    (t.memcpy d src s n).Inside ∧ (t.memcpy d src s n).block = b := by
  obtain ⟨⟨hd, -⟩, rfl⟩ := Block.memcpy_eq_some_iff.mp hb
  exact ⟨Within.memcpy h hd src s, rfl⟩

theorem Inside.memset (h : t.Inside) {d n : ℕ} {v : α} {b : Block α}
    (hb : t.block.memset d v n = some b) :
    (t.memset d v n).Inside ∧ (t.memset d v n).block = b := by
  obtain ⟨hd, rfl⟩ := Block.memset_eq_some_iff.mp hb
  exact ⟨Within.memset h hd v, rfl⟩

theorem Inside.read (h : t.Inside) {n : ℕ} {l : List α} (hl : t.block.read 0 n = some l) :
    (t.read n).2.Inside ∧ (t.read n).1 = l := by
  obtain ⟨hn, rfl⟩ := Block.read_eq_some_iff.mp hl
  rw [Nat.zero_add] at hn
  exact ⟨Within.read h hn, rfl⟩

theorem Inside.sumLoop [AddCommMonoid β] (h : t.Inside) {f : α → β} {len : ℕ} {sum r : β}
    (hr : t.block.sumLoop f len sum = some r) :
    (t.sumLoop f len sum).2.Inside ∧ (t.sumLoop f len sum).1 = r := by
  have hlen := Block.sumLoop_le hr
  obtain rfl := Option.some.inj ((Block.sumLoop_eq f hlen sum).symm.trans hr)
  rw [Inside, sumLoop_block]
  refine ⟨Within.sumLoop h hlen f sum, ?_⟩
  rw [sumLoop_eq]

end Logged

end Memory
