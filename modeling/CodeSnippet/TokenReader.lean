/-
CodeSnippet/TokenReader.lean

Token readers over a stream of bytes.  A reader skips blanks, reads a run of one
of its `classes` as one token and any other byte as a token by itself, and puts
back the byte that ended a run.  Where bytes are stored in a `char` before they
are compared with `EOF`, some of them are `lost`: they end the input, and are not
put back behind a run.

The string that a call leaves in `s` is its text.  A reader is `Lossless` on an
input when the texts are the input without its blanks, and nothing else happens
than should.

Main results:
  * `Reads.lossless_iff` — the inputs on which a reader is lossless.
-/
import CodeSnippet.TokenStream

namespace CodeSnippet

open Memory

namespace TokenReader

/-! ### Reading up to the end -/

/-- A token reader, with the end token and the tokens for numbers. -/
structure Reader (τ : Type) where
  getop : Block UInt8 → List UInt8 → Option (τ × Block UInt8 × List UInt8)
  isEnd : τ → Bool
  isNumber : τ → Bool

/-- A call: its result, the string it leaves in `s` and the input before it. -/
structure Token (τ : Type) where
  ret : τ
  text : List UInt8
  before : List UInt8

variable {τ : Type}

/-- The tokens in front of the end token, and the input at the call that returns
the end token. -/
def Reader.run (r : Reader τ) : ℕ → Block UInt8 → List UInt8 → Option (List (Token τ) × List UInt8)
  | 0, _, _ => none
  | fuel + 1, s, inp => do
      let (ret, s, rest) ← r.getop s inp
      if r.isEnd ret then some ([], inp)
      else do
        let (tokens, last) ← r.run fuel s rest
        some (⟨ret, cString s, inp⟩ :: tokens, last)

/-- The texts, concatenated. -/
def texts (tokens : List (Token τ)) : List UInt8 := tokens.flatMap Token.text

/-- The input without its spaces and tabs. -/
def plain (inp : List UInt8) : List UInt8 := inp.filter (!isblank ·)

/-- The text of `t` is a maximal run of digits of `inp`, and the first thing
behind the blanks where `t` was read. -/
structure IsNumberOf (inp : List UInt8) (t : Token τ) : Prop where
  nonempty : t.text ≠ []
  digits : ∀ c ∈ t.text, isdigit c = true
  maximal : ∃ pre post, inp = pre ++ (t.text ++ post) ∧
    t.before.dropWhile isblank = t.text ++ post ∧ cutsNumber pre t.text = false ∧
    cutsNumber t.text post = false

/-- Reading ends, at the end of the input; no byte is lost, and numbers are
numbers.  A run has no result when it writes outside `s`. -/
def Reader.Lossless (r : Reader τ) (s : Block UInt8) (inp : List UInt8) : Prop :=
  ∃ fuel tokens last, r.run fuel s inp = some (tokens, last) ∧
    (∀ c ∈ last, isblank c = true) ∧ texts tokens = plain inp ∧
    ∀ t ∈ tokens, r.isNumber t.ret = true → IsNumberOf inp t

/-! ### Long runs -/

/-- No run of the class is longer than 7. -/
def RunsFit (isx : UInt8 → Bool) (inp : List UInt8) : Prop :=
  ∀ l, l <:+ inp → (l.takeWhile isx).length ≤ 7

section Runs

variable {isx : UInt8 → Bool} {c : UInt8} {l w : List UInt8}

theorem runsFit_nil (isx : UInt8 → Bool) : RunsFit isx [] := by
  intro l hl
  rw [List.suffix_nil.mp hl]
  exact Nat.zero_le _

theorem runsFit_cons :
    RunsFit isx (c :: l) ↔ ((c :: l).takeWhile isx).length ≤ 7 ∧ RunsFit isx l := by
  constructor
  · intro h
    exact ⟨h _ (List.suffix_refl _), fun l' hl' => h l' (hl'.trans (List.suffix_cons c l))⟩
  · rintro ⟨hself, hrest⟩ l' hl'
    rcases List.suffix_cons_iff.mp hl' with rfl | hl'
    · exact hself
    · exact hrest l' hl'

/-- Bytes of another kind do not matter. -/
theorem runsFit_others (hw : ∀ c ∈ w, isx c = false) : RunsFit isx (w ++ l) ↔ RunsFit isx l := by
  induction w with
  | nil => rfl
  | cons c w ih =>
      obtain ⟨hc, hw⟩ := List.forall_mem_cons.mp hw
      rw [List.cons_append, runsFit_cons, ih hw,
        List.takeWhile_cons_of_neg (ne_true_of_eq_false hc)]
      exact and_iff_right (Nat.zero_le 7)

/-- A run, and what follows it. -/
theorem runsFit_run (hw : ∀ c ∈ w, isx c = true) (hl : ∀ c ∈ l.head?, isx c = false) :
    RunsFit isx (w ++ l) ↔ w.length ≤ 7 ∧ RunsFit isx l := by
  induction w with
  | nil => exact (and_iff_right (Nat.zero_le 7)).symm
  | cons c w ih =>
      have hrun := (run_eq hw hl).1
      obtain ⟨-, hw⟩ := List.forall_mem_cons.mp hw
      rw [List.cons_append] at hrun
      rw [List.cons_append, runsFit_cons, ih hw, hrun, List.length_cons, ← and_assoc]
      apply and_congr_left'
      omega

end Runs

/-! ### What a reader does -/

/-- The classes of a reader are apart from each other, and from the blanks, NUL
and the bytes that are lost. -/
structure Classes (lost : UInt8 → Bool) (classes : List (UInt8 → Bool)) : Prop where
  digit : isdigit ∈ classes
  disjoint : ∀ isx ∈ classes, ∀ isy ∈ classes, ∀ c, isx c = true → isy c = true → isx = isy
  apart : ∀ isx ∈ classes, ∀ c, isx c = true → isblank c = false ∧ c ≠ 0 ∧ lost c = false
  blank : ∀ c, isblank c = true → c ≠ 0 ∧ lost c = false

/-- The input behind a run, with the byte that ended it put back. -/
def putBack (lost : UInt8 → Bool) : List UInt8 → List UInt8
  | [] => []
  | c :: cs => if lost c then cs else c :: cs

/-- One call, by what stands behind the blanks. -/
structure Reads (r : Reader τ) (lost : UInt8 → Bool) (classes : List (UInt8 → Bool)) : Prop where
  atEnd : ∀ s inp, s.size = 8 → (∀ c ∈ inp, isblank c = true) →
    ∃ ret s' rest, r.getop s inp = some (ret, s', rest) ∧ r.isEnd ret = true
  atLost : ∀ s b c l, s.size = 8 → (∀ d ∈ b, isblank d = true) → lost c = true →
    ∃ ret s' rest, r.getop s (b ++ c :: l) = some (ret, s', rest) ∧ r.isEnd ret = true
  atRun : ∀ s b w l, ∀ isx ∈ classes, s.size = 8 → (∀ d ∈ b, isblank d = true) → w ≠ [] →
    (∀ c ∈ w, isx c = true) → (∀ c ∈ l.head?, isx c = false) →
    if w.length ≤ 7 then
      ∃ ret s', r.getop s (b ++ (w ++ l)) = some (ret, s', putBack lost l) ∧ s'.size = 8 ∧
        r.isEnd ret = false ∧ (r.isNumber ret = true → isx = isdigit) ∧ cString s' = w
    else r.getop s (b ++ (w ++ l)) = none
  atChar : ∀ s b c l, s.size = 8 → (∀ d ∈ b, isblank d = true) → isblank c = false →
    lost c = false → (∀ isx ∈ classes, isx c = false) →
    ∃ ret s', r.getop s (b ++ c :: l) = some (ret, s', l) ∧ s'.size = 8 ∧ r.isEnd ret = false ∧
      (r.isNumber ret = true → c = 0) ∧ cString s' = if c = 0 then [] else [c]

/-- An input on which nothing goes wrong. -/
@[mk_iff]
structure Readable (lost : UInt8 → Bool) (classes : List (UInt8 → Bool)) (inp : List UInt8) :
    Prop where
  bytes : ∀ c ∈ inp, c ≠ 0 ∧ lost c = false
  runs : ∀ isx ∈ classes, RunsFit isx inp

/-- What stands behind the blanks of an input. -/
inductive Front (lost : UInt8 → Bool) (classes : List (UInt8 → Bool)) : List UInt8 → Prop
  | nothing {b : List UInt8} (hb : ∀ d ∈ b, isblank d = true) : Front lost classes b
  | lost {b l : List UInt8} {c : UInt8} (hb : ∀ d ∈ b, isblank d = true)
      (hblank : isblank c = false) (hlost : lost c = true) : Front lost classes (b ++ c :: l)
  | run {b w l : List UInt8} {isx : UInt8 → Bool} (hb : ∀ d ∈ b, isblank d = true)
      (hisx : isx ∈ classes) (hne : w ≠ []) (hw : ∀ c ∈ w, isx c = true)
      (hl : ∀ c ∈ l.head?, isx c = false) : Front lost classes (b ++ (w ++ l))
  | char {b l : List UInt8} {c : UInt8} (hb : ∀ d ∈ b, isblank d = true)
      (hblank : isblank c = false) (hlost : lost c = false)
      (hclasses : ∀ isx ∈ classes, isx c = false) : Front lost classes (b ++ c :: l)

theorem front (lost : UInt8 → Bool) (classes : List (UInt8 → Bool)) (inp : List UInt8) :
    Front lost classes inp := by
  have hb : ∀ d ∈ inp.takeWhile isblank, isblank d = true := fun d => List.mem_takeWhile_imp
  have hsplit := inp.takeWhile_append_dropWhile (p := isblank)
  have hhead := head?_dropWhile (p := isblank) inp
  rw [← hsplit]
  rcases h : inp.dropWhile isblank with _ | ⟨c, cs⟩
  · rw [List.append_nil]
    exact .nothing hb
  · rw [h] at hhead
    have hblank : isblank c = false := hhead
    by_cases hlost : lost c = true
    · exact .lost hb hblank hlost
    · by_cases hclass : ∃ isx ∈ classes, isx c = true
      · obtain ⟨isx, hisx, hc⟩ := hclass
        rw [← List.takeWhile_append_dropWhile (p := isx) (l := c :: cs)]
        refine .run hb hisx ?_ (fun d => List.mem_takeWhile_imp) fun d hd => ?_
        · rw [List.takeWhile_cons_of_pos hc]
          exact List.cons_ne_nil _ _
        · have hany := head?_dropWhile (p := isx) (c :: cs)
          rw [hd] at hany
          exact hany
      · refine .char hb hblank (Bool.of_not_eq_true hlost) fun isx hisx => ?_
        exact Bool.of_not_eq_true fun hc => hclass ⟨isx, hisx, hc⟩

/-! ### Readable inputs -/

section Readable

variable {lost : UInt8 → Bool} {classes : List (UInt8 → Bool)} {isx : UInt8 → Bool}
variable {b w l : List UInt8} {c : UInt8}

theorem Classes.blank_not (hc : Classes lost classes) (hisx : isx ∈ classes)
    (hb : ∀ d ∈ b, isblank d = true) : ∀ d ∈ b, isx d = false := by
  intro d hd
  refine Bool.of_not_eq_true fun hx => ?_
  have hblank := (hc.apart isx hisx d hx).1
  rw [hb d hd] at hblank
  cases hblank

theorem readable_blanks (hc : Classes lost classes) (hb : ∀ d ∈ b, isblank d = true) :
    Readable lost classes (b ++ l) ↔ Readable lost classes l := by
  constructor
  · rintro ⟨hbytes, hruns⟩
    refine ⟨fun c hmem => hbytes c (List.mem_append_right b hmem), fun isx hisx => ?_⟩
    exact (runsFit_others (hc.blank_not hisx hb)).mp (hruns isx hisx)
  · rintro ⟨hbytes, hruns⟩
    refine ⟨fun c hmem => ?_, fun isx hisx => ?_⟩
    · rcases List.mem_append.mp hmem with hmem | hmem
      · exact hc.blank c (hb c hmem)
      · exact hbytes c hmem
    · exact (runsFit_others (hc.blank_not hisx hb)).mpr (hruns isx hisx)

theorem readable_run (hc : Classes lost classes) (hisx : isx ∈ classes)
    (hw : ∀ c ∈ w, isx c = true) (hl : ∀ c ∈ l.head?, isx c = false) :
    Readable lost classes (w ++ l) ↔ w.length ≤ 7 ∧ Readable lost classes l := by
  have hothers : ∀ isy ∈ classes, isy ≠ isx → ∀ c ∈ w, isy c = false := by
    intro isy hisy hne c hmem
    exact Bool.of_not_eq_true fun hy => hne (hc.disjoint isy hisy isx hisx c hy (hw c hmem))
  constructor
  · rintro ⟨hbytes, hruns⟩
    obtain ⟨hlength, hrest⟩ := (runsFit_run hw hl).mp (hruns isx hisx)
    refine ⟨hlength, fun c hmem => hbytes c (List.mem_append_right w hmem), fun isy hisy => ?_⟩
    by_cases heq : isy = isx
    · rw [heq]
      exact hrest
    · exact (runsFit_others (hothers isy hisy heq)).mp (hruns isy hisy)
  · rintro ⟨hlength, hbytes, hruns⟩
    refine ⟨fun c hmem => ?_, fun isy hisy => ?_⟩
    · rcases List.mem_append.mp hmem with hmem | hmem
      · exact (hc.apart isx hisx c (hw c hmem)).2
      · exact hbytes c hmem
    · by_cases heq : isy = isx
      · rw [heq]
        exact (runsFit_run hw hl).mpr ⟨hlength, hruns isx hisx⟩
      · exact (runsFit_others (hothers isy hisy heq)).mpr (hruns isy hisy)

theorem readable_char (hclasses : ∀ isx ∈ classes, isx c = false) :
    Readable lost classes (c :: l) ↔ (c ≠ 0 ∧ lost c = false) ∧ Readable lost classes l := by
  have hone : ∀ isx ∈ classes, RunsFit isx (c :: l) ↔ RunsFit isx l := fun isx hisx =>
    runsFit_others (List.forall_mem_singleton.mpr (hclasses isx hisx))
  constructor
  · rintro ⟨hbytes, hruns⟩
    obtain ⟨hc, hl⟩ := List.forall_mem_cons.mp hbytes
    exact ⟨hc, hl, fun isx hisx => (hone isx hisx).mp (hruns isx hisx)⟩
  · rintro ⟨hc, hl, hruns⟩
    exact ⟨List.forall_mem_cons.mpr ⟨hc, hl⟩, fun isx hisx => (hone isx hisx).mpr (hruns isx hisx)⟩

theorem readable_of_blank (hc : Classes lost classes) (hb : ∀ d ∈ b, isblank d = true) :
    Readable lost classes b := by
  rw [← List.append_nil b, readable_blanks hc hb]
  exact ⟨fun c hmem => absurd hmem List.not_mem_nil, fun isx _ => runsFit_nil isx⟩

/-! ### The input without blanks -/

theorem plain_blanks (hb : ∀ d ∈ b, isblank d = true) (l : List UInt8) :
    plain (b ++ l) = plain l := by
  have hnone : b.filter (!isblank ·) = [] := by
    apply List.filter_eq_nil_iff.mpr
    intro d hd
    rw [hb d hd]
    decide
  rw [plain, List.filter_append, hnone]
  rfl

theorem plain_append (hw : ∀ d ∈ w, isblank d = false) (l : List UInt8) :
    plain (w ++ l) = w ++ plain l := by
  have hall : w.filter (!isblank ·) = w := by
    apply List.filter_eq_self.mpr
    intro d hd
    rw [hw d hd]
    rfl
  rw [plain, List.filter_append, hall]
  rfl

theorem plain_cons (h : isblank c = false) (l : List UInt8) : plain (c :: l) = c :: plain l :=
  plain_append (List.forall_mem_singleton.mpr h) l

/-- A byte that is not put back is missing. -/
theorem putBack_eq_or (hc : Classes lost classes) (l : List UInt8) :
    putBack lost l = l ∨ (plain (putBack lost l)).length < (plain l).length := by
  rcases l with _ | ⟨c, l⟩
  · exact .inl rfl
  · rw [putBack]
    split
    · rename_i hlost
      have hblank : isblank c = false := by
        refine Bool.of_not_eq_true fun h => ?_
        rw [(hc.blank c h).2] at hlost
        cases hlost
      right
      rw [plain_cons hblank]
      exact Nat.lt_succ_self _
    · exact .inl rfl

end Readable

/-! ### The calls -/

section Run

variable {r : Reader τ} {lost : UInt8 → Bool} {classes : List (UInt8 → Bool)}
variable {s s' : Block UInt8} {inp rest last : List UInt8} {ret : τ} {tokens : List (Token τ)}

theorem Reader.run_end (hget : r.getop s inp = some (ret, s', rest)) (hend : r.isEnd ret = true)
    (fuel : ℕ) : r.run (fuel + 1) s inp = some ([], inp) := by
  rw [Reader.run, hget]
  exact if_pos hend

theorem Reader.run_token (hget : r.getop s inp = some (ret, s', rest))
    (hend : r.isEnd ret = false) (fuel : ℕ) :
    r.run (fuel + 1) s inp =
      (r.run fuel s' rest).map fun p => (⟨ret, cString s', inp⟩ :: p.1, p.2) := by
  rw [Reader.run, hget]
  show (if r.isEnd ret = true then _ else _) = _
  rw [if_neg (ne_true_of_eq_false hend)]
  rcases r.run fuel s' rest with _ | ⟨tokens, last⟩
  · rfl
  · rfl

/-- A token, and the others. -/
theorem Reader.run_token_some (hget : r.getop s inp = some (ret, s', rest))
    (hend : r.isEnd ret = false) {fuel : ℕ} (h : r.run (fuel + 1) s inp = some (tokens, last)) :
    ∃ others, r.run fuel s' rest = some (others, last) ∧
      texts tokens = cString s' ++ texts others := by
  rw [Reader.run_token hget hend, Option.map_eq_some_iff] at h
  obtain ⟨⟨others, last'⟩, hrun, hp⟩ := h
  obtain ⟨rfl, rfl⟩ := Prod.mk.inj hp
  exact ⟨others, hrun, rfl⟩

/-- **No byte is invented**, and none is missing only where the input is readable. -/
theorem Reads.readable_of_run (h : Reads r lost classes) (hc : Classes lost classes) {fuel : ℕ}
    (hs : s.size = 8) (hrun : r.run fuel s inp = some (tokens, last)) :
    (texts tokens).length ≤ (plain inp).length ∧
      (texts tokens = plain inp → Readable lost classes inp) := by
  induction fuel generalizing s inp tokens with
  | zero => cases hrun
  | succ fuel ih =>
      cases front lost classes inp with
      | nothing hb =>
          obtain ⟨ret, s', rest, hget, hend⟩ := h.atEnd s inp hs hb
          rw [Reader.run_end hget hend] at hrun
          cases hrun
          exact ⟨Nat.zero_le _, fun _ => readable_of_blank hc hb⟩
      | @lost b l c hb hblank hlost =>
          obtain ⟨ret, s', rest, hget, hend⟩ := h.atLost s b c l hs hb hlost
          rw [Reader.run_end hget hend] at hrun
          cases hrun
          refine ⟨Nat.zero_le _, fun htexts => ?_⟩
          rw [plain_blanks hb, plain_cons hblank] at htexts
          cases htexts
      | @run b w l isx hb hisx hne hw hl =>
          have hcall := h.atRun s b w l isx hisx hs hb hne hw hl
          have hplain : ∀ d ∈ w, isblank d = false := fun d hd => (hc.apart isx hisx d (hw d hd)).1
          split at hcall
          · rename_i hlength
            obtain ⟨ret, s', hget, hs', hend, -, htext⟩ := hcall
            obtain ⟨others, hothers, htexts⟩ := Reader.run_token_some hget hend hrun
            obtain ⟨hle, heq⟩ := ih hs' hothers
            -- the token is the run; what the others may miss is the byte behind it
            rw [htexts, htext, plain_blanks hb, plain_append hplain, List.length_append,
              List.length_append, readable_blanks hc hb, readable_run hc hisx hw hl,
              List.append_cancel_left_eq]
            rcases putBack_eq_or hc l with hback | hmissing
            · rw [hback] at hle heq
              exact ⟨by omega, fun hsame => ⟨hlength, heq hsame⟩⟩
            · refine ⟨by omega, fun hsame => ?_⟩
              rw [hsame] at hle
              omega
          · -- a run that is too long leaves no result
            rw [Reader.run, hcall] at hrun
            cases hrun
      | @char b l c hb hblank hlost hclasses =>
          obtain ⟨ret, s', hget, hs', hend, -, htext⟩ :=
            h.atChar s b c l hs hb hblank hlost hclasses
          obtain ⟨others, hothers, htexts⟩ := Reader.run_token_some hget hend hrun
          obtain ⟨hle, heq⟩ := ih hs' hothers
          rw [htexts, htext, plain_blanks hb, plain_cons hblank, readable_blanks hc hb,
            readable_char hclasses]
          split
          · -- a NUL is one byte of the input and none of the texts
            refine ⟨?_, fun hsame => ?_⟩
            · rw [List.nil_append, List.length_cons]
              omega
            · rw [List.nil_append] at hsame
              rw [hsame, List.length_cons] at hle
              omega
          · rename_i hzero
            refine ⟨Nat.succ_le_succ hle, fun hsame => ⟨⟨hzero, hlost⟩, heq ?_⟩⟩
            exact (List.cons.inj hsame).2

/-! ### Readable inputs are read -/

theorem cutsNumber_of_head {pre l : List UInt8} (h : ∀ c ∈ l.head?, isdigit c = false) :
    cutsNumber pre l = false := by
  rw [cutsNumber]
  rcases l with _ | ⟨c, l⟩
  · exact Bool.and_false _
  · rw [List.head?_cons, Option.any_some, h c rfl, Bool.and_false]

theorem cutsNumber_of_last {pre w l : List UInt8} (hne : w ≠ [])
    (h : ∀ c ∈ w, isdigit c = false) : cutsNumber (pre ++ w) l = false := by
  rw [cutsNumber, List.getLast?_append_of_ne_nil _ hne, List.getLast?_eq_some_getLast hne,
    Option.any_some, h _ (List.getLast_mem hne), Bool.false_and]

/-- Blanks do not put digits together. -/
theorem cutsNumber_blanks {pre b l : List UInt8} (hb : ∀ d ∈ b, isblank d = true)
    (h : cutsNumber pre (b ++ l) = false) : cutsNumber (pre ++ b) l = false := by
  rcases b with _ | ⟨d, b⟩
  · rw [List.append_nil]
    exact h
  · apply cutsNumber_of_last (List.cons_ne_nil d b)
    intro c hmem
    refine Bool.of_not_eq_true fun hdigit => ?_
    have hblank := ExpressionConvert.isblank_eq_false_of_isdigit hdigit
    rw [hb c hmem] at hblank
    cases hblank

theorem putBack_of_readable {l : List UInt8} (h : Readable lost classes l) :
    putBack lost l = l := by
  rcases l with _ | ⟨c, l⟩
  · rfl
  · rw [putBack, (h.bytes c List.mem_cons_self).2]
    rfl

theorem dropWhile_front {b w : List UInt8} (hb : ∀ d ∈ b, isblank d = true) (hne : w ≠ [])
    (hw : ∀ d ∈ w, isblank d = false) (l : List UInt8) :
    (b ++ (w ++ l)).dropWhile isblank = w ++ l := by
  rcases w with _ | ⟨c, w⟩
  · exact absurd rfl hne
  · rw [List.dropWhile_append_of_pos hb, List.cons_append,
      List.dropWhile_cons_of_neg (ne_true_of_eq_false (hw c List.mem_cons_self))]

/-- The next token does not start inside a number. -/
theorem cutsNumber_run (hc : Classes lost classes) {isx : UInt8 → Bool} (hisx : isx ∈ classes)
    {pre w l : List UInt8} (hne : w ≠ []) (hw : ∀ c ∈ w, isx c = true)
    (hl : ∀ c ∈ l.head?, isx c = false) : cutsNumber (pre ++ w) l = false := by
  by_cases hdigit : isx = isdigit
  · exact cutsNumber_of_head (hdigit ▸ hl)
  · refine cutsNumber_of_last hne fun c hmem => Bool.of_not_eq_true fun hd => hdigit ?_
    exact hc.disjoint isx hisx isdigit hc.digit c (hw c hmem) hd

/-- A run of digits behind blanks. -/
theorem isNumberOf_run {pre b w l : List UInt8} (hinp : inp = pre ++ b ++ w ++ l)
    (hcut : cutsNumber pre (b ++ (w ++ l)) = false) (hb : ∀ d ∈ b, isblank d = true)
    (hne : w ≠ []) (hw : ∀ c ∈ w, isdigit c = true) (hl : ∀ c ∈ l.head?, isdigit c = false)
    (ret : τ) : IsNumberOf inp ⟨ret, w, b ++ (w ++ l)⟩ where
  nonempty := hne
  digits := hw
  maximal := by
    refine ⟨pre ++ b, l, ?_, ?_, ?_, cutsNumber_of_head hl⟩
    · rw [← List.append_assoc]
      exact hinp
    · exact dropWhile_front hb hne
        (fun d hd => ExpressionConvert.isblank_eq_false_of_isdigit (hw d hd)) l
    · rw [← cutsNumber_append hne l]
      exact cutsNumber_blanks hb hcut

/-- A token in front of others. -/
theorem Reader.run_cons {P : Token τ → Prop} {p : List UInt8}
    (hget : r.getop s inp = some (ret, s', rest)) (hend : r.isEnd ret = false)
    (hfirst : P ⟨ret, cString s', inp⟩)
    (hothers : ∃ fuel tokens last, r.run fuel s' rest = some (tokens, last) ∧
      (∀ c ∈ last, isblank c = true) ∧ texts tokens = p ∧ ∀ t ∈ tokens, P t) :
    ∃ fuel tokens last, r.run fuel s inp = some (tokens, last) ∧
      (∀ c ∈ last, isblank c = true) ∧ texts tokens = cString s' ++ p ∧ ∀ t ∈ tokens, P t := by
  obtain ⟨fuel, tokens, last, hrun, hlast, rfl, hall⟩ := hothers
  refine ⟨fuel + 1, ⟨ret, cString s', inp⟩ :: tokens, last, ?_, hlast, rfl, ?_⟩
  · rw [Reader.run_token hget hend, hrun]
    rfl
  · exact List.forall_mem_cons.mpr ⟨hfirst, hall⟩

/-- The tokens of the rest of a readable input. -/
theorem Reads.run_of_readable (h : Reads r lost classes) (hc : Classes lost classes)
    {pre : List UInt8} (hs : s.size = 8) (hinp : inp = pre ++ rest)
    (hcut : cutsNumber pre rest = false) (hread : Readable lost classes rest) :
    ∃ fuel tokens last, r.run fuel s rest = some (tokens, last) ∧
      (∀ c ∈ last, isblank c = true) ∧ texts tokens = plain rest ∧
      ∀ t ∈ tokens, r.isNumber t.ret = true → IsNumberOf inp t := by
  induction hn : rest.length using Nat.strong_induction_on generalizing s pre rest with
  | _ n ih =>
      cases front lost classes rest with
      | nothing hb =>
          obtain ⟨ret, s', left, hget, hend⟩ := h.atEnd s rest hs hb
          refine ⟨1, [], rest, Reader.run_end hget hend 0, hb, ?_, fun t ht => ?_⟩
          · have hplain := plain_blanks hb []
            rw [List.append_nil] at hplain
            exact hplain.symm
          · cases ht
      | @lost b l c hb hblank hlost =>
          -- a readable input has no such byte
          have hbyte := (hread.bytes c (List.mem_append_right b List.mem_cons_self)).2
          rw [hlost] at hbyte
          cases hbyte
      | @run b w l isx hb hisx hne hw hl =>
          obtain ⟨hlength, hrest⟩ :=
            (readable_run hc hisx hw hl).mp ((readable_blanks hc hb).mp hread)
          have hcall := h.atRun s b w l isx hisx hs hb hne hw hl
          rw [if_pos hlength, putBack_of_readable hrest] at hcall
          obtain ⟨ret, s', hget, hs', hend, hnumber, htext⟩ := hcall
          have hplain : ∀ d ∈ w, isblank d = false := fun d hd => (hc.apart isx hisx d (hw d hd)).1
          have hinp' : inp = pre ++ b ++ w ++ l := by
            rw [hinp, List.append_assoc, List.append_assoc]
          have hpos := List.length_pos_iff.mpr hne
          rw [List.length_append, List.length_append] at hn
          have hnext := @cutsNumber_run _ _ hc _ hisx (pre ++ b) _ _ hne hw hl
          have hothers := ih l.length (by omega) hs' hinp' hnext hrest rfl
          have htexts : plain (b ++ (w ++ l)) = cString s' ++ plain l := by
            rw [plain_blanks hb, plain_append hplain, htext]
          rw [htexts]
          refine Reader.run_cons hget hend (fun hret => ?_) hothers
          obtain rfl := hnumber hret
          rw [htext]
          exact isNumberOf_run hinp' hcut hb hne hw hl ret
      | @char b l c hb hblank hlost hclasses =>
          obtain ⟨hbyte, hrest⟩ := (readable_char hclasses).mp ((readable_blanks hc hb).mp hread)
          obtain ⟨ret, s', hget, hs', hend, hnumber, htext⟩ :=
            h.atChar s b c l hs hb hblank hlost hclasses
          rw [if_neg hbyte.1] at htext
          have hnext : cutsNumber (pre ++ b ++ [c]) l = false :=
            cutsNumber_of_last (List.cons_ne_nil c []) fun d hd => by
              rw [List.mem_singleton.mp hd]
              exact hclasses isdigit hc.digit
          have hinp' : inp = pre ++ b ++ [c] ++ l := by
            rw [hinp, List.append_assoc, List.append_assoc]
            rfl
          rw [List.length_append, List.length_cons] at hn
          have hothers := ih l.length (by omega) hs' hinp' hnext hrest rfl
          have htexts : plain (b ++ c :: l) = cString s' ++ plain l := by
            rw [plain_blanks hb, plain_cons hblank, htext]
            rfl
          rw [htexts]
          exact Reader.run_cons hget hend (fun hret => absurd (hnumber hret) hbyte.1) hothers

/-- **The inputs on which a reader is lossless.** -/
theorem Reads.lossless_iff (h : Reads r lost classes) (hc : Classes lost classes)
    (hs : s.size = 8) (inp : List UInt8) :
    r.Lossless s inp ↔ Readable lost classes inp := by
  constructor
  · rintro ⟨fuel, tokens, last, hrun, -, htexts, -⟩
    exact (h.readable_of_run hc hs hrun).2 htexts
  · intro hread
    exact h.run_of_readable hc hs (List.nil_append inp).symm rfl hread

end Run

end TokenReader

end CodeSnippet
