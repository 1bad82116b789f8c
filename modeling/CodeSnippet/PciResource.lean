/-
CodeSnippet/PciResource.lean

`get_pci_bar_addr` of src/hardware/pcie_sysfs_can.c and pcie_sysfs_gpio.c, which
differ in the size of a buffer: the number at the start of a line of a file of the
kernel, with a line for each resource of a device.

Main results:
  * `getPciBarAddr_eq` — the result for any file.
  * `getPciBarAddr_sysfs` — the result of both for a file as the kernel writes it.
-/
import CodeSnippet.HexNumeral
import CodeSnippet.TextFile

namespace CodeSnippet

open Memory TextFile Smc

namespace PciResource

/-! ### Source -/

/-- The sign of a number that `strtoll` reads, and what follows it. -/
def strtollSign : List UInt8 → Bool × List UInt8
  | [] => (false, [])
  | c :: cs =>
      if c = chr '-' then (true, cs)
      else if c = chr '+' then (false, cs)
      else (false, c :: cs)

/-- `0x` counts only in front of a digit. -/
def strtollPrefix : List UInt8 → List UInt8
  | zero :: x :: d :: cs =>
      if zero = chr '0' ∧ (x = chr 'x' ∨ x = chr 'X') ∧ isxdigit d then d :: cs
      else zero :: x :: d :: cs
  | cs => cs

/-- `strtoll(nptr, &endptr, 16)`; a number that is too large becomes `LLONG_MAX`. -/
def strtollHex (nptr : List UInt8) : ℤ :=
  let (negative, cs) := strtollSign (nptr.dropWhile isspace)
  let n : ℤ := hexValue ((strtollPrefix cs).takeWhile isxdigit)
  if negative then max (-2 ^ 63) (-n) else min (2 ^ 63 - 1) n

/-- `while (barno-- >= 0)`, for so many rounds; at the end of the file `fgets` leaves
the buffer as it is. -/
def readLoop : ℕ → Block UInt8 → List UInt8 → Option (Block UInt8)
  | 0, buf, _ => some buf
  | barno + 1, buf, file => do
      let buf ← buf.memset 0 0 buf.size
      match fgets buf file with
      | none => readLoop barno buf file
      | some (buf, file) => readLoop barno buf file

/-- `fp < 0` is never true, so that a file that cannot be opened is read from. -/
def getPciBarAddr (bufSize : ℕ) (fopen : Option (List UInt8)) (barno : ℤ) : Option UInt64 := do
  let file ← fopen
  let buf ← readLoop (barno + 1).toNat ⟨bufSize, fun _ => 0⟩ file
  match ← buf.strchr 0 (chr ' ') with
  | none => some 0
  | some firstBlank =>
      let buf ← buf.store firstBlank 0
      let number ← buf.cstr 0
      some (UInt64.ofInt (strtollHex number))

namespace Can

def bufSize : ℕ := 256

/-- `get_pci_bar_addr` of pcie_sysfs_can.c. -/
def getPciBarAddr : Option (List UInt8) → ℤ → Option UInt64 := PciResource.getPciBarAddr bufSize

end Can

namespace Gpio

def bufSize : ℕ := 128

/-- `get_pci_bar_addr` of pcie_sysfs_gpio.c. -/
def getPciBarAddr : Option (List UInt8) → ℤ → Option UInt64 := PciResource.getPciBarAddr bufSize

end Gpio

/-! ### Any file -/

/-- The string that is in the buffer behind so many rounds. -/
def lineOf (n : ℕ) (file : List UInt8) (barno : ℕ) : List UInt8 :=
  Block.untilNul ((pieces n file).getD barno [])

theorem lineOf_zero {n : ℕ} (hn : 0 < n) {file : List UInt8} (hfile : file ≠ []) :
    lineOf n file 0 = Block.untilNul (fgetsBytes n file) := by
  rw [lineOf, pieces, cut_eq n hn hfile, List.getD_cons_zero]

theorem lineOf_succ {n : ℕ} (hn : 0 < n) (file : List UInt8) (barno : ℕ) :
    lineOf n file (barno + 1) = lineOf n (file.drop (fgetsBytes n file).length) barno := by
  rcases file with _ | ⟨c, rest⟩
  · rw [List.drop_nil]
    rfl
  · rw [lineOf, pieces, cut_eq n hn (List.cons_ne_nil c rest), List.getD_cons_succ]
    rfl

/-- What a round that reads something leaves in the buffer. -/
theorem overlay_spells {b : Block UInt8} {n : ℕ} (hb : b.size = n + 1) {line : List UInt8}
    (hline : line.length ≤ n) : (b.overlay (line ++ [0])).Spells 0 (Block.untilNul line) := by
  have hcells := Block.overlay_cells b (line ++ [0])
  rw [List.length_append, List.length_singleton] at hcells
  refine Block.spells_untilNul hcells ?_
  rw [Block.overlay_size, hb, Nat.zero_add]
  exact Nat.lt_succ_of_le hline

/-- One round reads the first line, if there is one. -/
theorem readLoop_succ {n : ℕ} (hn : 0 < n) (barno : ℕ) {b : Block UInt8} (hb : b.size = n + 1)
    (file : List UInt8) :
    ∃ b', readLoop (barno + 1) b file =
        readLoop barno b' (file.drop (fgetsBytes n file).length) ∧
      b'.size = n + 1 ∧ b'.Spells 0 (lineOf n file 0) := by
  have hmemset : b.memset 0 0 b.size = some (b.fillIn 0 0 b.size) :=
    Block.memset_eq (by rw [Nat.zero_add]) 0
  have hsize : (b.fillIn 0 0 b.size).size = n + 1 := hb
  rw [readLoop, hmemset, Option.bind_eq_bind, Option.bind_some]
  rcases file with _ | ⟨c, rest⟩
  · refine ⟨b.fillIn 0 0 b.size, by rw [List.drop_nil]; rfl, hsize, rfl, ?_, ?_, List.not_mem_nil⟩
    · rw [hsize]
      exact Nat.succ_pos n
    · show (b.fillIn 0 0 b.size).cell 0 = 0
      simp [hb]
  · have hread := lineOf_zero hn (List.cons_ne_nil c rest)
    refine ⟨(b.fillIn 0 0 b.size).overlay (fgetsBytes n (c :: rest) ++ [0]), ?_, hsize, ?_⟩
    · simp only [fgets, hsize, Nat.add_sub_cancel]
    · rw [hread]
      exact overlay_spells hsize (fgetsBytes_length_le n _)

/-- **The loop** leaves the line in the buffer, and nothing when there is none, by
induction on the rounds. -/
theorem readLoop_spells {n : ℕ} (hn : 0 < n) (barno : ℕ) {b : Block UInt8} (hb : b.size = n + 1)
    (file : List UInt8) :
    ∃ b', readLoop (barno + 1) b file = some b' ∧ b'.size = n + 1 ∧
      b'.Spells 0 (lineOf n file barno) := by
  induction barno generalizing b file with
  | zero =>
      obtain ⟨b', hround, hb', hspells⟩ := readLoop_succ hn 0 hb file
      exact ⟨b', hround, hb', hspells⟩
  | succ barno ih =>
      obtain ⟨b', hround, hb', -⟩ := readLoop_succ hn (barno + 1) hb file
      rw [hround, lineOf_succ hn]
      exact ih hb' _

/-- **The result for any file**: the number before the first blank of the line, and
`NULL` when there is no blank. -/
theorem getPciBarAddr_eq {n : ℕ} (hn : 0 < n) (file : List UInt8) (barno : ℕ) :
    getPciBarAddr (n + 1) (some file) barno = some
      (if chr ' ' ∈ lineOf n file barno then
        UInt64.ofInt (strtollHex ((lineOf n file barno).takeWhile (· != chr ' ')))
      else 0) := by
  obtain ⟨buf, hloop, hsize, hspells⟩ := readLoop_spells hn barno
    (b := ⟨n + 1, fun _ => 0⟩) rfl file
  have hrounds : ((barno : ℤ) + 1).toNat = barno + 1 := by omega
  rw [getPciBarAddr, hrounds, Option.bind_eq_bind, Option.bind_some, hloop]
  by_cases hblank : chr ' ' ∈ lineOf n file barno
  · obtain ⟨number, rest, hline, hnumber⟩ := List.eq_append_cons_of_mem hblank
    have htake : (lineOf n file barno).takeWhile (· != chr ' ') = number := by
      have hbefore : ∀ c ∈ number, (c != chr ' ') = true := by
        intro c hc
        simpa using fun e : c = chr ' ' => hnumber (e ▸ hc)
      rw [hline, List.takeWhile_append_of_pos hbefore, List.takeWhile_cons_of_neg (by simp),
        List.append_nil]
    rw [hline] at hspells
    have hroom := hspells.room
    rw [List.length_append, List.length_cons] at hroom
    rw [if_pos hblank, htake, Option.bind_eq_bind, Option.bind_some, hspells.strchr_mem hnumber,
      Option.bind_eq_bind, Option.bind_some]
    simp only [Block.store_eq (show 0 + number.length < buf.size by omega) 0,
      Option.bind_some, Block.cstr_eq_some_iff.mpr hspells.cut.1]
  · rw [if_neg hblank, Option.bind_eq_bind, Option.bind_some,
      hspells.strchr_notMem hblank (by decide)]
    rfl

/-- `getPciBarAddr_eq` for the second line of a file. -/
theorem getPciBarAddr_eq_secondLine :
    Gpio.getPciBarAddr (some (bytes "10 a\n-0x2F b\n")) 1 = some (UInt64.ofInt (-47)) :=
  (getPciBarAddr_eq (by decide) (bytes "10 a\n-0x2F b\n") 1).trans (by decide +kernel)

/-! ### A file of the kernel -/

/-- `struct resource`. -/
structure Resource where
  start : UInt64
  stop : UInt64
  flags : UInt64

/-- `0x%016llx` -/
def print016llx (v : UInt64) : List UInt8 :=
  bytes "0x" ++ (List.replicate (16 - (printLx v).length) (chr '0') ++ printLx v)

def Resource.body (r : Resource) : List UInt8 :=
  print016llx r.start ++ chr ' ' :: (print016llx r.stop ++ chr ' ' :: print016llx r.flags)

/-- The line of a resource. -/
def Resource.line (r : Resource) : List UInt8 := r.body ++ [lf]

theorem printLx_isxdigit (v : UInt64) : ∀ c ∈ printLx v, isxdigit c = true :=
  (toDigits_hexValue v.toNat).1

theorem printLx_length (v : UInt64) : 0 < (printLx v).length ∧ (printLx v).length ≤ 16 := by
  rw [printLx, List.length_map]
  refine ⟨Nat.length_toDigits_pos, (Nat.length_toDigits_le_iff (by decide) (by decide)).mpr ?_⟩
  exact v.toNat_lt

theorem hexValue_replicate_zero (m : ℕ) (digits : List UInt8) :
    hexValue (List.replicate m (chr '0') ++ digits) = hexValue digits := by
  induction m with
  | zero => rfl
  | succ m ih =>
      rw [← ih, List.replicate_succ, List.cons_append, ← foldl_eq_hexValue, ← foldl_eq_hexValue]
      rfl

/-- The digits of a number of the file. -/
theorem print016llx_eq (v : UInt64) :
    ∃ d digits, print016llx v = bytes "0x" ++ d :: digits ∧ (digits.length = 15) ∧
      (∀ c ∈ d :: digits, isxdigit c = true) ∧ hexValue (d :: digits) = v.toNat := by
  obtain ⟨hpos, hle⟩ := printLx_length v
  have hdigits : ∀ c ∈ List.replicate (16 - (printLx v).length) (chr '0') ++ printLx v,
      isxdigit c = true := by
    intro c hc
    rcases List.mem_append.mp hc with hc | hc
    · rw [List.eq_of_mem_replicate hc]
      decide
    · exact printLx_isxdigit v c hc
  have hlength : (List.replicate (16 - (printLx v).length) (chr '0') ++ printLx v).length = 16 := by
    rw [List.length_append, List.length_replicate]
    omega
  have hvalue : hexValue (List.replicate (16 - (printLx v).length) (chr '0') ++ printLx v) =
      v.toNat := by
    rw [hexValue_replicate_zero]
    exact (toDigits_hexValue v.toNat).2
  rw [print016llx]
  generalize List.replicate (16 - (printLx v).length) (chr '0') ++ printLx v = l at *
  rcases l with _ | ⟨d, digits⟩
  · cases hlength
  · exact ⟨d, digits, rfl, Nat.succ.inj hlength, hdigits, hvalue⟩

/-- What `strtoll` reads of a number of the file. -/
theorem strtollHex_print016llx (v : UInt64) :
    strtollHex (print016llx v) = min (2 ^ 63 - 1) (v.toNat : ℤ) := by
  obtain ⟨d, digits, hprint, -, hdigits, hvalue⟩ := print016llx_eq v
  have hsign : strtollSign ((bytes "0x" ++ d :: digits).dropWhile isspace) =
      (false, bytes "0x" ++ d :: digits) := rfl
  have hbase : strtollPrefix (bytes "0x" ++ d :: digits) = d :: digits :=
    if_pos ⟨rfl, .inl rfl, hdigits d List.mem_cons_self⟩
  rw [strtollHex, hprint, hsign]
  simp only [hbase, List.takeWhile_eq_self_iff.mpr hdigits, hvalue, Bool.false_eq_true, if_false]

theorem print016llx_text (v : UInt64) {c : UInt8} (hc : c ∈ print016llx v) :
    c = chr 'x' ∨ isxdigit c = true := by
  obtain ⟨d, digits, hprint, -, hdigits, -⟩ := print016llx_eq v
  rw [hprint] at hc
  rcases List.mem_append.mp hc with hc | hc
  · have hcases : c = chr '0' ∨ c = chr 'x' := by simpa [bytes, chr] using hc
    rcases hcases with rfl | rfl
    · exact .inr (by decide)
    · exact .inl rfl
  · exact .inr (hdigits c hc)

theorem print016llx_length (v : UInt64) : (print016llx v).length = 18 := by
  obtain ⟨d, digits, hprint, hlength, -⟩ := print016llx_eq v
  rw [hprint, List.length_append, List.length_cons, hlength]
  rfl

/-- The line fits the buffer. -/
def Resource.textLine (r : Resource) {n : ℕ} (hn : 57 ≤ n) : TextLine n where
  body := r.body
  crlf := false
  text := fun c hc => by
    have hcases : c = chr ' ' ∨ c = chr 'x' ∨ isxdigit c = true := by
      simp only [Resource.body, List.mem_append, List.mem_cons] at hc
      rcases hc with hc | rfl | hc | rfl | hc
      · exact .inr (print016llx_text _ hc)
      · exact .inl rfl
      · exact .inr (print016llx_text _ hc)
      · exact .inl rfl
      · exact .inr (print016llx_text _ hc)
    refine ⟨?_, ?_, ?_⟩ <;>
    · rintro rfl
      revert hcases
      decide
  short := by
    have hstart := print016llx_length r.start
    have hstop := print016llx_length r.stop
    have hflags := print016llx_length r.flags
    simp only [Resource.body, terminator, List.length_append, List.length_cons, List.length_nil,
      Bool.false_eq_true, if_false]
    omega

theorem lineOf_sysfs {n : ℕ} (hn : 57 ≤ n) (resources : List Resource) (barno : ℕ) :
    lineOf n (resources.flatMap Resource.line) barno =
      (resources.map Resource.line).getD barno [] := by
  have htext : resources.flatMap Resource.line =
      textOf (resources.map fun r => r.textLine hn) := by
    rw [textOf, List.flatMap_map]
    rfl
  rw [lineOf, htext, pieces_textOf, List.map_map]
  refine Block.untilNul_eq_self fun hmem => ?_
  rcases hr : resources[barno]? with _ | r
  · simp [hr] at hmem
  · refine (r.textLine hn).noNul ?_
    simpa [hr] using hmem

/-- The number before the first blank of a line. -/
theorem takeWhile_line (r : Resource) :
    r.line.takeWhile (· != chr ' ') = print016llx r.start := by
  have hbefore : ∀ c ∈ print016llx r.start, (c != chr ' ') = true := by
    intro c hc
    rw [bne_iff_ne]
    rintro rfl
    have := print016llx_text _ hc
    revert this
    decide
  rw [Resource.line, Resource.body, List.append_assoc, List.takeWhile_append_of_pos hbefore,
    List.cons_append, List.takeWhile_cons_of_neg (by simp), List.append_nil]

theorem ofInt_min (v : UInt64) : UInt64.ofInt (min (2 ^ 63 - 1) (v.toNat : ℤ)) =
    if v < 2 ^ 63 then v else 2 ^ 63 - 1 := by
  have hpow : (2 ^ 63 : UInt64).toNat = 2 ^ 63 := by decide +kernel
  by_cases hv : v < 2 ^ 63
  · have hlt := UInt64.lt_iff_toNat_lt.mp hv
    rw [hpow] at hlt
    have hmod : (v.toNat : ℤ) % 2 ^ 64 = v.toNat := Int.emod_eq_of_lt (by omega) (by omega)
    rw [if_pos hv, min_eq_right (by omega), UInt64.ofInt, hmod, Int.toNat_natCast,
      UInt64.ofNat_toNat]
  · have hle := not_lt.mp fun hlt => hv (UInt64.lt_iff_toNat_lt.mpr hlt)
    rw [hpow] at hle
    rw [if_neg hv, min_eq_left (by omega)]
    decide +kernel

theorem getPciBarAddr_lines {n : ℕ} (hn : 57 ≤ n) (resources : List Resource) (barno : ℕ) :
    getPciBarAddr (n + 1) (some (resources.flatMap Resource.line)) barno = some
      (match resources[barno]? with
      | none => 0
      | some r => if r.start < 2 ^ 63 then r.start else 2 ^ 63 - 1) := by
  rw [getPciBarAddr_eq (by omega), lineOf_sysfs hn]
  rcases hr : resources[barno]? with _ | r
  · simp [hr]
  · have hblank : chr ' ' ∈ r.line := by simp [Resource.line, Resource.body]
    have hline : (resources.map Resource.line).getD barno [] = r.line := by simp [hr]
    rw [hline, if_pos hblank, takeWhile_line, strtollHex_print016llx, ofInt_min]

/-- **A file of the kernel**: both programs find the address at which the resource
starts, as far as it fits a `long long`, and `NULL` when there is no such resource. -/
theorem getPciBarAddr_sysfs (resources : List Resource) (barno : ℕ) :
    let addr : UInt64 := match resources[barno]? with
      | none => 0
      | some r => if r.start < 2 ^ 63 then r.start else 2 ^ 63 - 1
    Can.getPciBarAddr (some (resources.flatMap Resource.line)) barno = some addr ∧
      Gpio.getPciBarAddr (some (resources.flatMap Resource.line)) barno = some addr :=
  ⟨getPciBarAddr_lines (by decide) resources barno, getPciBarAddr_lines (by decide) resources barno⟩

end PciResource

end CodeSnippet
