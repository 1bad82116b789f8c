/-
CodeSnippet/SmcCommand.lean

The command line of src/kernel_module/smc/utils/smc.c: from the arguments to the
command block that is written to the device.

An argument in hexadecimal may start with "0x".  `xtou64` takes these two
characters for digits, the `x` for a 9, so that the prefix only does no harm
where it is shifted out of the word; and there is room for eight arguments.

Main results:
  * `toNat_xtou64` — the number that `xtou64` makes of an argument.
  * `main_hexArgs` — the command block.
  * `meansWhatItSays_iff` — when it is the one that the arguments spell.
-/
import CodeSnippet.ArrayList
import CodeSnippet.PostfixLine

namespace CodeSnippet

open Memory

namespace Smc

/-! ### Source -/

/-- An element of `argv`, up to its NUL byte. -/
abbrev Arg := List UInt8

/-- `(uint64_t) v` for `char v = (c & 0xF) + (c >> 6) | ((c >> 3) & 0x8)` -/
def nibble (c : UInt8) : UInt64 :=
  let c : Int32 := c.toInt8.toInt32
  let low : Int32 := c &&& 0xF
  let v : Int32 := (low + (c >>> 6 : Int32)) ||| ((c >>> 3 : Int32) &&& 0x8)
  v.toInt8.toInt64.toUInt64

def xtou64 (str : Arg) : UInt64 := str.foldl (fun res c => (res <<< 4) ||| nibble c) 0

/-- `atol`: the limits of `long` stand for what does not fit. -/
def atol (str : Arg) : ℤ := max (-2 ^ 63) (min (2 ^ 63 - 1) (atoi str))

/-- An option as a call of `getopt` reports it. -/
inductive Opt
  | letter (c : UInt8)
  | withArg (c : UInt8) (optarg : Arg)
  /-- `'?'` -/
  | unknown (optopt : UInt8)

/-- The options that one element of `argv` makes under `"hDd:"`, and whether the
next element is the argument of the last one. -/
def cluster : List UInt8 → List Opt × Bool
  | [] => ([], false)
  | c :: cs =>
      if c = chr 'd' then
        match cs with
        | [] => ([], true)
        | _ :: _ => ([.withArg c cs], false)
      else
        let (opts, next) := cluster cs
        ((if c = chr 'h' ∨ c = chr 'D' then .letter c else .unknown c) :: opts, next)

/-- The results of the calls of `getopt`, and the elements from `optind` on. -/
def getopt : List Arg → List Opt × List Arg
  | [] => ([], [])
  | arg :: rest =>
      match arg with
      | 45 :: c :: cs => -- a minus sign with something behind it
          if c = chr '-' ∧ cs = [] then ([], rest)
          else
            let (opts, next) := cluster (c :: cs)
            if next then
              match rest with
              | [] => (opts ++ [.unknown (chr 'd')], [])
              | optarg :: rest =>
                  let (opts', operands) := getopt rest
                  (opts ++ .withArg (chr 'd') optarg :: opts', operands)
            else
              let (opts', operands) := getopt rest
              (opts ++ opts', operands)
      | arg =>
          let (opts, operands) := getopt rest
          (opts, arg :: operands)

/-- The local variables that options change. -/
structure Settings where
  useHex : Bool
  smcHelperPath : Arg

/-- The `switch` over all options.  `-h` and `'?'` end the program. -/
def handleOptions : List Opt → Settings → Except ℤ Settings
  | [], s => .ok s
  | .letter c :: opts, s =>
      if c = chr 'h' then .error 0 else handleOptions opts { s with useHex := false }
  | .withArg _ optarg :: opts, s => handleOptions opts { s with smcHelperPath := optarg }
  | .unknown _ :: _, _ => .error 1

/-- `for (index = optind; index < argc; index++) cmd[index - optind] = …`, where
`i` is `index - optind`. -/
def storeArgs (useHex : Bool) : List Arg → ℕ → Block UInt64 → Option (Block UInt64)
  | [], _, cmd => some cmd
  | arg :: args, i, cmd => do
      let cmd ← cmd.store i (if useHex then xtou64 arg else UInt64.ofInt (atol arg))
      storeArgs useHex args (i + 1) cmd

/-- How far `main` comes: it returns, or writes a command to the device. -/
inductive Outcome
  | exit (ret : ℤ)
  | write (smcHelperPath : Arg) (cmd : Block UInt64)

/-- `main`, up to the first `fwrite`, with the elements of `argv` behind the first. -/
def main (args : List Arg) : Option Outcome :=
  let (opts, operands) := getopt args
  match handleOptions opts ⟨true, bytes "/dev/smc-helper"⟩ with
  | .error ret => some (.exit ret)
  | .ok s =>
      if operands = [] then some (.exit 2)
      else do
        let cmd ← storeArgs s.useHex operands 0 ⟨8, fun _ => 0⟩
        some (.write s.smcHelperPath cmd)

/-! ### Hexadecimal arguments -/

def isxdigit (c : UInt8) : Bool :=
  isdigit c || (chr 'a' ≤ c && c ≤ chr 'f') || (chr 'A' ≤ c && c ≤ chr 'F')

/-- The value of a digit. -/
def digitValue (c : UInt8) : ℕ :=
  if isdigit c then c.toNat - 48
  else if chr 'a' ≤ c then c.toNat - 87
  else c.toNat - 55

/-- An argument in the documented form. -/
structure HexArg where
  pre : Bool
  digits : List UInt8
  ne_nil : digits ≠ []
  isxdigit : ∀ c ∈ digits, isxdigit c = true

namespace HexArg

def text (a : HexArg) : Arg := (if a.pre then bytes "0x" else []) ++ a.digits

/-- The number that the argument stands for. -/
def value (a : HexArg) : ℕ := a.digits.foldl (fun n c => 16 * n + digitValue c) 0

end HexArg

/-- `main` writes the command block that holds the values of the arguments, and
zeros behind them. -/
def MeansWhatItSays (args : List HexArg) : Prop :=
  ∃ path cmd, main (args.map HexArg.text) = some (.write path cmd) ∧
    cmd.cells 0 8 =
      args.map (fun a => UInt64.ofNat a.value) ++ List.replicate (8 - args.length) 0

/-! ### Digits -/

theorem nibble_digit {c : UInt8} (h : isxdigit c = true) :
    (nibble c).toNat = digitValue c ∧ digitValue c < 16 := by
  have hall : (List.range 256).all (fun n =>
      let c := UInt8.ofNat n
      !isxdigit c || ((nibble c).toNat == digitValue c && decide (digitValue c < 16))) = true := by
    decide +kernel
  have hc := List.all_eq_true.mp hall c.toNat (List.mem_range.mpr c.toNat_lt)
  simp only [UInt8.ofNat_toNat, h, Bool.not_true, Bool.false_or, Bool.and_eq_true, beq_iff_eq,
    decide_eq_true_iff] at hc
  exact hc

/-- One round of `xtou64`, in which the upper four bits are lost. -/
theorem toNat_round (res : UInt64) {v : UInt64} (hv : v.toNat < 16) :
    ((res <<< 4) ||| v).toNat = (16 * res.toNat + v.toNat) % 2 ^ 64 := by
  have hshift : (res <<< 4).toNat = 2 ^ 4 * (res.toNat % 2 ^ 60) := by
    rw [UInt64.toNat_shiftLeft, Nat.shiftLeft_eq]
    show res.toNat * 2 ^ 4 % (2 ^ 60 * 2 ^ 4) = _
    rw [Nat.mul_mod_mul_right, Nat.mul_comm]
  rw [UInt64.toNat_or, hshift, ← Nat.two_pow_add_eq_or_of_lt hv]
  omega

theorem toNat_rounds {digits : List UInt8} (hdigits : ∀ c ∈ digits, isxdigit c = true)
    {res : UInt64} {n : ℕ} (h : res.toNat = n % 2 ^ 64) :
    (digits.foldl (fun (res : UInt64) c => (res <<< 4) ||| nibble c) res).toNat =
      digits.foldl (fun n c => 16 * n + digitValue c) n % 2 ^ 64 := by
  induction digits generalizing res n with
  | nil => exact h
  | cons c digits ih =>
      obtain ⟨hc, hdigits⟩ := List.forall_mem_cons.mp hdigits
      obtain ⟨hvalue, hlt⟩ := nibble_digit hc
      rw [List.foldl_cons, List.foldl_cons]
      apply ih hdigits
      rw [toNat_round res (hvalue ▸ hlt), h, hvalue]
      omega

/-- Digits in front of others. -/
theorem foldl_digitValue (digits : List UInt8) (n : ℕ) :
    digits.foldl (fun n c => 16 * n + digitValue c) n =
      n * 16 ^ digits.length + digits.foldl (fun n c => 16 * n + digitValue c) 0 := by
  induction digits generalizing n with
  | nil => simp
  | cons c digits ih =>
      rw [List.foldl_cons, List.foldl_cons, ih, ih (16 * 0 + _), List.length_cons]
      ring

/-- **What `xtou64` makes of an argument**: the prefix counts as the number 9. -/
theorem toNat_xtou64 (a : HexArg) :
    (xtou64 a.text).toNat =
      ((if a.pre then 9 * 16 ^ a.digits.length else 0) + a.value) % 2 ^ 64 := by
  rw [HexArg.text, HexArg.value]
  by_cases hpre : a.pre = true
  · have hnine : (9 : UInt64).toNat = 9 % 2 ^ 64 := rfl
    rw [if_pos hpre, if_pos hpre, ← foldl_digitValue a.digits 9]
    exact toNat_rounds a.isxdigit hnine
  · have hzero : (0 : UInt64).toNat = 0 % 2 ^ 64 := rfl
    rw [if_neg hpre, if_neg hpre, List.nil_append, Nat.zero_add]
    exact toNat_rounds a.isxdigit hzero

/-- The prefix is shifted out by 16 digits. -/
theorem dvd_prefix_iff (n : ℕ) : 2 ^ 64 ∣ 9 * 16 ^ n ↔ 16 ≤ n := by
  have hpow : (16 : ℕ) ^ n = 2 ^ (4 * n) := pow_mul 2 4 n ▸ rfl
  have hcoprime : Nat.Coprime (2 ^ 64) 9 := Nat.Coprime.pow_left 64 (by decide)
  rw [hcoprime.dvd_mul_left, hpow, Nat.pow_dvd_pow_iff_le_right (by decide)]
  omega

/-- **When an argument is read as the number it stands for.** -/
theorem xtou64_text_iff (a : HexArg) :
    xtou64 a.text = UInt64.ofNat a.value ↔ (a.pre = true → 16 ≤ a.digits.length) := by
  have hofNat : (UInt64.ofNat a.value).toNat = a.value % 2 ^ 64 := UInt64.toNat_ofNat'
  rw [← UInt64.toNat_inj, toNat_xtou64, hofNat]
  by_cases hpre : a.pre = true
  · rw [if_pos hpre, forall_prop_of_true hpre, ← dvd_prefix_iff, Nat.dvd_iff_mod_eq_zero]
    generalize 9 * 16 ^ a.digits.length = k
    omega
  · rw [if_neg hpre, Nat.zero_add]
    exact iff_of_true rfl fun h => absurd h hpre

/-! ### The command block -/

theorem storeArgs_eq {args : List Arg} {i : ℕ} {cmd : Block UInt64}
    (h : i + args.length ≤ cmd.size) :
    ∃ cmd', storeArgs true args i cmd = some cmd' ∧
      cmd'.cells 0 (i + args.length) = cmd.cells 0 i ++ args.map xtou64 ∧
      ∀ j, i + args.length ≤ j → cmd'.cell j = cmd.cell j := by
  induction args generalizing i cmd with
  | nil => exact ⟨cmd, rfl, (List.append_nil _).symm, fun _ _ => rfl⟩
  | cons arg args ih =>
      rw [List.length_cons, ← Nat.add_assoc, Nat.add_right_comm] at h
      have hroom : i + 1 + args.length ≤ (cmd.set i (xtou64 arg)).size := h
      obtain ⟨cmd', hargs, hcells, hrest⟩ := ih hroom
      refine ⟨cmd', ?_, ?_, fun j hj => ?_⟩
      · rw [storeArgs, Block.store_eq (by omega)]
        exact hargs
      · rw [List.length_cons, ← Nat.add_assoc, Nat.add_right_comm, hcells, Block.cells_append,
          List.append_assoc, List.map_cons, List.singleton_append]
      · rw [List.length_cons] at hj
        rw [hrest j (by omega), Block.set_cell, if_neg (by omega)]

/-- An argument for which there is no room is stored behind the block. -/
theorem storeArgs_eq_none {args : List Arg} {i : ℕ} {cmd : Block UInt64} (hi : i ≤ cmd.size)
    (h : cmd.size < i + args.length) : storeArgs true args i cmd = none := by
  induction args generalizing i cmd with
  | nil => exact absurd hi (Nat.not_le.mpr h)
  | cons arg args ih =>
      rw [storeArgs]
      by_cases hroom : i < cmd.size
      · rw [Block.store_eq hroom]
        have hroom' : i + 1 ≤ (cmd.set i (xtou64 arg)).size := hroom
        rw [List.length_cons] at h
        exact ih hroom' (by rw [Block.set_size]; omega)
      · rw [Block.store, if_neg hroom]
        rfl

/-- Arguments that do not start with a minus sign are no options. -/
theorem getopt_operands {args : List Arg} (h : ∀ arg ∈ args, arg.head? ≠ some 45) :
    getopt args = ([], args) := by
  induction args with
  | nil => rfl
  | cons arg args ih =>
      obtain ⟨harg, hargs⟩ := List.forall_mem_cons.mp h
      have hstep : getopt (arg :: args) = ((getopt args).1, arg :: (getopt args).2) := by
        rw [getopt]
        rintro c cs rfl
        exact harg rfl
      rw [hstep, ih hargs]

theorem HexArg.head?_text (a : HexArg) : a.text.head? ≠ some 45 := by
  obtain ⟨pre, digits, hne, hdigits⟩ := a
  obtain ⟨c, cs, rfl⟩ := List.exists_cons_of_ne_nil hne
  cases pre with
  | false =>
      intro h
      obtain rfl : c = 45 := Option.some.inj h
      exact absurd (hdigits 45 (List.mem_cons_self ..)) (by decide)
  | true => exact fun h => absurd (Option.some.inj h) (by decide)

/-- **What `main` does with hexadecimal arguments.** -/
theorem main_hexArgs {args : List HexArg} (hne : args ≠ []) :
    (args.length ≤ 8 → ∃ cmd, main (args.map HexArg.text) =
        some (.write (bytes "/dev/smc-helper") cmd) ∧
      cmd.cells 0 8 =
        args.map (fun a => xtou64 a.text) ++ List.replicate (8 - args.length) 0) ∧
    (8 < args.length → main (args.map HexArg.text) = none) := by
  have hopts : getopt (args.map HexArg.text) = ([], args.map HexArg.text) := by
    apply getopt_operands
    intro arg harg
    obtain ⟨a, -, rfl⟩ := List.mem_map.mp harg
    exact a.head?_text
  have hmain : main (args.map HexArg.text) =
      storeArgs true (args.map HexArg.text) 0 ⟨8, fun _ => 0⟩ >>= fun cmd =>
        some (.write (bytes "/dev/smc-helper") cmd) := by
    rw [main, hopts]
    exact if_neg fun h => hne (List.map_eq_nil_iff.mp h)
  have hlen : (args.map HexArg.text).length = args.length := List.length_map _
  rw [hmain]
  constructor
  · intro hle
    let zeros : Block UInt64 := ⟨8, fun _ => 0⟩
    have hroom : 0 + (args.map HexArg.text).length ≤ zeros.size := by
      rw [hlen, Nat.zero_add]
      exact hle
    obtain ⟨cmd, hstore, hcells, hrest⟩ := storeArgs_eq hroom
    refine ⟨cmd, by rw [hstore]; rfl, ?_⟩
    have hsplit : 8 = args.length + (8 - args.length) := by omega
    have hzeros : cmd.cells (0 + args.length) (8 - args.length) =
        List.replicate (8 - args.length) 0 := by
      apply List.ext_getElem (by simp)
      intro k h₁ h₂
      rw [Block.cells_getElem, List.getElem_replicate]
      exact hrest _ (by rw [hlen]; omega)
    rw [hlen, Nat.zero_add, List.map_map] at hcells
    nth_rewrite 1 [hsplit]
    rw [Block.cells_add, hzeros, hcells]
    rfl
  · intro hgt
    rw [storeArgs_eq_none (Nat.zero_le _) (by rw [hlen, Nat.zero_add]; exact hgt)]
    rfl

/-- With enough room it is a matter of the single arguments. -/
theorem meansWhatItSays_of_le {args : List HexArg} (hne : args ≠ []) (hle : args.length ≤ 8) :
    MeansWhatItSays args ↔ ∀ a ∈ args, xtou64 a.text = UInt64.ofNat a.value := by
  obtain ⟨cmd, hmain, hcells⟩ := (main_hexArgs hne).1 hle
  rw [MeansWhatItSays, hmain, ← List.map_inj_left, ← List.append_left_inj, ← hcells]
  constructor
  · rintro ⟨path, cmd', hcmd, hcells'⟩
    cases hcmd
    exact hcells'
  · exact fun h => ⟨_, cmd, rfl, h⟩

/-- **When the command line means what it says.** -/
theorem meansWhatItSays_iff (args : List HexArg) (hne : args ≠ []) :
    MeansWhatItSays args ↔
      args.length ≤ 8 ∧ ∀ a ∈ args, a.pre = true → 16 ≤ a.digits.length := by
  by_cases hle : args.length ≤ 8
  · rw [meansWhatItSays_of_le hne hle, and_iff_right hle]
    exact forall₂_congr fun a _ => xtou64_text_iff a
  · rw [MeansWhatItSays, (main_hexArgs hne).2 (Nat.lt_of_not_le hle)]
    constructor
    · rintro ⟨path, cmd, hcmd, -⟩
      cases hcmd
    · exact fun h => absurd h.1 hle

/-- The argument of the README: "0x84000000". -/
def psciVersion : HexArg where
  pre := true
  digits := bytes "84000000"
  ne_nil := by decide
  isxdigit := List.all_eq_true.mp rfl

/-- The same without the prefix. -/
theorem meansWhatItSays_iff_noPrefix :
    MeansWhatItSays [{ psciVersion with pre := false }] ↔
      1 ≤ 8 ∧ ∀ a ∈ [{ psciVersion with pre := false }], a.pre = true → 16 ≤ a.digits.length :=
  meansWhatItSays_iff [{ psciVersion with pre := false }] (List.cons_ne_nil _ _)

/-- The argument of the README is read as 0x984000000, and nine arguments are
too many for the block. -/
theorem not_meansWhatItSays :
    ¬ (∀ args : List HexArg, args ≠ [] → MeansWhatItSays args) ∧
    psciVersion.text = bytes "0x84000000" ∧ xtou64 psciVersion.text = 0x984000000 ∧
    main (List.replicate 9 (bytes "1")) = none := by
  refine ⟨fun hevery => ?_, rfl, rfl, rfl⟩
  have hmeans := hevery [psciVersion] (List.cons_ne_nil _ _)
  rw [meansWhatItSays_of_le (List.cons_ne_nil _ _) (by decide)] at hmeans
  exact absurd (hmeans psciVersion (List.mem_singleton_self _)) (by decide)

end Smc

end CodeSnippet
