/-
CodeSnippet/RsaDemo.lean

The way of an encrypted block through the programs of src/openssl_demo:
encrypt.c writes it to a file, decrypt.c reads the file and hands it to
`RSA_public_decrypt`, encrypt_decrypt.c hands it over at once.  All three take
the block for a C string.

OpenSSL is not part of the repository.  `K` is the type of its RSA keys, and
`RSA_private_encrypt` is a parameter, which answers a key and a text with a
block, or with an error.

Main results:
  * `bufferString_iff` — when a block in a buffer is the C string in the buffer.
  * `survives_iff` — when the programs pass on the block that they were given.
-/
import CodeSnippet.CString

namespace CodeSnippet

open Memory

variable {K : Type}

def bufSize : ℕ := 1024

/-- `char str_en[BUF_SIZE] = {0}`. -/
def rsaBuffer : Block UInt8 := ⟨bufSize, fun _ => 0⟩

/-! ### The programs -/

/-- `main` of encrypt.c, for the string to encrypt and the key that
`create_rsa_from_file` returns: what is written to the key file, if anything. -/
def encryptMain (rsaPrivateEncrypt : K → List UInt8 → Option (List UInt8))
    (str : Option (List UInt8)) (rsaPriv : Option K) : Option (Option (List UInt8)) :=
  match str, rsaPriv with
  | some str, some key =>
      match rsaPrivateEncrypt key str with
      | some block => do
          let strEn ← rsaBuffer.receive block
          let written ← strEn.cstr 0
          some (some written)
      | none => some none
  | _, _ => some none

/-- `main` of decrypt.c, for the contents of the file: what is passed to
`RSA_public_decrypt`, if anything.  `fread` reads one item of the size of the
buffer, or as much of it as there is. -/
def decryptMain (encFile : Option (List UInt8)) (rsaPub : Option K) :
    Option (Option (List UInt8)) :=
  match encFile with
  | some bytes => do
      let strEn ← rsaBuffer.receive (bytes.take bufSize)
      -- the string is printed before the key is read
      let passed ← strEn.cstr 0
      match rsaPub with
      | some _ => some (some passed)
      | none => some none
  | none => some none

def helloWorld : List UInt8 := "hello world".toUTF8.toList

/-- `main` of encrypt_decrypt.c: what is passed to `RSA_public_decrypt`, if
anything. -/
def encryptDecryptMain (rsaPrivateEncrypt : K → List UInt8 → Option (List UInt8))
    (rsaPriv rsaPub : Option K) : Option (Option (List UInt8)) :=
  match rsaPriv, rsaPub with
  | some key, some _ =>
      match rsaPrivateEncrypt key helloWorld with
      | some block => do
          let strEn ← rsaBuffer.receive block
          let passed ← strEn.cstr 0
          some (some passed)
      | none => some none
  | _, _ => some none

/-! ### Blocks in buffers -/

/-- The C string in a buffer that a block was stored in. -/
def bufferString (block : List UInt8) : Option (List UInt8) :=
  (rsaBuffer.receive block).bind fun strEn => strEn.cstr 0

/-- What a C string in a buffer can be. -/
def FitsBuffer (block : List UInt8) : Prop := 0 ∉ block ∧ block.length < bufSize

theorem bufferString_iff {block : List UInt8} :
    bufferString block = some block ↔ FitsBuffer block := by
  by_cases hlength : block.length ≤ rsaBuffer.size
  · rw [bufferString, Block.receive_eq hlength, Option.bind_some, Block.cstr_eq_some_iff]
    exact Block.spells_overlay_iff
  · have hnone : rsaBuffer.receive block = none := if_neg hlength
    rw [bufferString, hnone]
    constructor
    · rintro ⟨⟩
    · intro h
      exact absurd h.2.le hlength

theorem bufferString_fits {block written : List UInt8} (h : bufferString block = some written) :
    FitsBuffer written := by
  obtain ⟨strEn, hreceive, hcstr⟩ := Option.bind_eq_some_iff.mp h
  have hspells := Block.cstr_eq_some_iff.mp hcstr
  have hsize : strEn.size = bufSize := by
    obtain ⟨-, heq⟩ := Option.ite_none_right_eq_some.mp hreceive
    rw [← Option.some_inj.mp heq]
    rfl
  have hroom := hspells.room
  rw [hsize, Nat.zero_add] at hroom
  exact ⟨hspells.noNul, hroom⟩

/-- What a program does with the string in its buffer. -/
theorem receive_bind_cstr (block : List UInt8) :
    ((rsaBuffer.receive block).bind fun strEn =>
      (strEn.cstr 0).bind fun passed => some (some passed)) = (bufferString block).map some := by
  rw [bufferString, Option.map_bind]
  congr 1
  funext strEn
  exact (Option.map_eq_bind).symm

theorem encryptMain_eq {rsaPrivateEncrypt : K → List UInt8 → Option (List UInt8)} {key : K}
    {str block : List UInt8} (h : rsaPrivateEncrypt key str = some block) :
    encryptMain rsaPrivateEncrypt (some str) (some key) = (bufferString block).map some := by
  simp only [encryptMain, h]
  exact receive_bind_cstr block

theorem encryptDecryptMain_eq {rsaPrivateEncrypt : K → List UInt8 → Option (List UInt8)}
    {key : K} {block : List UInt8} (h : rsaPrivateEncrypt key helloWorld = some block) (pub : K) :
    encryptDecryptMain rsaPrivateEncrypt (some key) (some pub) =
      (bufferString block).map some := by
  simp only [encryptDecryptMain, h]
  exact receive_bind_cstr block

/-- A file that can be written is read back. -/
theorem decryptMain_eq {bytes : List UInt8} (h : FitsBuffer bytes) (pub : K) :
    decryptMain (some bytes) (some pub) = some (some bytes) := by
  have hpassed := receive_bind_cstr bytes
  rw [bufferString_iff.mpr h] at hpassed
  -- the file is shorter than the buffer, so `fread` stores all of it
  rw [decryptMain, List.take_of_length_le h.2.le]
  exact hpassed

/-! ### The trip -/

/-- decrypt.c, after encrypt.c, and encrypt_decrypt.c pass on the blocks that
the programs were given: `block` for the string of encrypt.c, `block'` for that
of encrypt_decrypt.c. -/
structure Survives (rsaPrivateEncrypt : K → List UInt8 → Option (List UInt8)) (priv priv' pub : K)
    (str block block' : List UInt8) : Prop where
  file : ∃ written, encryptMain rsaPrivateEncrypt (some str) (some priv) = some (some written) ∧
    decryptMain (some written) (some pub) = some (some block)
  direct : encryptDecryptMain rsaPrivateEncrypt (some priv') (some pub) = some (some block')

/-- **The blocks survive** exactly when they hold no zero byte and are shorter
than the buffers. -/
theorem survives_iff (rsaPrivateEncrypt : K → List UInt8 → Option (List UInt8)) (priv priv' pub : K)
    (str block block' : List UInt8) (h : rsaPrivateEncrypt priv str = some block)
    (h' : rsaPrivateEncrypt priv' helloWorld = some block') :
    Survives rsaPrivateEncrypt priv priv' pub str block block' ↔
      FitsBuffer block ∧ FitsBuffer block' := by
  constructor
  · rintro ⟨⟨written, hwritten, hpassed⟩, hdirect⟩
    rw [encryptMain_eq h] at hwritten
    rw [encryptDecryptMain_eq h'] at hdirect
    have hstring : bufferString block = some written := by simpa using hwritten
    have hstring' : bufferString block' = some block' := by simpa using hdirect
    -- what encrypt.c could write, decrypt.c passes on
    have hsame : written = block := by
      rw [decryptMain_eq (bufferString_fits hstring) pub] at hpassed
      exact Option.some_inj.mp (Option.some_inj.mp hpassed)
    rw [hsame] at hstring
    exact ⟨bufferString_iff.mp hstring, bufferString_iff.mp hstring'⟩
  · rintro ⟨hfits, hfits'⟩
    refine ⟨⟨block, ?_, decryptMain_eq hfits pub⟩, ?_⟩
    · rw [encryptMain_eq h, bufferString_iff.mpr hfits]
      rfl
    · rw [encryptDecryptMain_eq h', bufferString_iff.mpr hfits']
      rfl

/-- `survives_iff` for a block of 128 bytes. -/
theorem survives_iff_ones : Survives (fun _ _ => some (List.replicate 128 1)) () () () [72, 105]
    (List.replicate 128 1) (List.replicate 128 1) := by
  have hfits : FitsBuffer (List.replicate 128 1) :=
    ⟨by simp, by simp [bufSize]⟩
  exact (survives_iff _ _ _ _ _ _ _ rfl rfl).mpr ⟨hfits, hfits⟩

/-- A block that starts with a zero byte is lost. -/
theorem not_survives : ¬ ∀ (rsaPrivateEncrypt : Unit → List UInt8 → Option (List UInt8))
    (str block block' : List UInt8), rsaPrivateEncrypt () str = some block →
    rsaPrivateEncrypt () helloWorld = some block' →
    Survives rsaPrivateEncrypt () () () str block block' := by
  intro h
  have hsurvives := h (fun _ _ => some (0 :: List.replicate 127 1)) [72, 105] _ _ rfl rfl
  have hdirect := hsurvives.direct
  rw [encryptDecryptMain_eq rfl] at hdirect
  have hstring : bufferString (0 :: List.replicate 127 1) = some (0 :: List.replicate 127 1) := by
    simpa using hdirect
  exact (bufferString_iff.mp hstring).1 List.mem_cons_self

end CodeSnippet
