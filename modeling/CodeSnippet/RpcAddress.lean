/-
CodeSnippet/RpcAddress.lean

The addresses of src/rpc_intf/intf/rpc_intf.c, on a machine that keeps the lowest
byte of a number first.  A `struct sockaddr_in` is laid over the 16 bytes of a
`struct sockaddr`; a host is a number, and its text is that of `inet_ntoa` and
`inet_addr`.  The server prints the address that a request comes from and sends its
answer there; the length of that address, which `recvfrom` takes and returns, is
never set by the server.

Main results:
  * `rpcAddr_roundTrip` — packing and unpacking, in both directions.
  * `sockAtoh_sockHtoa` — the text of a host.
  * `rpcAddrUnpack_recvfrom` — the address that `recvfrom` stores.
  * `receiveLine_recvfrom` — what the server prints, and when it is right.
-/
import CodeSnippet.ByteOrder
import CodeSnippet.Decimal
import CodeSnippet.PciResource
import CodeSnippet.RpcMsg

namespace CodeSnippet

open ByteOrder Smc

namespace RpcAddress

/-! ### Source -/

def htons (x : UInt16) : UInt16 := UInt16.ofNat (swapped 2 x.toNat)

def htonl (x : UInt32) : UInt32 := UInt32.ofNat (swapped 4 x.toNat)

def ntohs : UInt16 → UInt16 := htons

def ntohl : UInt32 → UInt32 := htonl

/-- `AF_INET` -/
def afInet : UInt16 := 2

/-- The bytes of `struct sockaddr`, and its length. -/
structure RpcAddr where
  addr : List UInt8
  size : addr.length = 16
  len : UInt32

/-- Some of the bytes are written. -/
def RpcAddr.store (a : RpcAddr) (off : ℕ) (l : List UInt8) (h : off + l.length ≤ 16) : RpcAddr where
  addr := a.addr.take off ++ l ++ a.addr.drop (off + l.length)
  size := by
    simp only [List.length_append, List.length_take, List.length_drop, a.size]
    omega
  len := a.len

/-- `k` bytes of `struct sockaddr_in` as a number. -/
def RpcAddr.load (a : RpcAddr) (off k : ℕ) : ℕ := ofLittleEndian ((a.addr.drop off).take k)

/-- The return code and the address. -/
def rpcAddrPack (host : UInt32) (port : UInt16) : ℤ × RpcAddr :=
  let rpcaddr : RpcAddr := ⟨List.replicate 16 0, List.length_replicate, 0⟩
  let rpcaddr := rpcaddr.store 0 (littleEndian 2 afInet.toNat) (by simp)
  let rpcaddr := rpcaddr.store 4 (littleEndian 4 (htonl host).toNat) (by simp)
  let rpcaddr := rpcaddr.store 2 (littleEndian 2 (htons port).toNat) (by simp)
  (eOk, { rpcaddr with len := 16 })

/-- The return code, the host and the port. -/
def rpcAddrUnpack (rpcAddr : RpcAddr) : ℤ × UInt32 × UInt16 :=
  (eOk, ntohl (UInt32.ofNat (rpcAddr.load 4 4)), ntohs (UInt16.ofNat (rpcAddr.load 2 2)))

/-- The structure with as many bytes of the sender's address as its length says. -/
def RpcAddr.stored (src sender : RpcAddr) : RpcAddr where
  addr := sender.addr.take src.len.toNat ++ src.addr.drop src.len.toNat
  size := by
    simp only [List.length_append, List.length_take, List.length_drop, src.size, sender.size]
    omega
  len := sender.len

/-- The address that `recvfrom` leaves; a length that is negative as an `int` is
refused. -/
def RpcAddr.recvfrom (src sender : RpcAddr) : Option RpcAddr :=
  if src.len.toNat < 2 ^ 31 then some (src.stored sender) else none

/-- `AF_UNSPEC` -/
def afUnspec : UInt16 := 0

/-- The host and the port that `sendto` sends to.  It refuses a length that is none of
an address, a family that is not that of the socket, and port 0. -/
def RpcAddr.sendto (dst : RpcAddr) : Option (UInt32 × UInt16) :=
  if dst.len.toNat < 16 ∨ 128 < dst.len.toNat then none
  else if dst.load 0 2 ≠ afInet.toNat ∧ dst.load 0 2 ≠ afUnspec.toNat then none
  else if (rpcAddrUnpack dst).2.2 = 0 then none
  else some (rpcAddrUnpack dst).2

/-- The four bytes of the address in memory, in decimal. -/
def inetNtoa (sAddr : UInt32) : List UInt8 :=
  List.intercalate [chr '.'] ((littleEndian 4 sAddr.toNat).map fun b => numeral b.toNat)

def sockHtoa (host : UInt32) : List UInt8 := inetNtoa (htonl host)

def isoctal (c : UInt8) : Bool := chr '0' ≤ c && c ≤ chr '7'

/-- `strtoul(cp, &endp, 0)` at a digit: the number, whatever its size, and what is
behind it. -/
def strtoul (cp : List UInt8) : ℕ × List UInt8 :=
  let hex := PciResource.strtollPrefix cp
  if hex ≠ cp then (hexValue (hex.takeWhile isxdigit), hex.dropWhile isxdigit)
  else if cp.head? = some (chr '0') then
    (Nat.ofDigits 8 ((cp.takeWhile isoctal).map digitValue).reverse, cp.dropWhile isoctal)
  else ((decimal cp).toNat, cp.dropWhile isdigit)

/-- The number of a host, of which `res` are the first bytes and `val` is the rest. -/
def hostNumber (res : List ℕ) (val : ℕ) : ℕ :=
  Nat.ofDigits 256 res.reverse * 256 ^ (4 - res.length) + val

/-- What `inet_aton` reads of a text, with `dots` of the three dots to come. -/
def inetLoop : ℕ → List ℕ → List UInt8 → Option ℕ
  | dots, res, cp =>
      if cp.head?.any isdigit = false then none
      else
        let (val, cp) := strtoul cp
        if val > 0xffffffff then none
        else if cp.head? = some (chr '.') then
          match dots with
          | 0 => none
          | dots + 1 => if val > 0xff then none else inetLoop dots (res ++ [val]) cp.tail
        else if cp.head?.all isspace = false then none
        else if val ≥ 256 ^ (4 - res.length) then none
        else some (hostNumber res val)

/-- `inet_addr`; a text that is none gives `INADDR_NONE`. -/
def inetAddr (cp : List UInt8) : UInt32 :=
  match inetLoop 3 [] cp with
  | none => 0xffffffff
  | some host => htonl (UInt32.ofNat host)

def sockAtoh (hostName : List UInt8) : UInt32 := ntohl (inetAddr hostName)

/-- `Receive message from %s:%d`, with a text and a number. -/
def receiveText (host : List UInt8) (port : ℕ) : List UInt8 :=
  bytes "Receive message from " ++ host ++ bytes ":" ++ numeral port ++ bytes "\n"

/-- What the server prints for a request. -/
def receiveLine (clientaddr : RpcAddr) : List UInt8 :=
  let (_, host, port) := rpcAddrUnpack clientaddr
  receiveText (sockHtoa host) (htons port).toNat

/-! ### Byte order -/

theorem toNat_htons (x : UInt16) : (htons x).toNat = swapped 2 x.toNat :=
  UInt16.toNat_ofNat_of_lt (swapped_lt 2 x.toNat)

theorem toNat_htonl (x : UInt32) : (htonl x).toNat = swapped 4 x.toNat :=
  UInt32.toNat_ofNat_of_lt (swapped_lt 4 x.toNat)

@[simp] theorem ntohs_htons (x : UInt16) : ntohs (htons x) = x := by
  apply UInt16.toNat_inj.mp
  rw [ntohs, toNat_htons, toNat_htons, swapped_swapped x.toNat_lt]

@[simp] theorem ntohl_htonl (x : UInt32) : ntohl (htonl x) = x := by
  apply UInt32.toNat_inj.mp
  rw [ntohl, toNat_htonl, toNat_htonl, swapped_swapped x.toNat_lt]

/-- In memory the highest byte comes first. -/
theorem littleEndian_htons (x : UInt16) :
    littleEndian 2 (htons x).toNat = (littleEndian 2 x.toNat).reverse := by
  rw [toNat_htons, littleEndian_swapped]

theorem littleEndian_htonl (x : UInt32) :
    littleEndian 4 (htonl x).toNat = (littleEndian 4 x.toNat).reverse := by
  rw [toNat_htonl, littleEndian_swapped]

/-! ### Packing -/

theorem RpcAddr.ext {a b : RpcAddr} (haddr : a.addr = b.addr) (hlen : a.len = b.len) : a = b := by
  obtain ⟨addr, hsize, len⟩ := a
  obtain ⟨addr', hsize', len'⟩ := b
  obtain rfl : addr = addr' := haddr
  obtain rfl : len = len' := hlen
  rfl

/-- The bytes of a packed address. -/
theorem rpcAddrPack_addr (host : UInt32) (port : UInt16) :
    (rpcAddrPack host port).2.addr = [2, 0] ++ (littleEndian 2 port.toNat).reverse ++
      (littleEndian 4 host.toNat).reverse ++ List.replicate 8 0 := by
  rw [← littleEndian_htons, ← littleEndian_htonl]
  rfl

/-- The address family is `AF_INET`, what no field covers is zero, and the length is
that of the structure. -/
structure RpcAddr.WellFormed (a : RpcAddr) : Prop where
  family : a.addr.take 2 = [2, 0]
  zero : a.addr.drop 8 = List.replicate 8 0
  len : a.len = 16

theorem rpcAddrUnpack_pack (host : UInt32) (port : UInt16) :
    rpcAddrUnpack (rpcAddrPack host port).2 = (eOk, host, port) := by
  have hport : (rpcAddrPack host port).2.load 2 2 = (htons port).toNat := by
    rw [RpcAddr.load, rpcAddrPack_addr, ← littleEndian_htons]
    exact (ofLittleEndian_littleEndian 2 _).trans (Nat.mod_eq_of_lt (htons port).toNat_lt)
  have hhost : (rpcAddrPack host port).2.load 4 4 = (htonl host).toNat := by
    rw [RpcAddr.load, rpcAddrPack_addr, ← littleEndian_htonl]
    exact (ofLittleEndian_littleEndian 4 _).trans (Nat.mod_eq_of_lt (htonl host).toNat_lt)
  rw [rpcAddrUnpack, hport, hhost, UInt16.ofNat_toNat, UInt32.ofNat_toNat, ntohs_htons,
    ntohl_htonl]

/-- What is packed again of an address. -/
theorem rpcAddrPack_unpack_addr (a : RpcAddr) :
    (rpcAddrPack (rpcAddrUnpack a).2.1 (rpcAddrUnpack a).2.2).2.addr =
      [2, 0] ++ (a.addr.drop 2).take 2 ++ (a.addr.drop 4).take 4 ++ List.replicate 8 0 := by
  have hbytes : ∀ {off k : ℕ}, off + k ≤ 16 →
      littleEndian k (a.load off k) = (a.addr.drop off).take k := by
    intro off k hle
    have hlength : ((a.addr.drop off).take k).length = k := by
      rw [List.length_take, List.length_drop, a.size]
      omega
    have hl := littleEndian_ofLittleEndian ((a.addr.drop off).take k)
    rwa [hlength] at hl
  have hport : (UInt16.ofNat (a.load 2 2)).toNat = a.load 2 2 := UInt16.toNat_ofNat_of_lt
    ((ofLittleEndian_lt _).trans_le (Nat.pow_le_pow_right (by decide) (List.length_take_le 2 _)))
  have hhost : (UInt32.ofNat (a.load 4 4)).toNat = a.load 4 4 := UInt32.toNat_ofNat_of_lt
    ((ofLittleEndian_lt _).trans_le (Nat.pow_le_pow_right (by decide) (List.length_take_le 4 _)))
  rw [rpcAddrPack_addr, rpcAddrUnpack, ← littleEndian_htons, ← littleEndian_htonl]
  -- the two changes of the byte order undo each other
  show _ ++ littleEndian 2 (ntohs (htons _)).toNat ++ littleEndian 4 (ntohl (htonl _)).toNat ++ _ = _
  rw [ntohs_htons, ntohl_htonl, hport, hhost, hbytes (by decide), hbytes (by decide)]

theorem rpcAddrPack_unpack_iff (a : RpcAddr) :
    (rpcAddrPack (rpcAddrUnpack a).2.1 (rpcAddrUnpack a).2.2).2 = a ↔ a.WellFormed := by
  have haddr := rpcAddrPack_unpack_addr a
  constructor
  · intro h
    have hbytes := haddr
    rw [h] at hbytes
    have htake : ((a.addr.drop 2).take 2).length = 2 := by simp [a.size]
    have htake' : ((a.addr.drop 4).take 4).length = 4 := by simp [a.size]
    refine ⟨?_, ?_, congrArg RpcAddr.len h.symm⟩
    · rw [hbytes, List.append_assoc, List.append_assoc]
      rfl
    · rw [hbytes]
      exact List.drop_left' (by simp only [List.length_append, htake, htake']; rfl)
  · rintro ⟨hfamily, hzero, hlen⟩
    refine RpcAddr.ext (haddr.trans ?_) hlen.symm
    have hdrop : a.addr.drop 2 = (a.addr.drop 2).take 2 ++ a.addr.drop 4 := by
      rw [← List.drop_drop (i := 2) (j := 2), List.take_append_drop]
    have hdrop' : a.addr.drop 4 = (a.addr.drop 4).take 4 ++ a.addr.drop 8 := by
      rw [← List.drop_drop (i := 4) (j := 4), List.take_append_drop]
    rw [← hfamily, ← hzero, List.append_assoc, List.append_assoc, ← hdrop', ← hdrop,
      List.take_append_drop]

/-- **Packing and unpacking.**  What was packed is unpacked again, and the other way
round exactly for the addresses that are well formed. -/
theorem rpcAddr_roundTrip :
    (∀ host port, rpcAddrUnpack (rpcAddrPack host port).2 = (eOk, host, port)) ∧
      ∀ a, (rpcAddrPack (rpcAddrUnpack a).2.1 (rpcAddrUnpack a).2.2).2 = a ↔ a.WellFormed :=
  ⟨rpcAddrUnpack_pack, rpcAddrPack_unpack_iff⟩

/-! ### Receiving -/

/-- The family, the port and the host are in the first 8 bytes. -/
theorem RpcAddr.load_congr {a b : RpcAddr} (h : a.addr.take 8 = b.addr.take 8) {off k : ℕ}
    (hle : off + k ≤ 8) : a.load off k = b.load off k := by
  have hpart : ∀ c : RpcAddr, (c.addr.drop off).take k = ((c.addr.take 8).drop off).take k := by
    intro c
    rw [List.drop_take, List.take_take, min_eq_left (by omega)]
  rw [RpcAddr.load, RpcAddr.load, hpart a, hpart b, h]

theorem rpcAddrUnpack_congr {a b : RpcAddr} (h : a.addr.take 8 = b.addr.take 8) :
    rpcAddrUnpack a = rpcAddrUnpack b := by
  rw [rpcAddrUnpack, rpcAddrUnpack, RpcAddr.load_congr h (by decide),
    RpcAddr.load_congr h (by decide)]

theorem RpcAddr.take_stored {src : RpcAddr} (h : 8 ≤ src.len.toNat) (sender : RpcAddr) :
    (src.stored sender).addr.take 8 = sender.addr.take 8 := by
  have hlength : 8 ≤ (sender.addr.take src.len.toNat).length := by
    rw [List.length_take, sender.size]
    omega
  show (sender.addr.take src.len.toNat ++ _).take 8 = _
  rw [List.take_append_of_le_length hlength, List.take_take, min_eq_left h]

/-- **The sender's host and port are stored** when the length covers them. -/
theorem rpcAddrUnpack_recvfrom {src src' : RpcAddr} (h : 8 ≤ src.len.toNat) {host : UInt32}
    {port : UInt16} (hrecv : src.recvfrom (rpcAddrPack host port).2 = some src') :
    rpcAddrUnpack src' = (eOk, host, port) := by
  obtain ⟨-, hsome⟩ := Option.ite_none_right_eq_some.mp hrecv
  obtain rfl := Option.some.inj hsome
  rw [rpcAddrUnpack_congr (RpcAddr.take_stored h _), rpcAddrUnpack_pack]

/-- Nothing else is sent to then. -/
theorem RpcAddr.sendto_recvfrom {src src' : RpcAddr} (h : 8 ≤ src.len.toNat) {host : UInt32}
    {port : UInt16} (hrecv : src.recvfrom (rpcAddrPack host port).2 = some src')
    {dst : UInt32 × UInt16} (hdst : src'.sendto = some dst) : dst = (host, port) := by
  obtain ⟨-, hdst⟩ := Option.ite_none_left_eq_some.mp hdst
  obtain ⟨-, hdst⟩ := Option.ite_none_left_eq_some.mp hdst
  obtain ⟨-, hdst⟩ := Option.ite_none_left_eq_some.mp hdst
  rw [← Option.some.inj hdst, rpcAddrUnpack_recvfrom h hrecv]

/-- Behind `recvfrom` the length is that of an address. -/
theorem RpcAddr.len_recvfrom {src src' : RpcAddr} {host : UInt32} {port : UInt16}
    (hrecv : src.recvfrom (rpcAddrPack host port).2 = some src') : src'.len = 16 := by
  obtain ⟨-, hsome⟩ := Option.ite_none_right_eq_some.mp hrecv
  rw [← Option.some.inj hsome]
  rfl

/-! ### Text -/

theorem strtollPrefix_eq_self {l : List UInt8}
    (h : ∀ c ∈ (l.drop 1).head?, c ≠ chr 'x' ∧ c ≠ chr 'X') : PciResource.strtollPrefix l = l := by
  rcases l with _ | ⟨a, _ | ⟨b, _ | ⟨d, cs⟩⟩⟩
  · rfl
  · rfl
  · rfl
  · obtain ⟨hlower, hupper⟩ := h b rfl
    rw [PciResource.strtollPrefix, if_neg]
    rintro ⟨-, hx, -⟩
    exact hx.elim hlower hupper

theorem ne_x_of_isdigit {c : UInt8} (h : isdigit c = true) : c ≠ chr 'x' ∧ c ≠ chr 'X' := by
  constructor
  · rintro rfl
    cases h
  · rintro rfl
    cases h

/-- Of the numbers of a byte only 0 is printed with a 0 in front. -/
theorem head?_numeral {v : ℕ} (hv : v < 256) (h : (numeral v).head? = some (chr '0')) : v = 0 := by
  have hall : ∀ v ∈ List.range 256, (numeral v).head? = some (chr '0') → v = 0 := by
    decide +kernel
  exact hall v (List.mem_range.mpr hv) h

/-- The end of the text, or the next dot. -/
def Stops (rest : List UInt8) : Prop := rest = [] ∨ ∃ l, rest = chr '.' :: l

theorem Stops.takeWhile {rest : List UInt8} (h : Stops rest) {p : UInt8 → Bool}
    (hp : p (chr '.') = false) : rest.takeWhile p = [] ∧ rest.dropWhile p = rest := by
  rcases h with rfl | ⟨l, rfl⟩
  · exact ⟨rfl, rfl⟩
  · rw [List.takeWhile_cons_of_neg (by simp [hp]), List.dropWhile_cons_of_neg (by simp [hp])]
    exact ⟨rfl, rfl⟩

/-- **The number of a byte is read as it was printed.** -/
theorem strtoul_numeral {v : ℕ} (hv : v < 256) {rest : List UInt8} (h : Stops rest) :
    strtoul (numeral v ++ rest) = (v, rest) := by
  have hdigits := isdigit_numeral v
  obtain ⟨d, ds, hnumeral⟩ := List.exists_cons_of_ne_nil (numeral_ne_nil v)
  have hprefix : PciResource.strtollPrefix (numeral v ++ rest) = numeral v ++ rest := by
    apply strtollPrefix_eq_self
    intro c hc
    rw [hnumeral, List.cons_append, List.drop_succ_cons, List.drop_zero] at hc
    rcases ds with _ | ⟨e, ds⟩
    · rcases h with rfl | ⟨l, rfl⟩
      · cases hc
      · obtain rfl : chr '.' = c := Option.some.inj hc
        decide
    · obtain rfl : e = c := Option.some.inj hc
      exact ne_x_of_isdigit (hdigits e (by simp [hnumeral]))
  have hhead : (numeral v ++ rest).head? = (numeral v).head? := by
    rw [hnumeral]
    rfl
  rw [strtoul, hprefix, if_neg (not_not_intro rfl), hhead]
  by_cases hzero : (numeral v).head? = some (chr '0')
  · obtain rfl := head?_numeral hv hzero
    obtain ⟨htake, hdrop⟩ := h.takeWhile (p := isoctal) rfl
    have hoctal : ∀ c ∈ numeral 0, isoctal c = true := by decide +kernel
    rw [if_pos hzero, List.takeWhile_append_of_pos hoctal, List.dropWhile_append_of_pos hoctal,
      htake, hdrop]
    rfl
  · obtain ⟨htake, hdrop⟩ := h.takeWhile (p := isdigit) rfl
    have hdecimal : decimal (numeral v ++ rest) = v := by
      rw [decimal, List.takeWhile_append_of_pos hdigits, htake, List.append_nil,
        ← decimal_eq_foldl hdigits, decimal_numeral]
    rw [if_neg hzero, hdecimal, List.dropWhile_append_of_pos hdigits, hdrop, Int.toNat_natCast]

/-- The text of a byte starts with a digit. -/
theorem any_isdigit_numeral (v : ℕ) (rest : List UInt8) :
    (numeral v ++ rest).head?.any isdigit = true := by
  obtain ⟨d, ds, hnumeral⟩ := List.exists_cons_of_ne_nil (numeral_ne_nil v)
  rw [hnumeral]
  exact isdigit_numeral v d (by simp [hnumeral])

/-- A byte in front of a dot. -/
theorem inetLoop_byte {v : ℕ} (hv : v < 256) (dots : ℕ) (res : List ℕ) (rest : List UInt8) :
    inetLoop (dots + 1) res (numeral v ++ chr '.' :: rest) = inetLoop dots (res ++ [v]) rest := by
  have hsmall : ¬ v > 0xffffffff := by omega
  have hbyte : ¬ v > 0xff := by omega
  rw [inetLoop]
  simp only [any_isdigit_numeral, strtoul_numeral hv (.inr ⟨rest, rfl⟩), Bool.true_eq_false,
    if_false, hsmall, hbyte, List.head?_cons, if_true, List.tail_cons]

/-- The last byte. -/
theorem inetLoop_last {v : ℕ} (hv : v < 256) {res : List ℕ} (hres : res.length = 3) :
    inetLoop 0 res (numeral v) = some (hostNumber res v) := by
  have hread : strtoul (numeral v) = (v, []) := by
    have hread := strtoul_numeral hv (.inl rfl)
    rwa [List.append_nil] at hread
  have hdigit : (numeral v).head?.any isdigit = true := by
    have hdigit := any_isdigit_numeral v []
    rwa [List.append_nil] at hdigit
  have hsmall : ¬ v > 0xffffffff := by omega
  have hfits : ¬ v ≥ 256 ^ (4 - res.length) := by
    rw [hres]
    omega
  rw [inetLoop]
  simp only [hdigit, hread, Bool.true_eq_false, if_false, hsmall, hfits, List.head?_nil,
    reduceCtorEq, Option.all_none]

/-- **Four bytes with dots between them.** -/
theorem inetLoop_text (a b c d : UInt8) :
    inetLoop 3 [] (List.intercalate [chr '.'] ([a, b, c, d].map fun x => numeral x.toNat)) =
      some (ofLittleEndian [d, c, b, a]) := by
  have htext : List.intercalate [chr '.'] ([a, b, c, d].map fun x => numeral x.toNat) =
      numeral a.toNat ++ chr '.' :: (numeral b.toNat ++ chr '.' :: (numeral c.toNat ++
        chr '.' :: numeral d.toNat)) := by
    simp [List.intercalate]
  rw [htext, inetLoop_byte a.toNat_lt, inetLoop_byte b.toNat_lt, inetLoop_byte c.toNat_lt,
    inetLoop_last d.toNat_lt rfl]
  simp only [hostNumber, List.nil_append, List.cons_append, List.reverse_cons, List.reverse_nil,
    Nat.ofDigits_cons, Nat.ofDigits_nil, List.length_cons, List.length_nil, ofLittleEndian]
  congr 1
  omega

/-- **The text of a host** is read as that host. -/
theorem sockAtoh_sockHtoa (host : UInt32) : sockAtoh (sockHtoa host) = host := by
  obtain ⟨d, c, b, a, hbytes⟩ : ∃ d c b a, littleEndian 4 host.toNat = [d, c, b, a] :=
    ⟨_, _, _, _, rfl⟩
  have hread : inetLoop 3 [] (sockHtoa host) = some host.toNat := by
    rw [sockHtoa, inetNtoa, littleEndian_htonl, hbytes]
    refine (inetLoop_text a b c d).trans (congrArg some ?_)
    rw [← hbytes, ofLittleEndian_littleEndian]
    exact Nat.mod_eq_of_lt host.toNat_lt
  rw [sockAtoh, inetAddr, hread]
  show ntohl (htonl (UInt32.ofNat host.toNat)) = host
  rw [ntohl_htonl, UInt32.ofNat_toNat]

/-! ### The server's line -/

theorem receiveText_inj {host : List UInt8} {port port' : ℕ} :
    receiveText host port = receiveText host port' ↔ port = port' := by
  refine ⟨fun h => ?_, fun h => congrArg _ h⟩
  have hnumeral := List.append_cancel_left (List.append_cancel_right h)
  have hdecimal := congrArg decimal hnumeral
  rwa [decimal_numeral, decimal_numeral, Nat.cast_inj] at hdecimal

/-- **The server prints the host of the sender, but the port with its bytes in the
other order**: right exactly when the two bytes of the port are the same. -/
theorem receiveLine_recvfrom {src src' : RpcAddr} (h : 8 ≤ src.len.toNat) {host : UInt32}
    {port : UInt16} (hrecv : src.recvfrom (rpcAddrPack host port).2 = some src') :
    receiveLine src' = receiveText (sockHtoa host) (swapped 2 port.toNat) ∧
      (receiveLine src' = receiveText (sockHtoa host) port.toNat ↔ 257 ∣ port.toNat) := by
  have hline : receiveLine src' = receiveText (sockHtoa host) (swapped 2 port.toNat) := by
    rw [receiveLine, rpcAddrUnpack_recvfrom h hrecv, ← toNat_htons]
  have hport := port.toNat_lt
  have hswapped : swapped 2 port.toNat = 256 * (port.toNat % 256) + port.toNat / 256 := by
    have hlow := UInt8.toNat_ofNat' (n := port.toNat)
    have hhigh := UInt8.toNat_ofNat' (n := port.toNat / 256)
    show (UInt8.ofNat (port.toNat / 256)).toNat +
      256 * ((UInt8.ofNat port.toNat).toNat + 256 * 0) = _
    rw [hlow, hhigh]
    omega
  refine ⟨hline, ?_⟩
  rw [hline, receiveText_inj, hswapped]
  omega

/-- An address structure whose length was set before the call. -/
def clearedAddr : RpcAddr := ⟨List.replicate 16 0, List.length_replicate, 16⟩

/-- 127.0.0.1:40000, whose port is printed as 16540. -/
theorem receiveLine_recvfrom_loopback : ∃ src',
    clearedAddr.recvfrom (rpcAddrPack 0x7f000001 40000).2 = some src' ∧
      receiveLine src' = bytes "Receive message from 127.0.0.1:16540\n" := by
  obtain ⟨src', hrecv⟩ : ∃ src', clearedAddr.recvfrom (rpcAddrPack 0x7f000001 40000).2 =
      some src' := ⟨_, rfl⟩
  refine ⟨src', hrecv, (receiveLine_recvfrom (by decide) hrecv).1.trans ?_⟩
  decide +kernel

end RpcAddress

end CodeSnippet
