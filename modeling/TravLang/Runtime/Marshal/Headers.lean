import TravLang.Runtime.Marshal.Sizes

/-!
# The headers of messages

`caml_parse_header` and `caml_marshal_data_size`, and what they find in the headers that
`extern_value` makes. The counters of the writer are words of its host: they are assumed not to have
overflowed.
-/

namespace TravLang.Runtime.Marshal

open Result List BigEndian

/-! ## Numbers in base 128 -/

/-- The loop of `readvlq`: `c` is the last byte, `n` the number so far. The boolean is set when bits
were lost. -/
def readvlqLoop (host : Host) (c n : Nat) (overflow : Bool) (src : Bytes) :
    Except Exn (Nat × Bool × Bytes) :=
  if c &&& 0x80 = 0 then .ok (n, overflow, src)
  else
    match src with
    | [] => .error .outOfBounds
    | b :: src =>
      let n7 := (n <<< 7) % 2 ^ host.wordBits
      readvlqLoop host b.toNat (n7 ||| (b.toNat &&& 0x7F)) (overflow || n ≠ n7 >>> 7) src

def readvlq (host : Host) (src : Bytes) : Except Exn (Nat × Bool × Bytes) := do
  let (c, src) ← read8u src
  readvlqLoop host c (c &&& 0x7F) false src

theorem read8u_cons (b : UInt8) (src : Bytes) : read8u (b :: src) = .ok (b.toNat, src) := by
  simp [read8u, readUnsigned, readblock, load]

theorem low_bits (n : Nat) : n &&& 0x7F = n % 128 := Nat.and_two_pow_sub_one_eq_mod n 7

theorem readvlq_cons (host : Host) (b : UInt8) (src : Bytes) :
    readvlq host (b :: src) = readvlqLoop host b.toNat (b.toNat % 128) false src := by
  rw [readvlq, read8u_cons, ok_bind, ← low_bits]

theorem vlqDigits_append (rest : Bytes) : ∀ (fuel n : Nat) (acc : Bytes),
    vlqDigits fuel n acc ++ rest = vlqDigits fuel n (acc ++ rest)
  | 0, _, _ => rfl
  | fuel + 1, n, acc => by
    unfold vlqDigits
    split
    · rfl
    · rw [vlqDigits_append rest fuel, cons_append]

theorem vlqDigits_zero (fuel : Nat) (acc : Bytes) : vlqDigits fuel 0 acc = acc := by
  cases fuel <;> simp [vlqDigits]

/-- A byte that is not the last one of a number. -/
theorem toNat_digit (m : Nat) : (UInt8.ofNat (0x80 ||| (m &&& 0x7F))).toNat = 128 + m % 128 := by
  have hlt : m % 128 < 2 ^ 7 := Nat.mod_lt m (by decide)
  have hor : 0x80 ||| m % 128 = 128 + m % 128 := by
    have := Nat.two_pow_add_eq_or_of_lt hlt 1
    simpa using this.symm
  rw [low_bits, hor, UInt8.toNat_ofNat_of_lt' (by simp [UInt8.size]; omega)]

theorem readvlqLoop_digit {host : Host} {m : Nat} (hm : m * 128 < 2 ^ host.wordBits) (k : Nat)
    (b : UInt8) (src : Bytes) : readvlqLoop host (128 + k % 128) m false (b :: src) =
      readvlqLoop host b.toNat (m * 128 + b.toNat % 128) false src := by
  have hbit : (128 + k % 128) &&& 0x80 ≠ 0 := by
    have : ∀ j : Fin 128, (128 + j.val) &&& 0x80 ≠ 0 := by decide
    exact this ⟨k % 128, Nat.mod_lt _ (by decide)⟩
  have hshift : m <<< 7 % 2 ^ host.wordBits = m * 128 := by
    rw [Nat.shiftLeft_eq, Nat.mod_eq_of_lt hm]
  have hor : m * 128 ||| b.toNat % 128 = m * 128 + b.toNat % 128 := by
    have := Nat.two_pow_add_eq_or_of_lt (show b.toNat % 128 < 2 ^ 7 from Nat.mod_lt _ (by decide)) m
    rw [Nat.mul_comm m 128]
    exact this.symm
  conv_lhs => unfold readvlqLoop
  rw [if_neg hbit]
  simp only [hshift, low_bits, hor, Nat.shiftRight_eq_div_pow]
  simp

/-- The digits above the last one make up the number `m`. -/
theorem readvlq_digits {host : Host} : ∀ (fuel m : Nat) (b : UInt8) (src : Bytes), m ≤ fuel →
    0 < m → m * 128 < 2 ^ host.wordBits → readvlq host (vlqDigits fuel m (b :: src)) =
      readvlqLoop host b.toNat (m * 128 + b.toNat % 128) false src
  | 0, m, _, _, hfuel, hpos, _ => absurd hfuel (by omega)
  | fuel + 1, m, b, src, hfuel, hpos, hm => by
    have hdiv : m >>> 7 = m / 128 := Nat.shiftRight_eq_div_pow m 7
    rw [vlqDigits, if_neg (by omega), hdiv]
    rcases Nat.eq_zero_or_pos (m / 128) with hzero | hmore
    · have hsmall : m % 128 = m := by omega
      rw [hzero, vlqDigits_zero, readvlq_cons, toNat_digit,
        show (128 + m % 128) % 128 = m by omega, readvlqLoop_digit hm]
    · rw [readvlq_digits fuel (m / 128) _ _ (by omega) hmore (by omega), toNat_digit,
        show m / 128 * 128 + (128 + m % 128) % 128 = m by omega, readvlqLoop_digit hm]

/-- **A number is read back**, if it is a word of the reader. -/
theorem readvlq_storevlq {host : Host} {n : Nat} (hn : n < 2 ^ host.wordBits) (rest : Bytes) :
    readvlq host (storevlq n ++ rest) = .ok (n, false, rest) := by
  have hlast : (UInt8.ofNat (n &&& 0x7F)).toNat = n % 128 := by
    rw [low_bits, UInt8.toNat_ofNat_of_lt' (by simp [UInt8.size]; omega)]
  have hend : ∀ m src, readvlqLoop host (n % 128) m false src = .ok (m, false, src) := by
    intro m src
    have : ∀ j : Fin 128, j.val &&& 0x80 = 0 := by decide
    unfold readvlqLoop
    rw [if_pos (this ⟨n % 128, Nat.mod_lt _ (by decide)⟩)]
  have hdiv : n >>> 7 = n / 128 := Nat.shiftRight_eq_div_pow n 7
  rw [storevlq, vlqDigits_append, hdiv, singleton_append]
  rcases Nat.eq_zero_or_pos (n / 128) with hzero | hmore
  · rw [hzero, vlqDigits_zero, readvlq_cons, hlast, hend, show n % 128 % 128 = n by omega]
  · rw [readvlq_digits n (n / 128) _ _ (by omega) hmore (by omega), hlast, hend]
    rw [show n / 128 * 128 + n % 128 % 128 = n by omega]

theorem length_vlqDigits : ∀ (k fuel m : Nat) (acc : Bytes), m < 128 ^ k →
    (vlqDigits fuel m acc).length ≤ k + acc.length
  | _, 0, _, _, _ => by simp [vlqDigits]
  | 0, fuel + 1, m, acc, hm => by simp [vlqDigits, show m = 0 by omega]
  | k + 1, fuel + 1, m, acc, hm => by
    unfold vlqDigits
    split
    · omega
    · have hdiv : m >>> 7 < 128 ^ k := by
        rw [Nat.shiftRight_eq_div_pow]
        exact Nat.div_lt_of_lt_mul (by rw [Nat.pow_succ] at hm; omega)
      have := length_vlqDigits k fuel _ (UInt8.ofNat (0x80 ||| (m &&& 0x7F)) :: acc) hdiv
      rw [length_cons] at this
      omega

/-- A word takes ten bytes at most. -/
theorem length_storevlq {n : Nat} (hn : n < 2 ^ 64) : (storevlq n).length ≤ 10 := by
  have hdiv : n >>> 7 < 128 ^ 9 := by
    rw [Nat.shiftRight_eq_div_pow]
    omega
  have := length_vlqDigits 9 n _ [UInt8.ofNat (n &&& 0x7F)] hdiv
  simpa [storevlq] using this

/-! ## The reader of headers -/

structure MarshalHeader where
  magic : Nat
  headerLen : Nat
  compressed : Bool
  dataLen : Nat
  uncompressedDataLen : Nat
  numObjects : Nat
  whsize : Nat
  deriving DecidableEq, Repr

/-- The header, and the bytes after it. -/
def camlParseHeader (funName : String) (host : Host) (src : Bytes) :
    Except Exn (MarshalHeader × Bytes) := do
  let (magic, src) ← read32u src
  if magic = intextMagicNumberSmall then do
    let (dataLen, src) ← read32u src
    let (numObjects, src) ← read32u src
    let (size32, src) ← read32u src
    let (size64, src) ← read32u src
    .ok (⟨magic, 20, false, dataLen, dataLen, numObjects,
      if host.sixtyFour then size64 else size32⟩, src)
  else if magic = intextMagicNumberBig then
    if host.sixtyFour then do
      let (_, src) ← read32u src
      let (dataLen, src) ← read64u src
      let (numObjects, src) ← read64u src
      let (whsize, src) ← read64u src
      .ok (⟨magic, 32, false, dataLen, dataLen, numObjects, whsize⟩, src)
    else
      .error (.failure (funName ++ ": object too large to be read back on a 32-bit platform"))
  else if magic = intextMagicNumberCompressed then do
    let (len, src) ← read8u src
    let (dataLen, o₁, src) ← readvlq host src
    let (uncompressedDataLen, o₂, src) ← readvlq host src
    let (numObjects, o₃, src) ← readvlq host src
    let (size32, o₄, src) ← readvlq host src
    let (size64, o₅, src) ← readvlq host src
    if o₁ || o₂ || o₃ || (if host.sixtyFour then o₅ else o₄) then
      .error (.failure (funName ++ ": object too large to be read back on this platform"))
    else
      .ok (⟨magic, len &&& 0x3F, true, dataLen, uncompressedDataLen, numObjects,
        if host.sixtyFour then size64 else size32⟩, src)
  else .error (.failure (funName ++ ": bad object"))

/-- `caml_marshal_data_size`, at the start of a buffer. -/
def camlMarshalDataSize (host : Host) (src : Bytes) : Except Exn Int := do
  let (magic, src) ← read32u src
  let size (headerLen dataLen : Nat) : Int := host.int ((headerLen : Int) - 16 + dataLen)
  if magic = intextMagicNumberSmall then do
    let (dataLen, _) ← read32u src
    .ok (size 20 dataLen)
  else if magic = intextMagicNumberBig then
    if host.sixtyFour then do
      let (_, src) ← read32u src
      let (dataLen, _) ← read64u src
      .ok (size 32 dataLen)
    else
      .error (.failure
        "Marshal.data_size: object too large to be read back on a 32-bit platform")
  else if magic = intextMagicNumberCompressed then do
    let (len, src) ← read8u src
    let (dataLen, overflow, _) ← readvlq host src
    if overflow then
      .error (.failure "Marshal.data_size: object too large to be read back on this platform")
    else .ok (size (len &&& 0x3F) dataLen)
  else .error (.failure "Marshal.data_size: bad object")

/-! ## The three formats -/

section Formats

variable {r : Host} {dataLen outputLen numObjects size32 size64 : Nat} (f : String) (rest : Bytes)

theorem read32u_store {n : Nat} (h : n < 2 ^ 32) (rest : Bytes) :
    read32u (store 4 n ++ rest) = .ok (n, rest) :=
  readUnsigned_store (Nat.lt_of_lt_of_le h (by decide)) rest

theorem read64u_store {n : Nat} (h : n < 2 ^ 64) (rest : Bytes) :
    read64u (store 8 n ++ rest) = .ok (n, rest) :=
  readUnsigned_store (Nat.lt_of_lt_of_le h (by decide)) rest

def smallHeader (dataLen numObjects size32 size64 : Nat) : Bytes :=
  store 4 intextMagicNumberSmall ++ store 4 dataLen ++
    store 4 numObjects ++ store 4 size32 ++ store 4 size64

def bigHeader (dataLen numObjects size64 : Nat) : Bytes :=
  store 4 intextMagicNumberBig ++ store 4 0 ++ store 8 dataLen ++
    store 8 numObjects ++ store 8 size64

def vlqLengths (dataLen outputLen numObjects size32 size64 : Nat) : Bytes :=
  storevlq dataLen ++ storevlq outputLen ++ storevlq numObjects ++ storevlq size32 ++
    storevlq size64

def compressedHeader (lengths : Bytes) : Bytes :=
  store 4 intextMagicNumberCompressed ++ UInt8.ofNat (5 + lengths.length) :: lengths

/-- What the reader finds in a header, and the size that it computes from the start of a message. -/
def Faithful (r : Host) (header : Bytes) (compressed : Bool)
    (dataLen outputLen numObjects size32 size64 : Nat) : Prop :=
  (∀ f rest, ∃ h, camlParseHeader f r (header ++ rest) = .ok (h, rest) ∧
    h.headerLen = header.length ∧ h.compressed = compressed ∧ h.dataLen = dataLen ∧
    h.uncompressedDataLen = outputLen ∧ h.numObjects = numObjects ∧
    h.whsize = if r.sixtyFour then size64 else size32) ∧
  ∀ rest, camlMarshalDataSize r ((header ++ rest).take 16) =
    .ok (r.int ((header.length : Int) - 16 + dataLen))

theorem faithful_small (hdata : dataLen < 2 ^ 32) (hobjects : numObjects < 2 ^ 32)
    (h32 : size32 < 2 ^ 32) (h64 : size64 < 2 ^ 32) :
    Faithful r (smallHeader dataLen numObjects size32 size64) false dataLen dataLen numObjects
      size32 size64 := by
  refine ⟨fun f rest => ⟨⟨intextMagicNumberSmall, 20, false, dataLen, dataLen, numObjects,
    if r.sixtyFour then size64 else size32⟩, ?_, rfl, rfl, rfl, rfl, rfl, rfl⟩, fun rest => ?_⟩
  · simp only [smallHeader, append_assoc, camlParseHeader, ok_bind, if_true,
      read32u_store (show intextMagicNumberSmall < 2 ^ 32 by decide), read32u_store hdata,
      read32u_store hobjects, read32u_store h32, read32u_store h64]
  · simp only [smallHeader, append_assoc, take_append, length_store]
    simp only [take_of_length_le, length_store, Nat.reduceSub, Nat.reduceLeDiff]
    simp [camlMarshalDataSize, ok_bind,
      read32u_store (show intextMagicNumberSmall < 2 ^ 32 by decide), read32u_store hdata]

theorem faithful_big (hr : r.sixtyFour = true) (hdata : dataLen < 2 ^ 64)
    (hobjects : numObjects < 2 ^ 64) (h64 : size64 < 2 ^ 64) :
    Faithful r (bigHeader dataLen numObjects size64) false dataLen dataLen numObjects size32
      size64 := by
  have hmagic : intextMagicNumberBig ≠ intextMagicNumberSmall := by decide
  have hzero := read32u_store (show 0 < 2 ^ 32 by decide)
  simp only [Int.natCast_zero] at hzero
  have hlast := read64u_store hdata []
  rw [append_nil] at hlast
  refine ⟨fun f rest => ⟨⟨intextMagicNumberBig, 32, false, dataLen, dataLen, numObjects, size64⟩,
    ?_, rfl, rfl, rfl, rfl, rfl, (if_pos hr).symm⟩, fun rest => ?_⟩
  · simp only [bigHeader, append_assoc, camlParseHeader, ok_bind, if_neg hmagic, if_pos hr,
      if_true, read32u_store (show intextMagicNumberBig < 2 ^ 32 by decide), hzero,
      read64u_store hdata, read64u_store hobjects, read64u_store h64]
  · simp only [bigHeader, append_assoc, take_append, length_store]
    simp only [take_of_length_le, length_store, Nat.reduceSub, Nat.reduceLeDiff]
    simp [camlMarshalDataSize, ok_bind, hmagic, hr, hzero,
      read32u_store (show intextMagicNumberBig < 2 ^ 32 by decide), hlast]

theorem faithful_compressed (hdata : dataLen < 2 ^ r.wordBits)
    (houtput : outputLen < 2 ^ r.wordBits)
    (hobjects : numObjects < 2 ^ r.wordBits) (h32 : size32 < 2 ^ r.wordBits)
    (h64 : size64 < 2 ^ r.wordBits) :
    Faithful r (compressedHeader (vlqLengths dataLen outputLen numObjects size32 size64)) true
      dataLen outputLen numObjects size32 size64 := by
  have hword : ∀ {n : Nat}, n < 2 ^ r.wordBits → (storevlq n).length ≤ 10 := fun h =>
    length_storevlq (Nat.lt_of_lt_of_le h (Nat.pow_le_pow_right (by decide) (by
      have := wordBits_cases r
      omega)))
  generalize hl : vlqLengths dataLen outputLen numObjects size32 size64 = lengths
  have hlen : 5 + lengths.length < 64 := by
    have h₁ := hword hdata
    have h₂ := hword houtput
    have h₃ := hword hobjects
    have h₄ := hword h32
    have h₅ := hword h64
    subst hl
    simp only [vlqLengths, length_append]
    omega
  have hbyte : (UInt8.ofNat (5 + lengths.length)).toNat &&& 0x3F = 5 + lengths.length := by
    rw [UInt8.toNat_ofNat_of_lt' (by simp [UInt8.size]; omega),
      show 0x3F = 2 ^ 6 - 1 from rfl, Nat.and_two_pow_sub_one_eq_mod, Nat.mod_eq_of_lt hlen]
  have hheader : (compressedHeader lengths).length = 5 + lengths.length := by
    simp [compressedHeader]
    omega
  have hmagic : intextMagicNumberCompressed ≠ intextMagicNumberSmall ∧
      intextMagicNumberCompressed ≠ intextMagicNumberBig := by decide
  have hread := read32u_store (show intextMagicNumberCompressed < 2 ^ 32 by decide)
  refine ⟨fun f rest => ⟨⟨intextMagicNumberCompressed, 5 + lengths.length, true, dataLen, outputLen,
    numObjects, if r.sixtyFour then size64 else size32⟩, ?_, hheader.symm, rfl, rfl, rfl, rfl, rfl⟩,
    fun rest => ?_⟩
  · rw [compressedHeader, append_assoc, cons_append]
    simp only [camlParseHeader, hread, ok_bind, if_neg hmagic.1, if_neg hmagic.2, if_true,
      read8u_cons, hbyte]
    subst hl
    simp only [vlqLengths, append_assoc, ok_bind, readvlq_storevlq hdata,
      readvlq_storevlq houtput, readvlq_storevlq hobjects, readvlq_storevlq h32,
      readvlq_storevlq h64]
    simp
  · have hfit : (storevlq dataLen).length ≤ 11 := Nat.le_trans (hword hdata) (by decide)
    rw [hheader, compressedHeader, append_assoc, take_append,
      take_of_length_le (by simp), length_store, cons_append,
      take_succ_cons]
    simp only [camlMarshalDataSize, hread, ok_bind, if_neg hmagic.1, if_neg hmagic.2, if_true,
      read8u_cons, hbyte]
    subst hl
    simp only [vlqLengths, append_assoc]
    rw [take_append, take_of_length_le hfit, readvlq_storevlq hdata, ok_bind]
    simp

end Formats

/-! ## Messages -/

variable {D : Type} {w r : Host} {flags : Flags} {heap : Heap (Custom D)} {v : Value}
  {s : ExternState} {fuel : Nat} {data header : Bytes} {zstd : Option (Bytes → Option Bytes)}

/-- There are no more objects than words. -/
theorem objCounter_le (hgraph : GraphOk w heap v)
    (hrun : externRec fuel w flags heap v = some (.ok s)) :
    s.objCounter ≤ s.size64 := by
  obtain ⟨items, em, hemits, hwrote, hwritten⟩ := run_externStep hgraph.objects hrun
    ⟨by simp [externInit], fun _ => standsFor_init w⟩ (by simpa using hgraph.value)
  have hle : s.objCounter ≤ em.length := by
    rw [hwritten.counter]
    split <;> omega
  have h64 := hemits.length_le host64
  rw [hwrote.size64]
  simp only [length_nil] at h64
  omega

/-- The counters of a writer, which are words of its host, have not overflowed. -/
def Counted (w : Host) (data : Bytes) (s : ExternState) : Prop :=
  data.length < 2 ^ w.wordBits ∧ s.output.length < 2 ^ w.wordBits ∧ s.size32 < 2 ^ w.wordBits ∧
    s.size64 < 2 ^ w.wordBits

instance (w : Host) (data : Bytes) (s : ExternState) : Decidable (Counted w data s) :=
  inferInstanceAs (Decidable (_ ∧ _ ∧ _ ∧ _))

/-- The header of data that is not compressed. -/
theorem faithful_plain {e : Exn} (hc : Compatible w r flags) (hcount : Counted w data s)
    (h64 : s.objCounter ≤ s.size64)
    (h : (if w.sixtyFour ∧ (2 ^ 32 ≤ s.output.length ∨ 2 ^ 32 ≤ s.size32 ∨ 2 ^ 32 ≤ s.size64)
      then if flags.compat32 then .error e
        else .ok (bigHeader s.output.length s.objCounter s.size64, s.output)
      else .ok (smallHeader s.output.length s.objCounter s.size32 s.size64, s.output) :
        Except Exn (Bytes × Bytes)) = .ok (header, data)) :
    Faithful r header false data.length s.output.length s.objCounter s.size32 s.size64 := by
  obtain ⟨hdata, houtput, hsize32, hsize64⟩ := hcount
  split at h
  · next hbig =>
    split at h
    · cases h
    next hflag =>
    cases h
    have hr : r.sixtyFour = true := by simpa [Compatible, hbig.1, hflag] using hc
    simp only [Host.wordBits, Host.wordSize, hbig.1, if_true] at hdata hsize64
    exact faithful_big hr hdata (by omega) hsize64
  · next hsmall =>
    cases h
    have hsmall' : s.output.length < 2 ^ 32 ∧ s.size32 < 2 ^ 32 ∧ s.size64 < 2 ^ 32 := by
      cases hw : w.sixtyFour with
      | true => simpa [hw] using hsmall
      | false =>
        simp only [Host.wordBits, Host.wordSize, hw] at houtput hsize32 hsize64
        exact ⟨houtput, hsize32, hsize64⟩
    exact faithful_small hsmall'.1 (by omega) hsmall'.2.1 hsmall'.2.2

/-- The header that is chosen, when no counter has overflowed. -/
theorem faithful_externHeaderOf (hc : Compatible w r flags) (hcount : Counted w data s)
    (h64 : s.objCounter ≤ s.size64) (h : externHeaderOf w flags zstd s = .ok (header, data)) :
    Faithful r header (flags.compressed && zstd.isSome) data.length s.output.length s.objCounter
      s.size32 s.size64 := by
  unfold externHeaderOf at h
  cases hcompressed : flags.compressed with
  | false =>
    rw [hcompressed] at h
    exact faithful_plain hc hcount h64 h
  | true =>
    rw [hcompressed] at h
    cases zstd with
    | none => exact faithful_plain hc hcount h64 h
    | some compress =>
      obtain ⟨hdata, houtput, hsize32, hsize64⟩ := hcount
      have hwide : 2 ^ 32 ≤ 2 ^ r.wordBits := two_pow_32_le r
      simp only at h
      split at h
      · cases h
      split at h
      · cases h
      next hchecked =>
      cases h
      -- the reader has words as wide as those of the writer, or the flag asks for checks
      have hbound : ∃ B, B ≤ 2 ^ r.wordBits ∧ s.output.length < B ∧ s.size32 < B ∧ s.size64 < B ∧
          ‹Bytes›.length < B := by
        by_cases hw : w.sixtyFour = true
        · rcases hc with hr | hw' | hflag
          · refine ⟨2 ^ w.wordBits, ?_, houtput, hsize32, hsize64, hdata⟩
            simp [Host.wordBits, Host.wordSize, hr, hw]
          · rw [hw] at hw'
            cases hw'
          · simp only [hw, hflag, true_and, not_or, Nat.not_le] at hchecked
            exact ⟨2 ^ 32, hwide, by omega, by omega, by omega, by omega⟩
        · refine ⟨2 ^ w.wordBits, ?_, houtput, hsize32, hsize64, hdata⟩
          simpa [Host.wordBits, Host.wordSize, hw] using hwide
      exact faithful_compressed (by omega) (by omega) (by omega) (by omega) (by omega)

/-- What the reader finds in the header of a message. -/
theorem faithful_externValue {toBlock : Bool} (hgraph : GraphOk w heap v)
    (hreader : r.sixtyFour = true ∨ w.sixtyFour = false ∨ flags.compat32 = true)
    (hwrite : externValue fuel w zstd toBlock flags heap v = some (.ok (header, data, s)))
    (hcount : Counted w data s) :
    Faithful r header (flags.effective zstd toBlock).compressed data.length s.output.length
      s.objCounter s.size32 s.size64 := by
  obtain ⟨hrun, hheader, -⟩ := externValue_ok hwrite
  have hformat : ((flags.effective zstd toBlock).compressed && zstd.isSome) =
      (flags.effective zstd toBlock).compressed := by
    simp only [Flags.effective]
    cases zstd <;> simp
  rw [← hformat]
  exact faithful_externHeaderOf (show Compatible w r (flags.effective zstd toBlock) from hreader)
    hcount (objCounter_le hgraph hrun) hheader

end TravLang.Runtime.Marshal
