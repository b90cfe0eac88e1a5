import TravLang.Lib.BigEndian
import TravLang.Runtime.Mlvalues

/-!
# Marshalled integer bigarrays (`runtime/bigarray.c`)

The elements of bigarrays of integers and of native integers. They are written after a byte that
tells how many bytes they take. Reading does not check that there is enough input: `none` stands for
a read after its end.
-/

namespace TravLang.Runtime.Bigarray

open List

/-- The kinds `CAML_BA_CAML_INT` and `CAML_BA_NATIVE_INT` -/
inductive LongKind where
  | camlInt
  | nativeInt
  deriving DecidableEq, Repr

/-- `caml_serialize_block_4` and `caml_serialize_block_8` -/
def serializeBlock (size : Nat) (data : List Int) : Bytes := data.flatMap (BigEndian.store size)

def camlBaSerializeLongarray (host : Host) (data : List Int) (minVal maxVal : Int) : Bytes :=
  if host.sixtyFour then
    let overflow32 := data.any fun p => p < minVal ∨ p > maxVal
    if overflow32 then 1 :: serializeBlock 8 data
    else 0 :: data.flatMap fun p => BigEndian.store 4 (p.bmod (2 ^ 32))
  else 0 :: serializeBlock 4 data

/-- The elements, as `caml_ba_serialize` writes them. The constant `0x80000000` does not fit an
`int` and is an `unsigned int`, and so is its opposite. -/
def serializeElements (host : Host) (data : List Int) : LongKind → Bytes
  | .camlInt => camlBaSerializeLongarray host data (-0x40000000) 0x3FFFFFFF
  | .nativeInt =>
    camlBaSerializeLongarray host data (host.intnat (-0x80000000#32).toNat) 0x7FFFFFFF

/-- `caml_deserialize_block_4` and `caml_deserialize_block_8`, and the loop that reads elements of 4
bytes, with the rest of the input -/
def deserializeBlock (size : Nat) : Nat → Bytes → Option (List Int × Bytes)
  | 0, src => some ([], src)
  | numElts + 1, src =>
    if src.length < size then none
    else (deserializeBlock size numElts (src.drop size)).map fun (data, src') =>
      (BigEndian.loadSigned (src.take size) :: data, src')

/-- The result is an error or the elements. -/
def camlBaDeserializeLongarray (host : Host) (numElts : Nat) :
    Bytes → Option (Except String (List Int × Bytes))
  | [] => none
  | sixty :: src =>
    if host.sixtyFour then (deserializeBlock (if sixty ≠ 0 then 8 else 4) numElts src).map .ok
    else if sixty ≠ 0 then
      some (.error "input_value: cannot read bigarray with 64-bit travlang ints")
    else (deserializeBlock 4 numElts src).map .ok

/-- The integers of a kind on a platform -/
def LongKind.InRange (host : Host) : LongKind → Int → Prop
  | .camlInt, n => Runtime.InRange host n
  | .nativeInt, n => -2 ^ (host.wordBits - 1) ≤ n ∧ n < 2 ^ (host.wordBits - 1)

variable {data : List Int} {host : Host}

theorem deserializeBlock_serializeBlock (size : Nat) (rest : Bytes)
    (h : ∀ n ∈ data, -256 ^ size ≤ n * 2 ∧ n * 2 < 256 ^ size) :
    deserializeBlock size data.length (serializeBlock size data ++ rest) = some (data, rest) := by
  induction data with
  | nil => rfl
  | cons n data ih =>
    obtain ⟨hn, hdata⟩ := forall_mem_cons.mp h
    have hlen := BigEndian.length_store size n
    rw [serializeBlock, flatMap_cons, ← serializeBlock, append_assoc, length_cons,
      deserializeBlock, if_neg (by simp), List.drop_left' hlen, ih hdata, List.take_left' hlen,
      Option.map_some, BigEndian.loadSigned_store hn.1 hn.2]

/-- Elements that are small enough for the bounds are written in 4 bytes. -/
theorem serializeLongarray_small {minVal maxVal : Int} (h : ∀ n ∈ data, minVal ≤ n ∧ n ≤ maxVal)
    (hmin : -2 ^ 31 ≤ minVal) (hmax : maxVal < 2 ^ 31) :
    camlBaSerializeLongarray host data minVal maxVal = 0 :: serializeBlock 4 data := by
  unfold camlBaSerializeLongarray
  have hany : (data.any fun p => p < minVal ∨ p > maxVal) = false := by
    rw [any_eq_false]
    intro p hp
    have := h p hp
    simp
    omega
  have hmap : (data.flatMap fun p => BigEndian.store 4 (p.bmod (2 ^ 32))) =
      serializeBlock 4 data := by
    rw [serializeBlock, flatMap_def, flatMap_def]
    congr 1
    refine map_congr_left fun p hp => ?_
    have := h p hp
    rw [Int.bmod_eq_of_le_mul_two (by omega) (by omega)]
  rw [hany, hmap]
  simp

/-- What is written in 8 bytes has the byte 1 in front. -/
theorem serializeLongarray_cases (hhost : host.sixtyFour = true) (data : List Int)
    (minVal maxVal : Int) (hmin : -2 ^ 31 ≤ minVal) (hmax : maxVal < 2 ^ 31) :
    camlBaSerializeLongarray host data minVal maxVal = 1 :: serializeBlock 8 data ∨
    (camlBaSerializeLongarray host data minVal maxVal = 0 :: serializeBlock 4 data ∧
      ∀ n ∈ data, -2 ^ 31 ≤ n ∧ n < 2 ^ 31) := by
  by_cases h : ∀ n ∈ data, minVal ≤ n ∧ n ≤ maxVal
  · exact .inr ⟨serializeLongarray_small h hmin hmax, fun n hn => by have := h n hn; omega⟩
  · have hany : (data.any fun p => p < minVal ∨ p > maxVal) = true := by
      obtain ⟨n, hn, hout⟩ : ∃ n ∈ data, ¬(minVal ≤ n ∧ n ≤ maxVal) := by
        simpa using h
      exact any_eq_true.mpr ⟨n, hn, by simp; omega⟩
    left
    rw [camlBaSerializeLongarray, if_pos hhost, hany]
    rfl

theorem min_nativeInt_ge (host : Host) : -2 ^ 31 ≤ host.intnat (-0x80000000#32).toNat := by
  unfold Host.intnat
  rcases wordBits_cases host with hbits | hbits <;> rw [hbits] <;> decide

theorem deserialize_four (reader : Host) (h : ∀ n ∈ data, -2 ^ 31 ≤ n ∧ n < 2 ^ 31) (rest : Bytes) :
    camlBaDeserializeLongarray reader data.length (0 :: serializeBlock 4 data ++ rest) =
      some (.ok (data, rest)) := by
  have hblock := deserializeBlock_serializeBlock 4 rest fun n hn => by
    have := h n hn
    omega
  simp [camlBaDeserializeLongarray, hblock]

theorem deserialize_eight {reader : Host} (hreader : reader.sixtyFour = true)
    (h : ∀ n ∈ data, -2 ^ 63 ≤ n ∧ n < 2 ^ 63) (rest : Bytes) :
    camlBaDeserializeLongarray reader data.length (1 :: serializeBlock 8 data ++ rest) =
      some (.ok (data, rest)) := by
  have hblock := deserializeBlock_serializeBlock 8 rest fun n hn => by
    have := h n hn
    omega
  rw [cons_append, camlBaDeserializeLongarray, if_pos hreader, if_pos (by decide), hblock]
  rfl

/-- No native integer is between the bounds, of which the lower one is the greater. -/
theorem serializeElements_nativeInt (hhost : host.sixtyFour = true) (hne : data ≠ []) :
    serializeElements host data .nativeInt = 1 :: serializeBlock 8 data := by
  have hmin : host.intnat (-0x80000000#32).toNat = 0x80000000 := by
    simp [Host.intnat, Host.wordBits, Host.wordSize, hhost]
  obtain ⟨n, hn⟩ := exists_mem_of_ne_nil data hne
  have hany : (data.any fun p => p < 0x80000000 ∨ p > 0x7FFFFFFF) = true :=
    any_eq_true.mpr ⟨n, hn, by simp; omega⟩
  rw [serializeElements, hmin, camlBaSerializeLongarray, if_pos hhost, hany]
  rfl

/-- **Integer bigarrays are portable**: elements that are small enough are written in 4 bytes, which
all platforms read back, exactly if they are not native integers, and a platform with 64 bits reads
back all elements. -/
theorem longarray_portable {writer : Host} (hwriter : writer.sixtyFour = true) (kind : LongKind)
    (data : List Int) (hdata : ∀ n ∈ data, kind.InRange writer n) (rest : Bytes) :
    (∀ small : Host, small.sixtyFour = false → (∀ n ∈ data, kind.InRange small n) →
      ((serializeElements writer data kind = 0 :: serializeBlock 4 data ∧
        ∀ reader, camlBaDeserializeLongarray reader data.length
          (serializeElements writer data kind ++ rest) = some (.ok (data, rest))) ↔
        (kind = .nativeInt → data = []))) ∧
    ∀ reader : Host, reader.sixtyFour = true → camlBaDeserializeLongarray reader data.length
      (serializeElements writer data kind ++ rest) = some (.ok (data, rest)) := by
  constructor
  · intro small hsmall hfits
    refine ⟨fun ⟨hfour, _⟩ hkind => ?_, fun hkind => ?_⟩
    · subst hkind
      by_contra hne
      rw [serializeElements_nativeInt hwriter hne] at hfour
      cases hfour
    have hbits : small.wordBits = 32 := by simp [Host.wordBits, Host.wordSize, hsmall]
    have hform : serializeElements writer data kind = 0 :: serializeBlock 4 data ∧
        ∀ n ∈ data, -2 ^ 31 ≤ n ∧ n < 2 ^ 31 := by
      cases kind with
      | camlInt =>
        simp only [LongKind.InRange, Runtime.InRange, hbits] at hfits
        exact ⟨serializeLongarray_small (fun n hn => by have := hfits n hn; omega) (by decide)
          (by decide), fun n hn => by have := hfits n hn; omega⟩
      | nativeInt =>
        obtain rfl := hkind rfl
        exact ⟨serializeLongarray_small (by simp) (min_nativeInt_ge writer) (by decide), by simp⟩
    rw [hform.1]
    exact ⟨rfl, fun reader => deserialize_four reader hform.2 rest⟩
  · intro reader hreader
    have hbits : writer.wordBits = 64 := by simp [Host.wordBits, Host.wordSize, hwriter]
    have hbounds : ∀ n ∈ data, -2 ^ 63 ≤ n ∧ n < 2 ^ 63 := by
      intro n hn
      have hrange := hdata n hn
      cases kind <;>
        simp only [LongKind.InRange, Runtime.InRange, hbits] at hrange <;>
        omega
    have hread : ∀ minVal maxVal : Int, -2 ^ 31 ≤ minVal → maxVal < 2 ^ 31 →
        camlBaDeserializeLongarray reader data.length
          (camlBaSerializeLongarray writer data minVal maxVal ++ rest) =
            some (.ok (data, rest)) := by
      intro minVal maxVal hmin hmax
      rcases serializeLongarray_cases hwriter data minVal maxVal hmin hmax with hs | ⟨hs, hsmall⟩
      · rw [hs]
        exact deserialize_eight hreader hbounds rest
      · rw [hs]
        exact deserialize_four reader hsmall rest
    cases kind with
    | camlInt => exact hread _ _ (by decide) (by decide)
    | nativeInt => exact hread _ _ (min_nativeInt_ge writer) (by decide)

theorem longarray_portable_int :
    serializeElements ⟨true, false⟩ [-1] .camlInt = [0, 255, 255, 255, 255] ∧
    ∀ reader, camlBaDeserializeLongarray reader 1 [0, 255, 255, 255, 255] =
      some (.ok ([-1], [])) := by
  have hwriter : (⟨true, false⟩ : Host).sixtyFour = true := rfl
  exact ((longarray_portable hwriter .camlInt [-1] (by simp [LongKind.InRange]; decide) []).1
    ⟨false, false⟩ rfl (by simp [LongKind.InRange]; decide)).mpr (by simp)

/-- A native integer takes 8 bytes, although it is 0. -/
theorem nativeint_not_portable :
    LongKind.InRange ⟨false, false⟩ .nativeInt 0 ∧
    serializeElements ⟨true, false⟩ [0] .nativeInt = [1, 0, 0, 0, 0, 0, 0, 0, 0] ∧
    camlBaDeserializeLongarray ⟨false, false⟩ 1 [1, 0, 0, 0, 0, 0, 0, 0, 0] =
      some (.error "input_value: cannot read bigarray with 64-bit travlang ints") := by
  refine ⟨?_, by decide, rfl⟩
  simp [LongKind.InRange, Host.wordBits, Host.wordSize]

end TravLang.Runtime.Bigarray
