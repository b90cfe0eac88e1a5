import Mathlib.Data.Nat.Bitwise
import TravLang.Lib.Utf8
import TravLang.Stdlib.Bytes

/-!
# UTF-8 decoding and validation (`stdlib/bytes.ml`, `stdlib/uchar.ml`)

The decoder asks for one more byte at a time, so that it can tell how much of a sequence there is.
The validator asks for all of them at once. `none` is an access outside of the byte sequence.
-/

namespace TravLang

open List

/-! ## Decodes -/

namespace Uchar

def rep : Nat := 0xFFFD

def validBit : Nat := 27

def decodeBits : Nat := 24

def utfDecodeIsValid (d : Nat) : Bool := d >>> validBit == 1

def utfDecodeLength (d : Nat) : Nat := d >>> decodeBits &&& 0b111

def utfDecodeUchar (d : Nat) : Nat := d &&& 0xFFFFFF

def utfDecode (n u : Nat) : Nat := (8 ||| n) <<< decodeBits ||| u

def utfDecodeInvalid (n : Nat) : Nat := n <<< decodeBits ||| rep

/-- The parts of a decode do not overlap. -/
theorem decode_parts {n u : Nat} (hn : n < 8) (hu : u < 2 ^ 24) :
    (utfDecodeIsValid (utfDecode n u) = true ∧ utfDecodeLength (utfDecode n u) = n ∧
      utfDecodeUchar (utfDecode n u) = u) ∧
    (utfDecodeIsValid (utfDecodeInvalid n) = false ∧ utfDecodeLength (utfDecodeInvalid n) = n ∧
      utfDecodeUchar (utfDecodeInvalid n) = rep) := by
  have hor : 8 ||| n = 8 + n := by
    have hall : ∀ n < 8, 8 ||| n = 8 + n := by decide
    exact hall n hn
  have hparts : ∀ m v : Nat, v < 2 ^ 24 → m <<< 24 ||| v = m * 2 ^ 24 + v := by
    intro m v hv
    rw [← Nat.shiftLeft_add_eq_or_of_lt hv, Nat.shiftLeft_eq]
  have hland : ∀ m : Nat, m &&& 7 = m % 8 := fun m => Nat.and_two_pow_sub_one_eq_mod m 3
  have hland' : ∀ m : Nat, m &&& 0xFFFFFF = m % 2 ^ 24 := fun m =>
    Nat.and_two_pow_sub_one_eq_mod m 24
  unfold utfDecodeIsValid utfDecodeLength utfDecodeUchar utfDecode utfDecodeInvalid validBit
    decodeBits
  rw [hor, hparts _ u hu, hparts n rep (by decide), hland, hland, hland', hland',
    Nat.shiftRight_eq_div_pow, Nat.shiftRight_eq_div_pow, Nat.shiftRight_eq_div_pow,
    Nat.shiftRight_eq_div_pow]
  unfold rep
  refine ⟨⟨?_, ?_, ?_⟩, ?_, ?_, ?_⟩
  · rw [beq_iff_eq]
    omega
  · omega
  · omega
  · rw [beq_eq_false_iff_ne]
    omega
  · omega
  · omega

end Uchar

namespace Bytes

open Uchar

def getUint8 (b : Bytes) (i : Nat) : Option Nat := b[i]?.map UInt8.toNat

def decInvalid : Nat → Nat := utfDecodeInvalid

def decRet : Nat → Nat → Nat := utfDecode

def notInX80ToXBF (b : Nat) : Bool := b >>> 6 != 0b10

def notInXA0ToXBF (b : Nat) : Bool := b >>> 5 != 0b101

def notInX80ToX9F (b : Nat) : Bool := b >>> 5 != 0b100

def notInX90ToXBF (b : Nat) : Bool := b < 0x90 || 0xBF < b

def notInX80ToX8F (b : Nat) : Bool := b >>> 4 != 0x8

def utf8Uchar2 (b0 b1 : Nat) : Nat := (b0 &&& 0x1F) <<< 6 ||| b1 &&& 0x3F

def utf8Uchar3 (b0 b1 b2 : Nat) : Nat :=
  (b0 &&& 0x0F) <<< 12 ||| (b1 &&& 0x3F) <<< 6 ||| b2 &&& 0x3F

def utf8Uchar4 (b0 b1 b2 b3 : Nat) : Nat :=
  (b0 &&& 0x07) <<< 18 ||| (b1 &&& 0x3F) <<< 12 ||| (b2 &&& 0x3F) <<< 6 ||| b3 &&& 0x3F

/-! ## Decoding -/

/-- A branch for two bytes; `notIn` is the test of the second one. -/
def getUchar2 (b : Bytes) (b0 i : Nat) (notIn : Nat → Bool) : Option Nat := do
  if i + 1 ≥ b.length then return decInvalid 1
  let b1 ← getUint8 b (i + 1)
  if notIn b1 then return decInvalid 1
  return decRet 2 (utf8Uchar2 b0 b1)

/-- The branches for three bytes -/
def getUchar3 (b : Bytes) (b0 i : Nat) (notIn : Nat → Bool) : Option Nat := do
  if i + 1 ≥ b.length then return decInvalid 1
  let b1 ← getUint8 b (i + 1)
  if notIn b1 then return decInvalid 1
  if i + 2 ≥ b.length then return decInvalid 2
  let b2 ← getUint8 b (i + 2)
  if notInX80ToXBF b2 then return decInvalid 2
  return decRet 3 (utf8Uchar3 b0 b1 b2)

/-- The branches for four bytes -/
def getUchar4 (b : Bytes) (b0 i : Nat) (notIn : Nat → Bool) : Option Nat := do
  if i + 1 ≥ b.length then return decInvalid 1
  let b1 ← getUint8 b (i + 1)
  if notIn b1 then return decInvalid 1
  if i + 2 ≥ b.length then return decInvalid 2
  let b2 ← getUint8 b (i + 2)
  if notInX80ToXBF b2 then return decInvalid 2
  if i + 3 ≥ b.length then return decInvalid 3
  let b3 ← getUint8 b (i + 3)
  if notInX80ToXBF b3 then return decInvalid 3
  return decRet 4 (utf8Uchar4 b0 b1 b2 b3)

def getUtf8Uchar (b : Bytes) (i : Nat) : Option Nat := do
  let b0 ← getUint8 b i
  if b0 ≤ 0x7F then return decRet 1 b0
  else if 0xC2 ≤ b0 ∧ b0 ≤ 0xDF then getUchar2 b b0 i notInX80ToXBF
  else if b0 = 0xE0 then getUchar3 b b0 i notInXA0ToXBF
  else if 0xE1 ≤ b0 ∧ b0 ≤ 0xEC ∨ 0xEE ≤ b0 ∧ b0 ≤ 0xEF then getUchar3 b b0 i notInX80ToXBF
  else if b0 = 0xED then getUchar3 b b0 i notInX80ToX9F
  else if b0 = 0xF0 then getUchar4 b b0 i notInX90ToXBF
  else if 0xF1 ≤ b0 ∧ b0 ≤ 0xF3 then getUchar4 b b0 i notInX80ToXBF
  else if b0 = 0xF4 then getUchar4 b b0 i notInX80ToX8F
  else return decInvalid 1

/-! ## Validation -/

/-- `notIn (get b i) || …`, which stops at the first byte that is not in its range -/
def anyNotIn (b : Bytes) : List (Nat × (Nat → Bool)) → Option Bool
  | [] => some false
  | (i, notIn) :: tests => do
    let x ← getUint8 b i
    if notIn x then return true else anyNotIn b tests

/-- `last > max || …` -/
def notValid (b : Bytes) (last : Nat) (tests : List (Nat × (Nat → Bool))) : Option Bool :=
  if last ≥ b.length then some true else anyNotIn b tests

/-- The loop of `is_valid_utf_8` -/
def isValidLoop (b : Bytes) (i : Nat) : Option Bool :=
  if _h : i ≥ b.length then some true
  else do
    let b0 ← getUint8 b i
    if b0 ≤ 0x7F then isValidLoop b (i + 1)
    else if 0xC2 ≤ b0 ∧ b0 ≤ 0xDF then
      if ← notValid b (i + 1) [(i + 1, notInX80ToXBF)] then return false
      else isValidLoop b (i + 2)
    else if b0 = 0xE0 then
      if ← notValid b (i + 2) [(i + 1, notInXA0ToXBF), (i + 2, notInX80ToXBF)] then return false
      else isValidLoop b (i + 3)
    else if 0xE1 ≤ b0 ∧ b0 ≤ 0xEC ∨ 0xEE ≤ b0 ∧ b0 ≤ 0xEF then
      if ← notValid b (i + 2) [(i + 1, notInX80ToXBF), (i + 2, notInX80ToXBF)] then return false
      else isValidLoop b (i + 3)
    else if b0 = 0xED then
      if ← notValid b (i + 2) [(i + 1, notInX80ToX9F), (i + 2, notInX80ToXBF)] then return false
      else isValidLoop b (i + 3)
    else if b0 = 0xF0 then
      if ← notValid b (i + 3)
        [(i + 1, notInX90ToXBF), (i + 2, notInX80ToXBF), (i + 3, notInX80ToXBF)] then return false
      else isValidLoop b (i + 4)
    else if 0xF1 ≤ b0 ∧ b0 ≤ 0xF3 then
      if ← notValid b (i + 3)
        [(i + 1, notInX80ToXBF), (i + 2, notInX80ToXBF), (i + 3, notInX80ToXBF)] then return false
      else isValidLoop b (i + 4)
    else if b0 = 0xF4 then
      if ← notValid b (i + 3)
        [(i + 1, notInX80ToX8F), (i + 2, notInX80ToXBF), (i + 3, notInX80ToXBF)] then return false
      else isValidLoop b (i + 4)
    else return false
termination_by b.length - i

def isValidUtf8 (b : Bytes) : Option Bool := isValidLoop b 0

/-! ## Tests and bits -/

section Spec

open Utf8

/-- A test that a byte is not in a range -/
def Tests (notIn : Nat → Bool) (low high : Nat) : Prop :=
  ∀ x, notIn x = !decide (low ≤ x ∧ x ≤ high)

/-- The bytes in a range have the same leading bits. -/
theorem tests_shiftRight {notIn : Nat → Bool} {k c : Nat} (h : ∀ x, notIn x = (x >>> k != c)) :
    Tests notIn (c * 2 ^ k) (c * 2 ^ k + (2 ^ k - 1)) := by
  intro x
  have hpos : 0 < 2 ^ k := Nat.two_pow_pos k
  have hiff : x / 2 ^ k = c ↔ c * 2 ^ k ≤ x ∧ x ≤ c * 2 ^ k + (2 ^ k - 1) := by
    rw [Nat.div_eq_iff hpos]
    omega
  rw [h, Nat.shiftRight_eq_div_pow, bne, ← decide_eq_decide.mpr hiff]
  rfl

theorem tests_x80ToXBF : Tests notInX80ToXBF 0x80 0xBF := tests_shiftRight fun _ => rfl

theorem tests_xA0ToXBF : Tests notInXA0ToXBF 0xA0 0xBF := tests_shiftRight fun _ => rfl

theorem tests_x80ToX9F : Tests notInX80ToX9F 0x80 0x9F := tests_shiftRight fun _ => rfl

theorem tests_x80ToX8F : Tests notInX80ToX8F 0x80 0x8F := tests_shiftRight fun _ => rfl

theorem tests_x90ToXBF : Tests notInX90ToXBF 0x90 0xBF := by
  intro x
  unfold notInX90ToXBF
  rw [← decide_not, ← Bool.decide_or]
  exact decide_eq_decide.mpr (by omega)

/-- A group of bits and the six bits of the next byte -/
theorem shiftLeft_or (a c : Nat) : a <<< 6 ||| c &&& 0x3F = a * 64 + c % 64 := by
  have hmod : c &&& 0x3F = c % 64 := Nat.and_two_pow_sub_one_eq_mod c 6
  rw [hmod, ← Nat.shiftLeft_add_eq_or_of_lt (Nat.mod_lt c (by decide)), Nat.shiftLeft_eq]

theorem utf8Uchar2_eq (b0 b1 : Nat) : utf8Uchar2 b0 b1 = value b0 [b1] := by
  have hmod : b0 &&& 0x1F = b0 % 32 := Nat.and_two_pow_sub_one_eq_mod b0 5
  rw [utf8Uchar2, hmod, shiftLeft_or, value]

theorem utf8Uchar3_eq (b0 b1 b2 : Nat) : utf8Uchar3 b0 b1 b2 = value b0 [b1, b2] := by
  have hmod : b0 &&& 0x0F = b0 % 16 := Nat.and_two_pow_sub_one_eq_mod b0 4
  have hshift : (b0 &&& 0x0F) <<< 12 = ((b0 &&& 0x0F) <<< 6) <<< 6 := Nat.shiftLeft_add _ 6 6
  rw [utf8Uchar3, hshift, ← Nat.shiftLeft_or_distrib, shiftLeft_or, shiftLeft_or, hmod, value]
  omega

theorem utf8Uchar4_eq (b0 b1 b2 b3 : Nat) : utf8Uchar4 b0 b1 b2 b3 = value b0 [b1, b2, b3] := by
  have hmod : b0 &&& 0x07 = b0 % 8 := Nat.and_two_pow_sub_one_eq_mod b0 3
  have hshift : (b0 &&& 0x07) <<< 18 = ((b0 &&& 0x07) <<< 6) <<< 12 := Nat.shiftLeft_add _ 6 12
  have hshift' : ∀ x : Nat, x <<< 12 = (x <<< 6) <<< 6 := fun x => Nat.shiftLeft_add x 6 6
  rw [utf8Uchar4, hshift, ← Nat.shiftLeft_or_distrib, shiftLeft_or, hshift',
    ← Nat.shiftLeft_or_distrib, shiftLeft_or, shiftLeft_or, hmod, value]
  omega

/-! ## What is decoded -/

/-- The bytes after the one at `i` -/
def rest (b : Bytes) (i : Nat) : List Nat := (b.drop (i + 1)).map UInt8.toNat

theorem getUint8_rest (b : Bytes) (i k : Nat) : getUint8 b (i + 1 + k) = (rest b i)[k]? := by
  rw [getUint8, rest, List.getElem?_map, List.getElem?_drop]

theorem length_rest {b : Bytes} {i : Nat} (hi : i < b.length) :
    b.length = i + 1 + (rest b i).length := by
  rw [rest, length_map, length_drop]
  omega

theorem ge_length_iff {b : Bytes} {i : Nat} (hi : i < b.length) (k : Nat) :
    i + 1 + k ≥ b.length ↔ (rest b i).length ≤ k := by
  have := length_rest hi
  omega

/-- The decode of a first byte and the bytes after it -/
def decode (b0 : Nat) (r : List Nat) : Nat :=
  match lead b0 with
  | none => decInvalid 1
  | some l =>
    if matched l.count l.low l.high r = l.count then
      decRet (l.count + 1) (value b0 (r.take l.count))
    else decInvalid (matched l.count l.low l.high r + 1)

/-- What is decoded when `n` bytes have been accepted and `m` more are asked for -/
def decodeFrom (n m low high : Nat) (r : List Nat) (ret : List Nat → Nat) : Nat :=
  if matched m low high r = m then ret (r.take m) else decInvalid (matched m low high r + n)

theorem decode_eq {b0 : Nat} {l : Lead} (h : lead b0 = some l) (r : List Nat) : decode b0 r =
    decodeFrom 1 l.count l.low l.high r fun w => decRet (l.count + 1) (value b0 w) := by
  rw [decode, h, decodeFrom]

variable {b : Bytes} {i b0 low high : Nat} {notIn : Nat → Bool} {x : UInt8}

section

variable (hi : i < b.length) (htests : Tests notIn low high)

include hi htests

/-- Asking for one more byte -/
theorem ask_eq (k : Nat) {m n : Nat} {f : Nat → Option Nat} {ret : List Nat → Nat}
    (hf : ∀ x, f x = some (decodeFrom (n + 1) m 0x80 0xBF ((rest b i).drop (k + 1))
      fun r => ret (x :: r))) : (do
    if i + 1 + k ≥ b.length then return decInvalid n
    let x ← getUint8 b (i + 1 + k)
    if notIn x then return decInvalid n
    f x) = some (decodeFrom n (m + 1) low high ((rest b i).drop k) ret) := by
  rw [getUint8_rest, decodeFrom]
  simp only [ge_length_iff hi]
  by_cases hk : k < (rest b i).length
  · rw [if_neg (Nat.not_le.mpr hk), getElem?_eq_getElem hk, drop_eq_getElem_cons hk]
    generalize (rest b i)[k] = x
    generalize (rest b i).drop (k + 1) = r at hf ⊢
    by_cases hx : low ≤ x ∧ x ≤ high
    · simp [matched, htests x, hx, hf, decodeFrom, Nat.add_right_comm _ 1, ← Nat.add_assoc]
    · simp [matched, htests x, hx]
  · rw [if_pos (Nat.not_lt.mp hk), drop_eq_nil_of_le (Nat.not_lt.mp hk)]
    simp [matched]

theorem getUchar2_eq (hlead : lead b0 = some ⟨1, low, high⟩) :
    getUchar2 b b0 i notIn = some (decode b0 (rest b i)) := by
  rw [decode_eq hlead]
  exact ask_eq hi htests 0 fun b1 => by simp [decodeFrom, matched, utf8Uchar2_eq]

theorem getUchar3_eq (hlead : lead b0 = some ⟨2, low, high⟩) :
    getUchar3 b b0 i notIn = some (decode b0 (rest b i)) := by
  rw [decode_eq hlead]
  exact ask_eq hi htests 0 fun b1 => ask_eq hi tests_x80ToXBF 1 fun b2 => by
    simp [decodeFrom, matched, utf8Uchar3_eq]

theorem getUchar4_eq (hlead : lead b0 = some ⟨3, low, high⟩) :
    getUchar4 b b0 i notIn = some (decode b0 (rest b i)) := by
  rw [decode_eq hlead]
  exact ask_eq hi htests 0 fun b1 => ask_eq hi tests_x80ToXBF 1 fun b2 =>
    ask_eq hi tests_x80ToXBF 2 fun b3 => by simp [decodeFrom, matched, utf8Uchar4_eq]

end

/-- **The decoder follows the table of first bytes.** -/
theorem getUtf8Uchar_eq (hx : b[i]? = some x) :
    getUtf8Uchar b i = some (decode x.toNat (rest b i)) := by
  obtain ⟨hi, -⟩ := List.getElem?_eq_some_iff.mp hx
  have hget : getUint8 b i = some x.toNat := by rw [getUint8, hx]; rfl
  generalize x.toNat = b0 at hget
  rw [getUtf8Uchar, hget, Option.bind_eq_bind, Option.bind_some]
  split
  · next h => simp [decode, lead_one (Nat.lt_succ_of_le h), matched, value]
  split
  · next h => exact getUchar2_eq hi tests_x80ToXBF (lead_two h.1 (Nat.lt_succ_of_le h.2))
  split
  · next h => exact getUchar3_eq hi tests_xA0ToXBF (by rw [h]; rfl)
  split
  · next h =>
    refine getUchar3_eq hi tests_x80ToXBF ?_
    rw [lead_three (by omega) (by omega), if_neg (by omega), if_neg (by omega)]
  split
  · next h => exact getUchar3_eq hi tests_x80ToX9F (by rw [h]; rfl)
  split
  · next h => exact getUchar4_eq hi tests_x90ToXBF (by rw [h]; rfl)
  split
  · next h =>
    refine getUchar4_eq hi tests_x80ToXBF ?_
    rw [lead_four (by omega) (by omega), if_neg (by omega), if_neg (by omega)]
  split
  · next h => exact getUchar4_eq hi tests_x80ToX8F (by rw [h]; rfl)
  · rw [decode, lead_none (by omega)]
    rfl

/-! ## What is valid -/

/-- The tests of the bytes of a sequence after its first one -/
def tests (notIn : Nat → Bool) (i : Nat) : Nat → List (Nat × (Nat → Bool))
  | 0 => []
  | n + 1 => (i, notIn) :: tests notInX80ToXBF (i + 1) n

theorem anyNotIn_eq {n k : Nat} {r : List Nat} (hget : ∀ j, getUint8 b (k + j) = r[j]?)
    (htests : Tests notIn low high) (hlen : n ≤ r.length) :
    anyNotIn b (tests notIn k n) = some (decide (matched n low high r ≠ n)) := by
  induction n generalizing k r notIn low high with
  | zero => simp [tests, anyNotIn, matched]
  | succ n ih =>
    cases r with
    | nil => exact absurd hlen (Nat.not_succ_le_zero n)
    | cons x r =>
      have hx := hget 0
      rw [Nat.add_zero, List.getElem?_cons_zero] at hx
      have hrest := ih (k := k + 1) (r := r)
        (fun j => by rw [Nat.add_assoc, Nat.add_comm 1, hget, List.getElem?_cons_succ])
        tests_x80ToXBF (Nat.le_of_succ_le_succ hlen)
      rw [tests, anyNotIn, hx, Option.bind_eq_bind, Option.bind_some, htests x, matched]
      by_cases hb : low ≤ x ∧ x ≤ high
      · simp [hb, hrest]
      · simp [hb]

theorem notValid_eq {n : Nat} (hi : i < b.length) (htests : Tests notIn low high) :
    notValid b (i + n) (tests notIn (i + 1) n) =
      some (decide (matched n low high (rest b i) ≠ n)) := by
  have hlen := length_rest hi
  unfold notValid
  split
  · next hge =>
    have hle := (matched_le n low high (rest b i)).2
    exact congrArg some (decide_eq_true (by omega)).symm
  · next hlt => exact anyNotIn_eq (getUint8_rest b i) htests (by omega)

/-- **The validator follows the same table.** -/
theorem isValidLoop_eq (hx : b[i]? = some x) : isValidLoop b i =
    match lead x.toNat with
    | none => some false
    | some l =>
      if matched l.count l.low l.high (rest b i) = l.count then isValidLoop b (i + (l.count + 1))
      else some false := by
  obtain ⟨hi, -⟩ := List.getElem?_eq_some_iff.mp hx
  have hget : getUint8 b i = some x.toNat := by rw [getUint8, hx]; rfl
  generalize x.toNat = b0 at hget
  -- the branch for `n` more bytes
  have hbranch : ∀ {notIn low high} (n : Nat), Tests notIn low high →
      (notValid b (i + n) (tests notIn (i + 1) n) >>= fun bad =>
        if bad = true then pure false else isValidLoop b (i + (n + 1))) =
      if matched n low high (rest b i) = n then isValidLoop b (i + (n + 1)) else some false := by
    intro notIn low high n htests
    rw [notValid_eq hi htests, Option.bind_eq_bind, Option.bind_some]
    by_cases h : matched n low high (rest b i) = n
    · simp [h]
    · simp [h]
  rw [isValidLoop, dif_neg (Nat.not_le.mpr hi), hget, Option.bind_eq_bind, Option.bind_some]
  split
  · next h => simp [lead_one (Nat.lt_succ_of_le h), matched]
  split
  · next h =>
    rw [lead_two h.1 (Nat.lt_succ_of_le h.2)]
    exact hbranch 1 tests_x80ToXBF
  split
  · next h =>
    subst h
    exact hbranch 2 tests_xA0ToXBF
  split
  · next h =>
    rw [lead_three (by omega) (by omega), if_neg (by omega), if_neg (by omega)]
    exact hbranch 2 tests_x80ToXBF
  split
  · next h =>
    subst h
    exact hbranch 2 tests_x80ToX9F
  split
  · next h =>
    subst h
    exact hbranch 3 tests_x90ToXBF
  split
  · next h =>
    rw [lead_four (by omega) (by omega), if_neg (by omega), if_neg (by omega)]
    exact hbranch 3 tests_x80ToXBF
  split
  · next h =>
    subst h
    exact hbranch 3 tests_x80ToX8F
  · rw [lead_none (by omega)]
    rfl

/-! ## Results -/

/-- The bytes from `i` on -/
def bytesFrom (b : Bytes) (i : Nat) : List Nat := (b.drop i).map UInt8.toNat

theorem bytesFrom_eq (hx : b[i]? = some x) :
    bytesFrom b i = x.toNat :: rest b i := by
  obtain ⟨hi, rfl⟩ := List.getElem?_eq_some_iff.mp hx
  rw [bytesFrom, drop_eq_getElem_cons hi, map_cons]
  rfl

variable {r : List Nat} {l : Lead}

theorem decode_of_no_lead (r : List Nat) (hl : lead b0 = none) :
    utfDecodeIsValid (decode b0 r) = false ∧ utfDecodeLength (decode b0 r) = 1 ∧
      utfDecodeUchar (decode b0 r) = rep := by
  rw [decode, hl]
  exact (decode_parts (n := 1) (u := 0) (by decide) (by decide)).2

theorem decode_of_matched (hl : lead b0 = some l)
    (hmatched : matched l.count l.low l.high r = l.count) :
    utfDecodeIsValid (decode b0 r) = true ∧ utfDecodeLength (decode b0 r) = l.count + 1 ∧
      utfDecodeUchar (decode b0 r) = value b0 (r.take l.count) := by
  have hcount := (lead_bounds hl).1
  have hscalar := (encode_value hl (fits_of_matched hmatched).1).1
  have hvalue : value b0 (r.take l.count) < 2 ^ 24 := by
    unfold Scalar at hscalar
    omega
  simp only [decode, hl, if_pos hmatched]
  exact (decode_parts (Nat.lt_of_le_of_lt (Nat.succ_le_succ hcount) (by decide)) hvalue).1

theorem decode_of_not_matched (hl : lead b0 = some l)
    (hmatched : matched l.count l.low l.high r ≠ l.count) :
    utfDecodeIsValid (decode b0 r) = false ∧
      utfDecodeLength (decode b0 r) = matched l.count l.low l.high r + 1 ∧
      utfDecodeUchar (decode b0 r) = rep := by
  have hcount := (lead_bounds hl).1
  have hle := (matched_le l.count l.low l.high r).1
  simp only [decode, hl, if_neg hmatched]
  exact (decode_parts (n := matched l.count l.low l.high r + 1) (u := 0) (by omega) (by decide)).2

/-- **A decode is valid exactly for the bytes of an encoding, and says otherwise how much of one
there is.** -/
theorem decode_spec (b0 : Nat) (r : List Nat) :
    (∀ u n, utfDecodeIsValid (decode b0 r) = true ∧ utfDecodeUchar (decode b0 r) = u ∧
        utfDecodeLength (decode b0 r) = n ↔
      Scalar u ∧ encode u <+: b0 :: r ∧ (encode u).length = n) ∧
    (utfDecodeIsValid (decode b0 r) = false → utfDecodeUchar (decode b0 r) = rep ∧
      ∃ m, IsGreatest {k | Begins (b0 :: r) k} m ∧ utfDecodeLength (decode b0 r) = max 1 m) := by
  -- an invalid decode is not at an encoding
  have hinvalid : utfDecodeIsValid (decode b0 r) = false →
      (∀ l, lead b0 = some l → matched l.count l.low l.high r ≠ l.count) →
      ∀ u n, utfDecodeIsValid (decode b0 r) = true ∧ utfDecodeUchar (decode b0 r) = u ∧
          utfDecodeLength (decode b0 r) = n ↔
        Scalar u ∧ encode u <+: b0 :: r ∧ (encode u).length = n := by
    intro hvalid hno u n
    refine ⟨fun h => absurd (hvalid.symm.trans h.1) nofun, fun h => ?_⟩
    obtain ⟨l, hl, hmatched, -⟩ := encode_prefix_iff.mp ⟨h.1, h.2.1⟩
    exact absurd hmatched (hno l hl)
  cases hl : lead b0 with
  | none =>
    obtain ⟨hvalid, hlength, huchar⟩ := decode_of_no_lead r hl
    refine ⟨hinvalid hvalid fun l hl' => absurd (hl.symm.trans hl') nofun, fun _ => ?_⟩
    exact ⟨huchar, 0, isGreatest_zero r hl, hlength⟩
  | some l =>
    by_cases hmatched : matched l.count l.low l.high r = l.count
    · obtain ⟨hvalid, hlength, huchar⟩ := decode_of_matched hl hmatched
      obtain ⟨hfits, -⟩ := fits_of_matched hmatched
      obtain ⟨hscalar, hencode⟩ := encode_value hl hfits
      have hlen : (encode (value b0 (r.take l.count))).length = l.count + 1 := by
        rw [hencode, length_cons, hfits.length]
      rw [hvalid, hlength, huchar]
      refine ⟨fun u n => ⟨?_, ?_⟩, nofun⟩
      · rintro ⟨-, rfl, rfl⟩
        exact ⟨hscalar, (encode_prefix_iff.mpr ⟨l, hl, hmatched, rfl⟩).2, hlen⟩
      · rintro ⟨hu, hstart, rfl⟩
        obtain ⟨l', hl', -, rfl⟩ := encode_prefix_iff.mp ⟨hu, hstart⟩
        obtain rfl := Option.some.inj (hl.symm.trans hl')
        exact ⟨rfl, rfl, hlen.symm⟩
    · obtain ⟨hvalid, hlength, huchar⟩ := decode_of_not_matched hl hmatched
      have hlt : matched l.count l.low l.high r < l.count :=
        Nat.lt_of_le_of_ne (matched_le _ _ _ _).1 hmatched
      refine ⟨hinvalid hvalid fun l' hl' => ?_, fun _ => ⟨huchar, _, isGreatest_matched hl hlt, ?_⟩⟩
      · obtain rfl := Option.some.inj (hl.symm.trans hl')
        exact hmatched
      · rw [hlength, Nat.max_eq_right (Nat.succ_le_succ (Nat.zero_le _))]

/-- Decoding from `i` on, each time after the bytes of the last decode, never yields an invalid
decode. -/
inductive NeverInvalid (b : Bytes) : Nat → Prop where
  | finished : NeverInvalid b b.length
  | step {i d : Nat} : getUtf8Uchar b i = some d → utfDecodeIsValid d = true →
      NeverInvalid b (i + utfDecodeLength d) → NeverInvalid b i

theorem neverInvalid_iff (hx : b[i]? = some x) : NeverInvalid b i ↔
    ∃ l, lead x.toNat = some l ∧ matched l.count l.low l.high (rest b i) = l.count ∧
      NeverInvalid b (i + (l.count + 1)) := by
  have hget := getUtf8Uchar_eq hx
  constructor
  · intro h
    cases h with
    | finished =>
      obtain ⟨hi, -⟩ := List.getElem?_eq_some_iff.mp hx
      exact absurd hi (Nat.lt_irrefl _)
    | step hd hvalid hnext =>
      obtain rfl := Option.some.inj (hget.symm.trans hd)
      cases hl : lead x.toNat with
      | none => exact absurd (hvalid.symm.trans (decode_of_no_lead _ hl).1) nofun
      | some l =>
        by_cases hmatched : matched l.count l.low l.high (rest b i) = l.count
        · rw [(decode_of_matched hl hmatched).2.1] at hnext
          exact ⟨l, rfl, hmatched, hnext⟩
        · exact absurd (hvalid.symm.trans (decode_of_not_matched hl hmatched).1) nofun
  · rintro ⟨l, hl, hmatched, hnext⟩
    obtain ⟨hvalid, hlength, -⟩ := decode_of_matched hl hmatched
    exact .step hget hvalid (hlength.symm ▸ hnext)

theorem text_bytesFrom_iff (hx : b[i]? = some x) : Text (bytesFrom b i) ↔
    ∃ l, lead x.toNat = some l ∧ matched l.count l.low l.high (rest b i) = l.count ∧
      Text (bytesFrom b (i + (l.count + 1))) := by
  have hdrop : ∀ n, (rest b i).drop n = bytesFrom b (i + (n + 1)) := fun n => by
    rw [rest, bytesFrom, ← map_drop, drop_drop, Nat.add_assoc, Nat.add_comm 1]
  rw [bytesFrom_eq hx, text_cons]
  simp only [hdrop]

/-- The validator, the decoder and the texts agree from each position on. -/
theorem isValidLoop_spec (hi : i ≤ b.length) : ∃ v, isValidLoop b i = some v ∧
    (v = true ↔ NeverInvalid b i) ∧ (v = true ↔ Text (bytesFrom b i)) := by
  -- by induction on the number of bytes left
  obtain ⟨n, hn⟩ : ∃ n, n = b.length - i := ⟨_, rfl⟩
  induction n using Nat.strongRecOn generalizing i with
  | ind n ih =>
    rcases Nat.eq_or_lt_of_le hi with rfl | hlt
    · refine ⟨true, ?_, iff_of_true rfl .finished, iff_of_true rfl ?_⟩
      · rw [isValidLoop, dif_pos (Nat.le_refl _)]
      · rw [bytesFrom, drop_length, map_nil]
        exact text_nil
    · have hx : b[i]? = some (b.get ⟨i, hlt⟩) := List.getElem?_eq_getElem hlt
      rw [isValidLoop_eq hx, neverInvalid_iff hx, text_bytesFrom_iff hx]
      cases hl : lead (b.get ⟨i, hlt⟩).toNat with
      | none => exact ⟨false, rfl, by simp, by simp⟩
      | some l =>
        by_cases hmatched : matched l.count l.low l.high (rest b i) = l.count
        · have hle := (matched_le l.count l.low l.high (rest b i)).2
          have hlen := length_rest hlt
          obtain ⟨v, hv, hnever, htext⟩ := ih _ (by omega) (i := i + (l.count + 1)) (by omega) rfl
          exact ⟨v, by simpa [hmatched] using hv, by simpa [hmatched] using hnever,
            by simpa [hmatched] using htext⟩
        · exact ⟨false, by simp [hmatched], by simp [hmatched], by simp [hmatched]⟩

/-- **UTF-8 decoding and validation.** At an index of the bytes the decode is a valid one of `u`
with length `n` exactly when the bytes start there with the encoding of `u`, of `n` bytes; an
invalid one has the length of the longest proper start of an encoding that is there, but at least 1.
At another index there is no decode. The validator accepts the bytes when decoding them from the
start never yields an invalid decode, which is when they are encodings of scalar values. -/
theorem utf8_decoding (b : Bytes) :
    (∀ i < b.length, ∃ d, getUtf8Uchar b i = some d ∧
      (∀ u n, utfDecodeIsValid d = true ∧ utfDecodeUchar d = u ∧ utfDecodeLength d = n ↔
        Scalar u ∧ encode u <+: bytesFrom b i ∧ (encode u).length = n) ∧
      (utfDecodeIsValid d = false → utfDecodeUchar d = rep ∧
        ∃ m, IsGreatest {k | Begins (bytesFrom b i) k} m ∧ utfDecodeLength d = max 1 m)) ∧
    (∀ i, b.length ≤ i → getUtf8Uchar b i = none) ∧
    ∃ v, isValidUtf8 b = some v ∧ (v = true ↔ NeverInvalid b 0) ∧
      (v = true ↔ Text (b.map UInt8.toNat)) := by
  refine ⟨fun i hi => ?_, fun i hi => ?_, ?_⟩
  · have hx : b[i]? = some (b.get ⟨i, hi⟩) := List.getElem?_eq_getElem hi
    rw [bytesFrom_eq hx]
    exact ⟨_, getUtf8Uchar_eq hx, decode_spec _ _⟩
  · rw [getUtf8Uchar, getUint8, List.getElem?_eq_none hi]
    rfl
  · exact isValidLoop_spec (i := 0) (Nat.zero_le _)

/-- A euro sign, a lone surrogate and the start of a sequence of four bytes -/
theorem utf8_decoding_euro :
    let b : Bytes := [0xE2, 0x82, 0xAC, 0xED, 0xA0, 0x80, 0xF0, 0x9F, 0x98]
    ∃ d, getUtf8Uchar b 0 = some d ∧ (utfDecodeIsValid d = true ∧ utfDecodeUchar d = 0x20AC ∧
      utfDecodeLength d = 3 ↔ Scalar 0x20AC ∧ encode 0x20AC <+: bytesFrom b 0 ∧
        (encode 0x20AC).length = 3) := by
  obtain ⟨hdecode, -⟩ := utf8_decoding [0xE2, 0x82, 0xAC, 0xED, 0xA0, 0x80, 0xF0, 0x9F, 0x98]
  obtain ⟨d, hd, hvalid, -⟩ := hdecode 0 (by decide)
  exact ⟨d, hd, hvalid 0x20AC 3⟩

end Spec

end Bytes

end TravLang
