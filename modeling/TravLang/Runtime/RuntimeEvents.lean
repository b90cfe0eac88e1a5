import TravLang.Runtime.Hash.Variant

/-!
# User events (`runtime/runtime_events.c`, `otherlibs/runtime_events/runtime_events_consumer.c`)

What `caml_runtime_events_user_write` writes to a ring for an event, and what the callbacks of the
consumer make of the message. Of a header only the length of the message matters.
-/

namespace TravLang.Runtime.RuntimeEvents

open HashVariant List

/-- The word that is written for an event of type `Int` -/
def userWriteInt (content : Int) : UInt64 := .ofInt (intVal content)

/-- The integer that `ml_user_int` passes to the callbacks -/
def mlUserInt (host : Host) (val : UInt64) : Int := valLong host val.toNat

/-- The length in the header of a message with `eventLength` words, and the bytes of these words -/
structure Message where
  length : Nat
  content : Bytes

/-- `write_to_ring`. A header has 10 bits for the length. -/
def writeToRing (eventLength : Nat) (content : Bytes) : Message :=
  ⟨(eventLength + 2) % 2 ^ 10, content.take (eventLength * 8)⟩

/-- The message that is written for a custom event when the encoder returns `res`. The result is
`none` when the block of the write buffer has no byte at an index that is accessed. -/
def userWriteCustom (host : Host) (block : Bytes) (res : Int) : Option Message :=
  let lenBytes := host.uintnat (intVal res)
  let words := host.uintnat (lenBytes + 8) / 8
  let offsetIndex := host.uintnat ((words * 8 : Nat) - 1)
  if offsetIndex < block.length ∧ words * 8 ≤ block.length then
    some (writeToRing words (block.set offsetIndex (.ofNat (offsetIndex - lenBytes))))
  else none

/-- The bytes that `ml_user_custom` copies to the read buffer, which has 1024 bytes, and their
number. The result is `none` when an access is outside of the message or of the read buffer. -/
def mlUserCustom (host : Host) (m : Message) : Option (Bytes × Nat) := do
  let stringLen := host.uintnat ((m.length - 2) * 8 - 1)
  let padding ← m.content[stringLen]?
  let len := host.uintnat (stringLen - (padding.toNat : Int).bmod 256)
  if len ≤ 1024 then return (m.content.take len, len) else none

section

variable {host : Host}

theorem intVal_valLong {n : Int} (h : InRange host n) : intVal (valLong host n) = int32 n := by
  obtain ⟨hlow, hhigh⟩ := inRange_bounds h
  have heven : (2 : Int) ^ (host.wordBits - 1) % 2 = 0 := by
    rcases wordBits_cases host with hbits | hbits <;> (rw [hbits]; decide)
  have hdouble : host.intnat (n <<< (1 : Nat)) = 2 * n := by
    rw [Int.shiftLeft_eq, intnat_eq_self (by omega) (by omega)]
    omega
  rw [valLong, hdouble, intnat_eq_self (by omega) (by omega), intVal, Int.shiftRight_eq_div_pow]
  congr 1
  omega

/-- The 32 low bits of a value arrive. -/
theorem mlUserInt_userWriteInt (h64 : host.sixtyFour = true) {n : Int} (h : InRange host n) :
    mlUserInt host (userWriteInt (valLong host n)) = valLong host (int32 n) := by
  have hbits : host.wordBits = 64 := by simp [Host.wordBits, Host.wordSize, h64]
  have hlow := Int.le_bmod (x := n) (show 0 < 2 ^ 32 by decide)
  have hhigh := Int.bmod_lt (x := n) (show 0 < 2 ^ 32 by decide)
  rw [userWriteInt, intVal_valLong h, mlUserInt, int32, UInt64.ofInt]
  generalize n.bmod (2 ^ 32) = k at hlow hhigh ⊢
  simp only [valLong, Host.intnat, hbits, Int.shiftLeft_eq]
  simp [Int.bmod_def]
  omega

/-- **An event of type `Int` carries its value exactly if the value fits into an `int`.** -/
theorem userInt_delivered (h64 : host.sixtyFour = true) {n : Int} (h : InRange host n) :
    mlUserInt host (userWriteInt (valLong host n)) = valLong host n ↔ -2 ^ 31 ≤ n ∧ n < 2 ^ 31 := by
  have hbits : host.wordBits = 64 := by simp [Host.wordBits, Host.wordSize, h64]
  rw [mlUserInt_userWriteInt h64 h]
  rw [InRange, hbits] at h
  simp only [valLong, Host.intnat, hbits, Int.shiftLeft_eq, int32]
  simp only [Int.bmod_def]
  omega

theorem userInt_delivered_minus_one : InRange ⟨true, false⟩ (-1) ∧ mlUserInt ⟨true, false⟩
    (userWriteInt (valLong ⟨true, false⟩ (-1))) = valLong ⟨true, false⟩ (-1) :=
  ⟨by decide, (userInt_delivered rfl (by decide)).mpr (by decide)⟩

theorem userInt_truncated : InRange ⟨true, false⟩ (2 ^ 31) ∧ mlUserInt ⟨true, false⟩
    (userWriteInt (valLong ⟨true, false⟩ (2 ^ 31))) = valLong ⟨true, false⟩ (-2 ^ 31) := by
  decide

theorem uintnat_small {z : Int} (k : Nat) (hz : z = k) (hk : k < 2 ^ 31) : host.uintnat z = k := by
  rw [hz]
  refine uintnat_natCast (Nat.lt_of_lt_of_le hk ?_)
  rcases wordBits_cases host with hbits | hbits <;> (rw [hbits]; decide)

/-- The message for a length that a write buffer can have -/
theorem userWriteCustom_eq {n : Nat} (hn : n ≤ 1024) (block : Bytes) :
    userWriteCustom host block (valLong host n) =
      if (n / 8 + 1) * 8 ≤ block.length then
        some (writeToRing (n / 8 + 1) (block.set (n / 8 * 8 + 7) (.ofNat (n / 8 * 8 + 7 - n))))
      else none := by
  have hrange : InRange host n := by
    unfold InRange
    rcases wordBits_cases host with hbits | hbits <;> (rw [hbits]; omega)
  have hint : int32 n = n := Int.bmod_eq_of_le (by omega) (by omega)
  have hoffset : host.uintnat (((n / 8 + 1) * 8 : Nat) - 1) = n / 8 * 8 + 7 :=
    uintnat_small _ (by omega) (by omega)
  simp only [userWriteCustom, intVal_valLong hrange, hint, uintnat_small n rfl (by omega),
    uintnat_small (n + 8) (by push_cast; rfl) (by omega), show (n + 8) / 8 = n / 8 + 1 by omega,
    hoffset]
  exact ite_congr (propext (by omega)) (fun _ => rfl) fun _ => rfl

/-- What the consumer makes of this message -/
theorem mlUserCustom_eq {n : Nat} (hn : n ≤ 1024) {block : Bytes}
    (hblock : (n / 8 + 1) * 8 ≤ block.length) :
    mlUserCustom host (writeToRing (n / 8 + 1)
      (block.set (n / 8 * 8 + 7) (.ofNat (n / 8 * 8 + 7 - n)))) = some (block.take n, n) := by
  have hback : host.uintnat ((n / 8 * 8 + 7 : Nat) -
      ((UInt8.ofNat (n / 8 * 8 + 7 - n)).toNat : Int).bmod 256) = n := by
    rw [UInt8.toNat_ofNat_of_lt' (show _ < 256 by omega), Int.bmod_eq_of_le (by omega) (by omega)]
    exact uintnat_small n (by omega) (by omega)
  have hlen : host.uintnat (((n / 8 + 1 + 2 : Nat) - 2) * 8 - 1) = n / 8 * 8 + 7 :=
    uintnat_small _ (by omega) (by omega)
  simp only [writeToRing, mlUserCustom, Option.bind_eq_bind,
    Nat.mod_eq_of_lt (show n / 8 + 1 + 2 < 2 ^ 10 by omega), hlen]
  rw [getElem?_take_of_lt (by omega), getElem?_set_self (by omega)]
  simp only [Option.bind_some, hback, if_pos hn, take_take]
  rw [Nat.min_eq_left (by omega), take_set_of_le (by omega)]
  rfl

/-- **A custom event carries what the encoder has written exactly if it returns a length of at most
1024 bytes**, which has to be less on a 32-bit host: there the block of the write buffer has 1028
bytes, and the padding is written after the last one. -/
theorem userCustom_delivered {n : Int} {block : Bytes}
    (hblock : block.length = (1024 / host.wordSize + 1) * host.wordSize) :
    (userWriteCustom host block (valLong host n) >>= mlUserCustom host).map
        (fun p => (p.1, (p.2 : Int))) = some (block.take n.toNat, n) ↔
      0 ≤ n ∧ n ≤ 1024 ∧ (host.sixtyFour = false → n ≠ 1024) := by
  have hlen : ∀ m ≤ 1024, (m / 8 + 1) * 8 ≤ block.length ↔
      (host.sixtyFour = false → m ≠ 1024) := by
    intro m hm
    cases h64 : host.sixtyFour <;> (simp [hblock, Host.wordSize, h64]; omega)
  constructor
  · intro h
    obtain ⟨⟨bytes, l⟩, hp, heq⟩ := Option.map_eq_some_iff.mp h
    obtain ⟨m, hm, hread⟩ := Option.bind_eq_some_iff.mp hp
    obtain rfl : (l : Int) = n := congrArg Prod.snd heq
    have hle : l ≤ 1024 := by
      obtain ⟨padding, -, hread⟩ := Option.bind_eq_some_iff.mp hread
      dsimp only at hread
      split at hread
      · next hle =>
        rwa [(Prod.mk.inj (Option.some.inj hread)).2] at hle
      · cases hread
    rw [userWriteCustom_eq hle] at hm
    split at hm
    · next hfits =>
      exact ⟨by omega, by omega, fun h32 => by have := (hlen _ hle).mp hfits h32; omega⟩
    · cases hm
  · rintro ⟨hpos, hle, hne⟩
    obtain ⟨m, rfl⟩ := Int.eq_ofNat_of_zero_le hpos
    have hfits := (hlen m (by omega)).mpr fun h32 => by have := hne h32; omega
    have hm : m ≤ 1024 := by omega
    rw [userWriteCustom_eq hm, if_pos hfits, Option.bind_eq_bind,
      Option.bind_some, mlUserCustom_eq hm hfits]
    rfl

theorem userCustom_delivered_one : (replicate 1032 97).length = (1024 / 8 + 1) * 8 ∧
    (userWriteCustom ⟨true, false⟩ (replicate 1032 97) (valLong ⟨true, false⟩ 1) >>=
      mlUserCustom ⟨true, false⟩).map (fun p => (p.1, (p.2 : Int))) =
        some ((replicate 1032 97).take 1, 1) :=
  ⟨length_replicate .., (userCustom_delivered (length_replicate ..)).mpr (by decide)⟩

/-- Nothing checks what the encoder returns: the padding is written outside of the block for a
length of 1032 bytes, and for a length of 1025 bytes the read buffer overflows. -/
theorem userCustom_outside :
    userWriteCustom ⟨true, false⟩ (replicate 1032 97) (valLong ⟨true, false⟩ 1032) = none ∧
      (userWriteCustom ⟨true, false⟩ (replicate 1032 97) (valLong ⟨true, false⟩ 1025) >>=
        mlUserCustom ⟨true, false⟩) = none := by
  decide +kernel

end

end TravLang.Runtime.RuntimeEvents
