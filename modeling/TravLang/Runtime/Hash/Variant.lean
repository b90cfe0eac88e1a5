import TravLang.Runtime.Words

/-!
# The hash of variant tags (`typing/btype.ml`, `runtime/hash.c`)

The compiler and the runtime compute the same hash in integers of 63, 31 and 32 bits. All of them
keep the 31 low bits of the number, which is what is left of it in the end.
-/

namespace TravLang.Runtime.HashVariant

/-- The bits that two numbers of `w` bits have in common -/
def land (w : Nat) (a b : Int) : Int := (BitVec.ofInt w a &&& BitVec.ofInt w b).toInt

/-- `Btype.hash_variant` -/
def hashVariant (host : Host) (s : Bytes) : Int :=
  let accu := s.foldl (fun accu c => host.int (host.int (223 * accu) + c.toNat)) 0
  -- reduce to 31 bits
  let accu := land (host.wordBits - 1) accu (host.int (host.int ((1 : Int) <<< (31 : Nat)) - 1))
  -- make it signed for 64 bits architectures
  if accu > 0x3FFFFFFF then host.int (accu - host.int ((1 : Int) <<< (31 : Nat))) else accu

/-- The word that `Val_long` and `Val_int` make of a number -/
def valLong (host : Host) (n : Int) : Int := host.intnat (host.intnat (n <<< (1 : Nat)) + 1)

/-- A number that is stored in an `int` -/
def int32 (n : Int) : Int := n.bmod (2 ^ 32)

/-- `Int_val` -/
def intVal (v : Int) : Int := int32 (v >>> (1 : Nat))

/-- The loop of `caml_hash_variant`. A null byte ends the string. -/
def hashTag (host : Host) : Int → List UInt8 → Int
  | accu, [] => accu
  | accu, c :: tag =>
    if c = 0 then accu
    else hashTag host (valLong host (int32 (int32 (223 * intVal accu) + c.toNat))) tag

/-- `caml_hash_variant` -/
def camlHashVariant (host : Host) (tag : List UInt8) : Int :=
  let accu := hashTag host (valLong host 0) tag
  let accu := if host.sixtyFour then land 64 accu (valLong host 0x7FFFFFFF) else accu
  int32 accu

/-- The hash before it is reduced -/
def hash (h : Int) (s : Bytes) : Int := s.foldl (fun h c => 223 * h + c.toNat) h

theorem land_mask {w k : Nat} (hk : k < w) (a : Int) : land w a (2 ^ k - 1) = a % 2 ^ k := by
  have hpow : 2 ^ k * 2 ≤ 2 ^ w := by
    rw [← Nat.pow_succ]
    exact Nat.pow_le_pow_right (by decide) hk
  have hpos : 0 < 2 ^ k := Nat.two_pow_pos k
  have hmask : (BitVec.ofInt w (2 ^ k - 1)).toNat = 2 ^ k - 1 := by
    have hcast : (2 ^ k - 1 : Int) = (2 ^ k - 1 : Nat) := by push_cast [Nat.one_le_two_pow]; rfl
    rw [BitVec.toNat_ofInt, hcast, ← Int.natCast_emod, Int.toNat_natCast]
    exact Nat.mod_eq_of_lt (by omega)
  have hlow : ((BitVec.ofInt w a).toNat % 2 ^ k : Nat) = a % 2 ^ k := by
    have hne : ((2 ^ w : Nat) : Int) ≠ 0 := by exact_mod_cast (Nat.two_pow_pos w).ne'
    have hmod := Int.emod_nonneg a hne
    rw [Int.natCast_emod, BitVec.toNat_ofInt, Int.toNat_of_nonneg hmod]
    push_cast
    exact Int.emod_emod_of_dvd a (pow_dvd_pow 2 hk.le)
  rw [land, BitVec.toInt_and, hmask, Nat.and_two_pow_sub_one_eq_mod, ← hlow]
  exact Int.bmod_eq_of_le_mul_two (by omega) (by omega)

section

variable (host : Host)

include host

/-- Integers of the language keep the 31 low bits. -/
theorem int_emod (n : Int) : host.int n % 2 ^ 31 = n % 2 ^ 31 := by
  unfold Host.int
  rcases wordBits_cases host with hbits | hbits <;> rw [hbits, Int.bmod_def] <;> omega

theorem foldl_int (s : Bytes) : ∀ accu h : Int, accu % 2 ^ 31 = h % 2 ^ 31 →
    s.foldl (fun accu c => host.int (host.int (223 * accu) + c.toNat)) accu % 2 ^ 31 =
      hash h s % 2 ^ 31 := by
  induction s with
  | nil => exact fun _ _ h => h
  | cons c s ih =>
    intro accu h hh
    refine ih _ _ ?_
    dsimp only
    have hmul := int_emod host (223 * accu)
    have hadd := int_emod host (host.int (223 * accu) + c.toNat)
    omega

theorem hashVariant_eq (s : Bytes) : hashVariant host s = (hash 0 s).bmod (2 ^ 31) := by
  have hloop := foldl_int host s 0 0 rfl
  unfold hashVariant
  dsimp only
  generalize List.foldl (β := UInt8) _ (0 : Int) s = accu at hloop ⊢
  rcases wordBits_cases host with hbits | hbits
  · have hint : ∀ n : Int, host.int n = n.bmod (2 ^ 63) := by simp [Host.int, hbits]
    have hmask : host.int (host.int ((1 : Int) <<< (31 : Nat)) - 1) = 2 ^ 31 - 1 := by
      rw [hint, hint]
      decide
    rw [hmask, hbits, land_mask (by decide), hloop, hint, hint, Int.bmod_def, Int.bmod_def,
      Int.bmod_def]
    simp only [show (1 : Int) <<< (31 : Nat) = 2 ^ 31 from rfl]
    omega
  · have hint : ∀ n : Int, host.int n = n.bmod (2 ^ 31) := by simp [Host.int, hbits]
    have hmask : host.int (host.int ((1 : Int) <<< (31 : Nat)) - 1) = -1 := by
      rw [hint, hint]
      decide
    rw [hmask, hbits, land, show BitVec.ofInt (32 - 1) (-1) = BitVec.allOnes 31 from rfl,
      BitVec.and_allOnes, BitVec.toInt_ofInt, Int.bmod_def, Int.bmod_def]
    omega

/-- Words keep the 32 low bits. -/
theorem valLong_emod (n : Int) : valLong host n % 2 ^ 32 = (2 * n + 1) % 2 ^ 32 := by
  unfold valLong Host.intnat
  rw [Int.shiftLeft_eq]
  rcases wordBits_cases host with hbits | hbits <;>
    rw [hbits, Int.bmod_def, Int.bmod_def] <;> omega

theorem hashTag_emod {s : Bytes} (hs : 0 ∉ s) : ∀ accu h : Int,
    accu % 2 ^ 32 = (2 * h + 1) % 2 ^ 32 → hashTag host accu s % 2 ^ 32 =
      (2 * hash h s + 1) % 2 ^ 32 := by
  induction s with
  | nil => exact fun _ _ h => h
  | cons c s ih =>
    intro accu h hh
    obtain ⟨hc, hs⟩ := not_or.mp fun h => hs (List.mem_cons.mpr h)
    rw [hashTag, if_neg (Ne.symm hc)]
    refine ih hs _ _ ?_
    have hval := valLong_emod host (int32 (int32 (223 * intVal accu) + c.toNat))
    unfold intVal int32 at *
    simp only [Int.bmod_def, Int.shiftRight_eq_div_pow] at *
    omega

theorem camlHashVariant_eq {s : Bytes} (hs : 0 ∉ s) :
    camlHashVariant host s = valLong host ((hash 0 s).bmod (2 ^ 31)) := by
  have hloop := hashTag_emod host hs (valLong host 0) 0 (valLong_emod host 0)
  unfold camlHashVariant int32
  generalize hashTag host (valLong host 0) s = accu at hloop
  have hval : valLong host ((hash 0 s).bmod (2 ^ 31)) = 2 * (hash 0 s).bmod (2 ^ 31) + 1 := by
    unfold valLong Host.intnat
    rw [Int.shiftLeft_eq]
    rcases wordBits_cases host with hbits | hbits <;>
      rw [hbits, Int.bmod_def, Int.bmod_def, Int.bmod_def] <;> omega
  have hmask : host.sixtyFour = true → valLong host 0x7FFFFFFF = 2 ^ 32 - 1 := by
    intro hsixty
    unfold valLong Host.intnat
    rw [show host.wordBits = 64 by simp [Host.wordBits, Host.wordSize, hsixty]]
    decide
  have hlow : (if host.sixtyFour then land 64 accu (valLong host 0x7FFFFFFF) else accu) % 2 ^ 32 =
      accu % 2 ^ 32 := by
    split
    · next hsixty => rw [hmask hsixty, land_mask (by decide), Int.emod_emod]
    · rfl
  rw [hval, Int.bmod_def, Int.bmod_def]
  omega

end

/-- **The hash of a tag is the same number on all platforms**, in the compiler and in the
runtime. -/
theorem hash_variant_portable {s : Bytes} (hs : 0 ∉ s) :
    ∃ n : Int, -2 ^ 30 ≤ n ∧ n < 2 ^ 30 ∧ ∀ host, hashVariant host s = n ∧
      camlHashVariant host s = valLong host n := by
  refine ⟨(hash 0 s).bmod (2 ^ 31), ?_, ?_, fun host =>
    ⟨hashVariant_eq host s, camlHashVariant_eq host hs⟩⟩ <;> rw [Int.bmod_def] <;> omega

theorem hash_variant_portable_foo : 0 ∉ ([102, 111, 111] : Bytes) ∧
    ∃ n : Int, ∀ host, hashVariant host [102, 111, 111] = n ∧
      camlHashVariant host [102, 111, 111] = valLong host n := by
  have hs : 0 ∉ ([102, 111, 111] : Bytes) := by decide
  obtain ⟨n, -, -, hn⟩ := hash_variant_portable hs
  exact ⟨hs, n, hn⟩

end TravLang.Runtime.HashVariant
