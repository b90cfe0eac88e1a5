import Mathlib.Tactic.Ring
import TravLang.Runtime.Mlvalues

/-!
# Machine words

Conversions of integers to `intnat` and `uintnat`: which numbers they keep, and how comparisons of
words compare the numbers.
-/

namespace TravLang.Runtime

/-- The integer of the language that `Val_long` makes of a number -/
def Host.int (host : Host) (n : Int) : Int := n.bmod (2 ^ (host.wordBits - 1))

variable {host : Host} {n : Int}

theorem two_pow_wordBits (host : Host) :
    (2 : Int) ^ host.wordBits = 2 * 2 ^ (host.wordBits - 1) := by
  rcases wordBits_cases host with hbits | hbits <;> (rw [hbits]; decide)

/-- Long integers have a bit less than words. -/
theorem inRange_bounds (h : InRange host n) :
    -2 ^ (host.wordBits - 1) ≤ 2 * n ∧ 2 * n < 2 ^ (host.wordBits - 1) := by
  have hpow : (2 : Int) ^ (host.wordBits - 1) = 2 * 2 ^ (host.wordBits - 2) := by
    rcases wordBits_cases host with hbits | hbits <;> (rw [hbits]; decide)
  obtain ⟨hlow, hhigh⟩ := h
  omega

theorem uintnat_lt (host : Host) (n : Int) : host.uintnat n < 2 ^ host.wordBits := by
  have hpos : (0 : Int) < 2 ^ host.wordBits := Int.pow_pos (by decide)
  have hlt := Int.emod_lt_of_pos n hpos
  unfold Host.uintnat
  exact (Int.toNat_lt (Int.emod_nonneg n (Int.ne_of_gt hpos))).mpr (by exact_mod_cast hlt)

theorem uintnat_natCast {n : Nat} (h : n < 2 ^ host.wordBits) : host.uintnat n = n := by
  unfold Host.uintnat
  rw [Int.emod_eq_of_lt (Int.natCast_nonneg n) (by exact_mod_cast h), Int.toNat_natCast]

theorem uintnat_congr {a c : Int} (h : a % 2 ^ host.wordBits = c % 2 ^ host.wordBits) :
    host.uintnat a = host.uintnat c := by
  unfold Host.uintnat
  rw [h]

theorem intnat_emod (host : Host) (n : Int) :
    host.intnat n % 2 ^ host.wordBits = n % 2 ^ host.wordBits := by
  unfold Host.intnat
  exact_mod_cast Int.bmod_emod

theorem intnat_eq_self (hlow : -2 ^ (host.wordBits - 1) ≤ n)
    (hhigh : n < 2 ^ (host.wordBits - 1)) : host.intnat n = n := by
  have hpow := two_pow_wordBits host
  unfold Host.intnat
  exact Int.bmod_eq_of_le (by push_cast; omega) (by push_cast; omega)

theorem uintnat_eq_toNat {d : Int} (hd : 0 ≤ d) (hd' : d < 2 ^ host.wordBits) :
    host.uintnat d = d.toNat := by
  unfold Host.uintnat
  rw [Int.emod_eq_of_lt hd hd']

/-- A negative number is a very large one without its sign. -/
theorem uintnat_lt_iff {i d : Int} (hi : -2 ^ (host.wordBits - 1) ≤ i)
    (hi' : i < 2 ^ (host.wordBits - 1)) (hd : 0 ≤ d) (hd' : d < 2 ^ (host.wordBits - 1)) :
    host.uintnat i < host.uintnat d ↔ 0 ≤ i ∧ i < d := by
  have hpow := two_pow_wordBits host
  rw [uintnat_eq_toNat hd (by omega)]
  by_cases hneg : 0 ≤ i
  · rw [uintnat_eq_toNat hneg (by omega)]
    omega
  · have hmod : i % 2 ^ host.wordBits = i + 2 ^ host.wordBits := by
      rw [← Int.add_emod_right, Int.emod_eq_of_lt (by omega) (by omega)]
    unfold Host.uintnat
    rw [hmod]
    omega

theorem uintnat_natCast_mod (host : Host) (n : Nat) :
    host.uintnat n = n % 2 ^ host.wordBits := by
  unfold Host.uintnat
  exact_mod_cast Int.toNat_natCast _

theorem uintnat_neg_one (host : Host) : host.uintnat (-1) = 2 ^ host.wordBits - 1 := by
  rcases wordBits_cases host with hbits | hbits <;> (rw [Host.uintnat, hbits]; decide)

theorem intnat_neg_intnat (host : Host) (n : Int) :
    host.intnat (-host.intnat n) = host.intnat (-n) := by
  unfold Host.intnat
  exact Int.bmod_neg_bmod

theorem int_of_inRange (h : InRange host n) : host.int n = n := by
  obtain ⟨hlow, hhigh⟩ := inRange_bounds h
  unfold Host.int
  exact Int.bmod_eq_of_le (by push_cast; omega) (by push_cast; omega)

end TravLang.Runtime
