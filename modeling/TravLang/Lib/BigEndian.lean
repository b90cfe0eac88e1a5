import Mathlib.Tactic.Ring

/-!
# Numbers in big-endian byte order
-/

namespace BigEndian

/-- The `k` low bytes of a number in two's complement, the most significant one first. -/
def store : Nat → Int → List UInt8
  | 0, _ => []
  | k + 1, n => UInt8.ofInt (n >>> (8 * k)) :: store k n

/-- The number that bytes stand for, the most significant one first. -/
def load (bs : List UInt8) : Nat := bs.foldl (fun acc b => acc * 256 + b.toNat) 0

/-- The same bytes in two's complement. -/
def loadSigned (bs : List UInt8) : Int := Int.bmod (load bs) (256 ^ bs.length)

@[simp] theorem length_store (k : Nat) (n : Int) : (store k n).length = k := by
  induction k with
  | zero => rfl
  | succ k ih => rw [store, List.length_cons, ih]

theorem toNat_ofInt (n : Int) : ((UInt8.ofInt n).toNat : Int) = n % 256 := by
  have h : (UInt8.ofInt n).toNat = (n % 256).toNat % 256 := rfl
  omega

/-- The `k + 1` low bytes are a byte and the `k` bytes below it. -/
theorem emod_pow_succ (n : Int) (k : Nat) :
    n % 256 ^ (k + 1) = n / 256 ^ k % 256 * 256 ^ k + n % 256 ^ k := by
  have hpos : (0 : Int) < 256 ^ k := Int.pow_pos (by decide)
  have hlow := Int.emod_nonneg n hpos.ne'
  have hlow' := Int.emod_lt_of_pos n hpos
  have hbyte := Int.emod_nonneg (n / 256 ^ k) (show (256 : Int) ≠ 0 by decide)
  have hbyte' : n / 256 ^ k % 256 ≤ 255 := by omega
  have hn : n = n / 256 ^ k % 256 * 256 ^ k + n % 256 ^ k +
      256 ^ (k + 1) * (n / 256 ^ k / 256) := by
    calc n = 256 ^ k * (n / 256 ^ k) + n % 256 ^ k := (Int.mul_ediv_add_emod n _).symm
      _ = 256 ^ k * (256 * (n / 256 ^ k / 256) + n / 256 ^ k % 256) + n % 256 ^ k := by
        rw [Int.mul_ediv_add_emod (n / 256 ^ k) 256]
      _ = _ := by ring
  rw [hn, Int.add_mul_emod_self_left, ← hn]
  refine Int.emod_eq_of_lt (Int.add_nonneg (Int.mul_nonneg hbyte hpos.le) hlow) ?_
  calc n / 256 ^ k % 256 * 256 ^ k + n % 256 ^ k
      < 255 * 256 ^ k + 256 ^ k := by
        have := Int.mul_le_mul_of_nonneg_right hbyte' hpos.le
        omega
    _ = 256 ^ (k + 1) := by ring

theorem foldl_store (n : Int) : ∀ (k acc : Nat),
    (((store k n).foldl (fun acc b => acc * 256 + b.toNat) acc : Nat) : Int) =
      acc * 256 ^ k + n % 256 ^ k
  | 0, acc => by simp [store]
  | k + 1, acc => by
    rw [store, List.foldl_cons, foldl_store n k, emod_pow_succ, Int.natCast_add, toNat_ofInt,
      Int.shiftRight_eq_div_pow, Int.natCast_mul, Nat.pow_mul]
    push_cast
    ring

/-- **What is stored is read back, up to the bytes that were cut off.** -/
theorem load_store (k : Nat) (n : Int) : (load (store k n) : Int) = n % 256 ^ k := by
  rw [load, foldl_store, Int.natCast_zero, Int.zero_mul, Int.zero_add]

theorem load_store_of_lt {k n : Nat} (h : n < 256 ^ k) : load (store k n) = n := by
  have hload := load_store k n
  rw [Int.emod_eq_of_lt (Int.natCast_nonneg n) (by exact_mod_cast h)] at hload
  exact_mod_cast hload

theorem loadSigned_store {k : Nat} {n : Int} (h : -256 ^ k ≤ n * 2) (h' : n * 2 < 256 ^ k) :
    loadSigned (store k n) = n := by
  have hcast : ((256 ^ k : Nat) : Int) = 256 ^ k := by push_cast; rfl
  rw [loadSigned, length_store, load_store, ← hcast, Int.emod_bmod,
    Int.bmod_eq_of_le_mul_two (by rw [hcast]; exact h) (by rw [hcast]; exact h')]

end BigEndian
