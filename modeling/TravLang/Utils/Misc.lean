import Mathlib.Algebra.Group.Int.Defs
import Mathlib.Algebra.Group.Nat.Defs
import Mathlib.Data.Int.Order.Basic

/-!
# The search for the first integer that meets a monotone predicate (`utils/misc.ml`)

Integers have `W` bits, and every sum, difference and product of the source is wrapped. The search
also returns its probes: the two numbers whose sum the predicate was applied to, in order.
-/

namespace TravLang.Misc

/-- An integer of `W` bits. -/
def wrap (W : Nat) (z : Int) : Int := z.bmod (2 ^ W)

/-- `max_int`. -/
def maxInt (W : Nat) : Int := 2 ^ (W - 1) - 1

/-- An evaluation of the predicate, at `low + jump`. -/
structure Probe where
  low : Int
  jump : Int
  deriving DecidableEq, Repr

/-- The local function `find` of `find_first_mono`; the first argument bounds its depth. -/
def find (W : Nat) (p : Int → Bool) : Nat → Int → Int → Int → Option (Int × List Probe)
  | 0, _, _, _ => none
  | fuel + 1, low, jump, high =>
    if wrap W (low + 1) = high then some (high, [])
    else if jump < 1 then find W p fuel low 1 high
    else if wrap W (high - low) ≤ jump then find W p fuel low ((wrap W (high - low)).tdiv 2) high
    else
      let probed :=
        if p (wrap W (low + jump)) then find W p fuel low (jump.tdiv 2) (wrap W (low + jump))
        else find W p fuel (wrap W (low + jump)) (max jump (wrap W (2 * jump))) high
      probed.map fun r => (r.1, ⟨low, jump⟩ :: r.2)

/-- `find_first_mono`. -/
def findFirstMono (W : Nat) (p : Int → Bool) (fuel : Nat) : Option (Int × List Probe) :=
  let found := if p 0 then some (0, []) else find W p fuel 0 1 (maxInt W)
  found.map fun r => (r.1, ⟨0, 0⟩ :: r.2)

/-! ## The search -/

theorem wrap_of_range {W : Nat} (hW : 2 ≤ W) {z : Int} (h0 : 0 ≤ z) (h : z ≤ maxInt W) :
    wrap W z = z := by
  obtain ⟨n, rfl⟩ : ∃ n, W = n + 1 := ⟨W - 1, by omega⟩
  have hpow : (2 : Int) ^ (n + 1) = 2 * 2 ^ n := by rw [Int.pow_succ]; omega
  simp only [maxInt, Nat.add_sub_cancel] at h
  refine Int.bmod_eq_of_le ?_ ?_ <;> push_cast <;> omega

/-- The calls that `find` still makes: an adjustment of the jump is followed by a probe. -/
def measure (low jump high : Int) : Nat :=
  2 * (high - low).toNat + (if 1 ≤ jump ∧ jump < high - low then 0 else 1)

/-- **The interval `(low, high]` keeps the first integer that meets the predicate**, whatever the
jump is: only a jump that stays inside of the interval is ever added. -/
theorem find_spec {W : Nat} (hW : 2 ≤ W) {p : Int → Bool} {N : Int}
    (hbelow : ∀ x, 0 ≤ x → x < N → p x = false)
    (habove : ∀ x, N ≤ x → x ≤ maxInt W → p x = true) :
    ∀ (n : Nat) (low jump high : Int), measure low jump high < n → 0 ≤ low → low < N → N ≤ high →
      high ≤ maxInt W →
      ∃ probes, (∀ fuel, n ≤ fuel → find W p fuel low jump high = some (N, probes)) ∧
        ∀ q ∈ probes, 0 ≤ q.low + q.jump ∧ q.low + q.jump < maxInt W
  | 0, _, _, _, hn, _, _, _, _ => absurd hn (by omega)
  | n + 1, low, jump, high, hn, hlow, hlN, hNh, hhigh => by
    -- Every call peels one unit off a fuel that is large enough.
    have hpeel : ∀ {r : Int × List Probe},
        (∀ fuel, n ≤ fuel → find W p (fuel + 1) low jump high = some r) →
        ∀ fuel, n + 1 ≤ fuel → find W p fuel low jump high = some r := by
      intro r h fuel hfuel
      obtain ⟨m, rfl⟩ : ∃ m, fuel = m + 1 := ⟨fuel - 1, by omega⟩
      exact h m (by omega)
    have hlow1 : wrap W (low + 1) = low + 1 := wrap_of_range hW (by omega) (by omega)
    have hdiff : wrap W (high - low) = high - low := wrap_of_range hW (by omega) (by omega)
    by_cases hend : low + 1 = high
    · refine ⟨[], hpeel fun fuel _ => ?_, by simp⟩
      simp only [find, hlow1, if_pos hend]
      congr 2
      omega
    by_cases hsmall : jump < 1
    · obtain ⟨probes, hfind, hprobes⟩ := find_spec hW hbelow habove n low 1 high
        (by simp only [measure] at hn ⊢; split at hn <;> split <;> omega) hlow hlN hNh hhigh
      refine ⟨probes, hpeel fun fuel hfuel => ?_, hprobes⟩
      simp only [find, hlow1, if_neg hend, if_pos hsmall, hfind fuel hfuel]
    by_cases hlarge : high - low ≤ jump
    · obtain ⟨probes, hfind, hprobes⟩ := find_spec hW hbelow habove n low ((high - low).tdiv 2) high
        (by simp only [measure, Int.tdiv_eq_ediv_of_nonneg (by omega : 0 ≤ high - low)] at hn ⊢
            split at hn <;> split <;> omega) hlow hlN hNh hhigh
      refine ⟨probes, hpeel fun fuel hfuel => ?_, hprobes⟩
      simp only [find, hlow1, hdiff, if_neg hend, if_neg hsmall, if_pos hlarge, hfind fuel hfuel]
    have hsum : wrap W (low + jump) = low + jump := wrap_of_range hW (by omega) (by omega)
    have hstep : ∀ jump' : Int, measure low jump' (low + jump) < n ∧
        measure (low + jump) jump' high < n := by
      intro jump'
      simp only [measure] at hn ⊢
      constructor <;> split at hn <;> split <;> omega
    cases hp : p (low + jump) with
    | true =>
      have hN : N ≤ low + jump := by
        by_contra hlt
        simp [hbelow _ (by omega) (by omega : low + jump < N)] at hp
      obtain ⟨probes, hfind, hprobes⟩ := find_spec hW hbelow habove n low (jump.tdiv 2) (low + jump)
        (hstep _).1 hlow hlN hN (by omega)
      refine ⟨⟨low, jump⟩ :: probes, hpeel fun fuel hfuel => ?_, ?_⟩
      · simp [find, hlow1, hdiff, hsum, hend, hsmall, hlarge, hp, hfind fuel hfuel]
      · simpa using ⟨⟨by omega, by omega⟩, hprobes⟩
    | false =>
      have hN : low + jump < N := by
        by_contra hle
        simp [habove _ (by omega : N ≤ low + jump) (by omega)] at hp
      obtain ⟨probes, hfind, hprobes⟩ := find_spec hW hbelow habove n (low + jump)
        (max jump (wrap W (2 * jump))) high (hstep _).2 (by omega) hN hNh hhigh
      refine ⟨⟨low, jump⟩ :: probes, hpeel fun fuel hfuel => ?_, ?_⟩
      · simp [find, hlow1, hdiff, hsum, hend, hsmall, hlarge, hp, hfind fuel hfuel]
      · simpa using ⟨⟨by omega, by omega⟩, hprobes⟩

/-- **The search ends at the first integer that meets the predicate.** No sum `low + jump` exceeds
`max_int`, and the predicate is only evaluated at non-negative integers below `max_int`. -/
theorem findFirstMono_spec {W : Nat} (hW : 2 ≤ W) {p : Int → Bool} {N : Int} (hN0 : 0 ≤ N)
    (hN : N ≤ maxInt W) (hbelow : ∀ x, 0 ≤ x → x < N → p x = false)
    (habove : ∀ x, N ≤ x → x ≤ maxInt W → p x = true) :
    ∃ bound probes, (∀ fuel, bound ≤ fuel → findFirstMono W p fuel = some (N, probes)) ∧
      ∀ q ∈ probes, 0 ≤ q.low + q.jump ∧ q.low + q.jump < maxInt W ∧
        wrap W (q.low + q.jump) = q.low + q.jump := by
  have hmax : 0 < maxInt W := by
    obtain ⟨n, rfl⟩ : ∃ n, W = n + 2 := ⟨W - 2, by omega⟩
    have hpow : (2 : Int) ^ (n + 1) = 2 * 2 ^ n := by rw [Int.pow_succ]; omega
    have hpos : (0 : Int) < 2 ^ n := Int.pow_pos (by decide)
    simp only [maxInt, show n + 2 - 1 = n + 1 from rfl]
    omega
  have hwrap : ∀ {probes : List Probe},
      (∀ q ∈ probes, 0 ≤ q.low + q.jump ∧ q.low + q.jump < maxInt W) →
      ∀ q ∈ Probe.mk 0 0 :: probes, 0 ≤ q.low + q.jump ∧ q.low + q.jump < maxInt W ∧
        wrap W (q.low + q.jump) = q.low + q.jump := by
    intro probes h q hq
    have hq' : 0 ≤ q.low + q.jump ∧ q.low + q.jump < maxInt W := by
      rcases List.mem_cons.mp hq with rfl | hq
      · simpa using hmax
      · exact h q hq
    exact ⟨hq'.1, hq'.2, wrap_of_range hW hq'.1 (by omega)⟩
  cases hp : p 0 with
  | true =>
    have : N = 0 := by
      by_contra hne
      simp [hbelow 0 le_rfl (by omega)] at hp
    subst this
    exact ⟨0, [⟨0, 0⟩], fun fuel _ => by simp [findFirstMono, hp], hwrap (by simp)⟩
  | false =>
    have hlt : 0 < N := by
      by_contra hle
      simp [habove 0 (by omega) (by omega)] at hp
    obtain ⟨probes, hfind, hprobes⟩ :=
      find_spec hW hbelow habove (measure 0 1 (maxInt W) + 1) 0 1 (maxInt W) (Nat.lt_succ_self _)
        le_rfl hlt hN le_rfl
    exact ⟨measure 0 1 (maxInt W) + 1, ⟨0, 0⟩ :: probes,
      fun fuel hfuel => by simp [findFirstMono, hp, hfind fuel hfuel], hwrap hprobes⟩

theorem findFirstMono_spec_five : ∃ bound probes,
    (∀ fuel, bound ≤ fuel → findFirstMono 63 (fun x => decide (5 ≤ x)) fuel = some (5, probes)) ∧
      ∀ q ∈ probes, 0 ≤ q.low + q.jump ∧ q.low + q.jump < maxInt 63 ∧
        wrap 63 (q.low + q.jump) = q.low + q.jump :=
  findFirstMono_spec (by decide) (by decide) (by decide)
    (fun _ _ h => decide_eq_false (by omega)) (fun _ h _ => decide_eq_true h)

end TravLang.Misc
