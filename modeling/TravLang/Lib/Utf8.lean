import Mathlib.Order.Bounds.Defs
import Mathlib.Data.List.Basic

/-!
# UTF-8

The encoding of a scalar value is given by arithmetic on it. A byte sequence is the encoding of one
exactly if its first byte allows for its length, its second byte is in a range that depends on the
first one, and the other bytes are in `80..BF`.

* `fits_encode`, `encode_value` — encodings and these sequences correspond to each other
* `isGreatest_matched` — how much of an encoding there is at the front of a sequence of bytes
-/

namespace Utf8

open List

/-- Scalar values: code points that are not surrogates -/
def Scalar (u : Nat) : Prop := u < 0xD800 ∨ 0xE000 ≤ u ∧ u < 0x110000

def encode (u : Nat) : List Nat :=
  if u < 0x80 then [u]
  else if u < 0x800 then [0xC0 + u / 64, 0x80 + u % 64]
  else if u < 0x10000 then [0xE0 + u / 4096, 0x80 + u / 64 % 64, 0x80 + u % 64]
  else [0xF0 + u / 262144, 0x80 + u / 4096 % 64, 0x80 + u / 64 % 64, 0x80 + u % 64]

/-- The encoding of a scalar value -/
def WellFormed (w : List Nat) : Prop := ∃ u, Scalar u ∧ encode u = w

/-- What may follow a first byte: a number of bytes, and a range for the first of them. -/
structure Lead where
  count : Nat
  low : Nat
  high : Nat
  deriving DecidableEq

def lead (b : Nat) : Option Lead :=
  if b < 0x80 then some ⟨0, 0x80, 0xBF⟩
  else if b < 0xC2 then none
  else if b < 0xE0 then some ⟨1, 0x80, 0xBF⟩
  else if b = 0xE0 then some ⟨2, 0xA0, 0xBF⟩
  else if b = 0xED then some ⟨2, 0x80, 0x9F⟩
  else if b < 0xF0 then some ⟨2, 0x80, 0xBF⟩
  else if b = 0xF0 then some ⟨3, 0x90, 0xBF⟩
  else if b < 0xF4 then some ⟨3, 0x80, 0xBF⟩
  else if b = 0xF4 then some ⟨3, 0x80, 0x8F⟩
  else none

/-- As many continuation bytes as there should be, the first one in its range. -/
def Fits : Nat → Nat → Nat → List Nat → Prop
  | 0, _, _, l => l = []
  | n + 1, low, high, l => ∃ b r, l = b :: r ∧ low ≤ b ∧ b ≤ high ∧ Fits n 0x80 0xBF r

/-- The scalar value that a first byte and continuation bytes stand for -/
def value (b : Nat) : List Nat → Nat
  | [] => b
  | [b1] => b % 32 * 64 + b1 % 64
  | [b1, b2] => b % 16 * 4096 + b1 % 64 * 64 + b2 % 64
  | b1 :: b2 :: b3 :: _ => b % 8 * 262144 + b1 % 64 * 4096 + b2 % 64 * 64 + b3 % 64

theorem Fits.length : ∀ {n low high : Nat} {l : List Nat}, Fits n low high l → l.length = n
  | 0, _, _, _, h => by rw [h]; rfl
  | n + 1, _, _, _, ⟨b, r, hl, _, _, h⟩ => by rw [hl, length_cons, h.length]

/-! ## First bytes -/

variable {b u high low n : Nat} {l : Lead} {r : List Nat}

theorem lead_one (h : b < 0x80) : lead b = some ⟨0, 0x80, 0xBF⟩ := if_pos h

theorem lead_two (h : 0xC2 ≤ b) (h' : b < 0xE0) : lead b = some ⟨1, 0x80, 0xBF⟩ := by
  unfold lead
  rw [if_neg (by omega), if_neg (by omega), if_pos h']

theorem lead_three (h : 0xE0 ≤ b) (h' : b < 0xF0) :
    lead b = some ⟨2, if b = 0xE0 then 0xA0 else 0x80, if b = 0xED then 0x9F else 0xBF⟩ := by
  unfold lead
  rw [if_neg (by omega), if_neg (by omega), if_neg (by omega), if_pos h']
  by_cases he0 : b = 0xE0
  · rw [if_pos he0, if_pos he0, if_neg (by omega)]
  · rw [if_neg he0, if_neg he0]
    split <;> rfl

theorem lead_four (h : 0xF0 ≤ b) (h' : b ≤ 0xF4) :
    lead b = some ⟨3, if b = 0xF0 then 0x90 else 0x80, if b = 0xF4 then 0x8F else 0xBF⟩ := by
  unfold lead
  rw [if_neg (by omega), if_neg (by omega), if_neg (by omega), if_neg (by omega),
    if_neg (by omega), if_neg (by omega)]
  by_cases hf0 : b = 0xF0
  · rw [if_pos hf0, if_pos hf0, if_neg (by omega)]
  · rw [if_neg hf0, if_neg hf0]
    by_cases hf4 : b = 0xF4
    · rw [if_neg (by omega), if_pos hf4, if_pos hf4]
    · rw [if_pos (by omega), if_neg hf4]

theorem lead_none (h : 0x80 ≤ b ∧ b < 0xC2 ∨ 0xF4 < b) : lead b = none := by
  unfold lead
  split
  · omega
  · split
    · rfl
    · rw [if_neg (by omega), if_neg (by omega), if_neg (by omega), if_neg (by omega),
        if_neg (by omega), if_neg (by omega), if_neg (by omega)]

/-! ## Encodings -/

theorem fits_encode (hu : Scalar u) : ∃ b r l, encode u = b :: r ∧ lead b = some l ∧
    Fits l.count l.low l.high r ∧ value b r = u := by
  unfold Scalar at hu
  unfold encode
  split
  · next h => exact ⟨u, [], _, rfl, lead_one h, rfl, rfl⟩
  split
  · refine ⟨_, _, _, rfl, lead_two (by omega) (by omega), ⟨_, _, rfl, ?_, ?_, rfl⟩, ?_⟩
    · dsimp only
      omega
    · dsimp only
      omega
    · dsimp only [value]
      omega
  split
  · refine ⟨_, _, _, rfl, lead_three (by omega) (by omega),
      ⟨_, _, rfl, ?_, ?_, _, _, rfl, by omega, by omega, rfl⟩, ?_⟩
    · dsimp only
      split <;> omega
    · dsimp only
      split <;> omega
    · dsimp only [value]
      omega
  · refine ⟨_, _, _, rfl, lead_four (by omega) (by omega),
      ⟨_, _, rfl, ?_, ?_, _, _, rfl, by omega, by omega, _, _, rfl, by omega, by omega, rfl⟩, ?_⟩
    · dsimp only
      split <;> omega
    · dsimp only
      split <;> omega
    · dsimp only [value]
      omega

theorem encode_two (h : 0x80 ≤ u) (h' : u < 0x800) :
    encode u = [0xC0 + u / 64, 0x80 + u % 64] := by
  unfold encode
  rw [if_neg (by omega), if_pos h']

theorem encode_three (h : 0x800 ≤ u) (h' : u < 0x10000) :
    encode u = [0xE0 + u / 4096, 0x80 + u / 64 % 64, 0x80 + u % 64] := by
  unfold encode
  rw [if_neg (by omega), if_neg (by omega), if_pos h']

theorem encode_four (h : 0x10000 ≤ u) :
    encode u = [0xF0 + u / 262144, 0x80 + u / 4096 % 64, 0x80 + u / 64 % 64, 0x80 + u % 64] := by
  unfold encode
  rw [if_neg (by omega), if_neg (by omega), if_neg (by omega)]

/-- **Bytes that fit are the encoding of the value that they stand for.** -/
theorem encode_value (hl : lead b = some l) (hfits : Fits l.count l.low l.high r) :
    Scalar (value b r) ∧ encode (value b r) = b :: r := by
  unfold Scalar
  rcases Nat.lt_or_ge b 0x80 with h1 | h1
  · obtain rfl := Option.some.inj (hl.symm.trans (lead_one h1))
    obtain rfl : r = [] := hfits
    exact ⟨.inl (Nat.lt_trans h1 (by decide)), if_pos h1⟩
  rcases Nat.lt_or_ge b 0xC2 with h2 | h2
  · exact absurd (hl.symm.trans (lead_none (.inl ⟨h1, h2⟩))) nofun
  rcases Nat.lt_or_ge b 0xE0 with h3 | h3
  · obtain rfl := Option.some.inj (hl.symm.trans (lead_two h2 h3))
    obtain ⟨b1, _, rfl, hlow, hhigh, rfl⟩ := hfits
    obtain ⟨u, hu⟩ : ∃ u, value b [b1] = u := ⟨_, rfl⟩
    rw [hu]
    dsimp only [value] at hu hlow hhigh
    refine ⟨by omega, ?_⟩
    rw [encode_two (by omega) (by omega), show 0xC0 + u / 64 = b by omega,
      show 0x80 + u % 64 = b1 by omega]
  rcases Nat.lt_or_ge b 0xF0 with h4 | h4
  · obtain rfl := Option.some.inj (hl.symm.trans (lead_three h3 h4))
    obtain ⟨b1, _, rfl, hlow, hhigh, b2, _, rfl, hlow2, hhigh2, rfl⟩ := hfits
    obtain ⟨u, hu⟩ : ∃ u, value b [b1, b2] = u := ⟨_, rfl⟩
    rw [hu]
    dsimp only [value] at hu hlow hhigh
    have hlow1 : 0x80 ≤ b1 := by split at hlow <;> omega
    have hhigh1 : b1 ≤ 0xBF := by split at hhigh <;> omega
    have hmin : b = 0xE0 → 0xA0 ≤ b1 := fun h => by rwa [if_pos h] at hlow
    have hmax : b = 0xED → b1 ≤ 0x9F := fun h => by rwa [if_pos h] at hhigh
    clear hlow hhigh
    refine ⟨by omega, ?_⟩
    rw [encode_three (by omega) (by omega), show 0xE0 + u / 4096 = b by omega,
      show 0x80 + u / 64 % 64 = b1 by omega, show 0x80 + u % 64 = b2 by omega]
  rcases Nat.lt_or_ge 0xF4 b with h5 | h5
  · exact absurd (hl.symm.trans (lead_none (.inr h5))) nofun
  · obtain rfl := Option.some.inj (hl.symm.trans (lead_four h4 h5))
    obtain ⟨b1, _, rfl, hlow, hhigh, b2, _, rfl, hlow2, hhigh2, b3, _, rfl, hlow3, hhigh3, rfl⟩ :=
      hfits
    obtain ⟨u, hu⟩ : ∃ u, value b [b1, b2, b3] = u := ⟨_, rfl⟩
    rw [hu]
    dsimp only [value] at hu hlow hhigh
    have hlow1 : 0x80 ≤ b1 := by split at hlow <;> omega
    have hhigh1 : b1 ≤ 0xBF := by split at hhigh <;> omega
    have hmin : b = 0xF0 → 0x90 ≤ b1 := fun h => by rwa [if_pos h] at hlow
    have hmax : b = 0xF4 → b1 ≤ 0x8F := fun h => by rwa [if_pos h] at hhigh
    clear hlow hhigh
    refine ⟨by omega, ?_⟩
    rw [encode_four (by omega), show 0xF0 + u / 262144 = b by omega,
      show 0x80 + u / 4096 % 64 = b1 by omega, show 0x80 + u / 64 % 64 = b2 by omega,
      show 0x80 + u % 64 = b3 by omega]

/-! ## The front of a sequence of bytes -/

/-- The number of continuation bytes that there are -/
def matched : Nat → Nat → Nat → List Nat → Nat
  | n + 1, low, high, b :: r => if low ≤ b ∧ b ≤ high then matched n 0x80 0xBF r + 1 else 0
  | _, _, _, _ => 0

/-- The first `k` bytes are the first bytes of an encoding that has more bytes. -/
def Begins (s : List Nat) (k : Nat) : Prop :=
  k ≤ s.length ∧ ∃ w, WellFormed w ∧ k < w.length ∧ w.take k = s.take k

theorem matched_le (n low high : Nat) (r : List Nat) :
    matched n low high r ≤ n ∧ matched n low high r ≤ r.length := by
  fun_induction matched n low high r with
  | case1 n low high b r h ih => exact ⟨Nat.succ_le_succ ih.1, Nat.succ_le_succ ih.2⟩
  | case2 | case3 => exact ⟨Nat.zero_le _, Nat.zero_le _⟩

theorem fits_of_matched (h : matched n low high r = n) :
    Fits n low high (r.take n) ∧ n ≤ r.length := by
  fun_induction matched n low high r with
  | case1 n low high b r hb ih =>
    obtain ⟨hfits, hlen⟩ := ih (Nat.succ.inj h)
    exact ⟨⟨b, r.take n, rfl, hb.1, hb.2, hfits⟩, Nat.succ_le_succ hlen⟩
  | case2 => exact absurd h nofun
  | case3 n low high r hne =>
    subst h
    exact ⟨rfl, Nat.zero_le _⟩

/-- As many bytes as agree with an encoding are matched. -/
theorem le_matched {k : Nat} {t : List Nat} (hfits : Fits n low high t) (hkn : k ≤ n)
    (hkr : k ≤ r.length) (htake : t.take k = r.take k) : k ≤ matched n low high r := by
  induction n generalizing low high k r t with
  | zero => exact Nat.le_trans hkn (Nat.zero_le _)
  | succ n ih =>
    obtain ⟨b, t, rfl, hlow, hhigh, hfits⟩ := hfits
    cases k with
    | zero => exact Nat.zero_le _
    | succ k =>
      cases r with
      | nil => exact absurd hkr (Nat.not_succ_le_zero k)
      | cons c r =>
        rw [take_succ_cons, take_succ_cons] at htake
        obtain ⟨rfl, htake'⟩ := List.cons.inj htake
        rw [matched, if_pos ⟨hlow, hhigh⟩]
        exact Nat.succ_le_succ (ih hfits (Nat.le_of_succ_le_succ hkn)
          (Nat.le_of_succ_le_succ hkr) htake')

/-- Bytes that are matched can be completed. -/
theorem exists_fits (hrange : low ≤ high) :
    ∃ t, Fits n low high t ∧
      t.take (matched n low high r) = r.take (matched n low high r) := by
  have hany : ∀ n low high, low ≤ high → ∃ t, Fits n low high t := by
    intro n
    induction n with
    | zero => exact fun _ _ _ => ⟨[], rfl⟩
    | succ n ih =>
      intro low high h
      obtain ⟨t, ht⟩ := ih 0x80 0xBF (by decide)
      exact ⟨low :: t, low, t, rfl, Nat.le_refl _, h, ht⟩
  fun_induction matched n low high r with
  | case1 n low high b r hb ih =>
    obtain ⟨t, hfits, htake⟩ := ih (by decide)
    exact ⟨b :: t, ⟨b, t, rfl, hb.1, hb.2, hfits⟩, by rw [take_succ_cons, take_succ_cons, htake]⟩
  | case2 n low high b r hb =>
    obtain ⟨t, ht⟩ := hany (n + 1) low high hrange
    exact ⟨t, ht, rfl⟩
  | case3 n low high r hne =>
    obtain ⟨t, ht⟩ := hany n low high hrange
    exact ⟨t, ht, rfl⟩

theorem lead_bounds (h : lead b = some l) :
    l.count ≤ 3 ∧ l.low ≤ l.high := by
  revert h
  unfold lead
  repeat' split
  all_goals
    intro h
    cases h
  all_goals decide

theorem wellFormed_cons :
    WellFormed (b :: r) ↔ ∃ l, lead b = some l ∧ Fits l.count l.low l.high r := by
  constructor
  · rintro ⟨u, hu, heq⟩
    obtain ⟨b', r', l, heq', hl, hfits, -⟩ := fits_encode hu
    obtain ⟨rfl, rfl⟩ := List.cons.inj (heq.symm.trans heq')
    exact ⟨l, hl, hfits⟩
  · rintro ⟨l, hl, hfits⟩
    exact ⟨_, encode_value hl hfits⟩

/-- **The bytes start with the encoding of a scalar value exactly if all of its continuation bytes
are there.** -/
theorem encode_prefix_iff :
    Scalar u ∧ encode u <+: b :: r ↔
      ∃ l, lead b = some l ∧ matched l.count l.low l.high r = l.count ∧
        u = value b (r.take l.count) := by
  constructor
  · rintro ⟨hu, t, ht⟩
    obtain ⟨b', r', l, heq, hl, hfits, rfl⟩ := fits_encode hu
    rw [heq, cons_append] at ht
    obtain ⟨rfl, rfl⟩ := List.cons.inj ht
    have hlen := hfits.length
    have htake : (r' ++ t).take l.count = r' := by rw [← hlen, take_left]
    refine ⟨l, hl, Nat.le_antisymm (matched_le _ _ _ _).1 ?_, by rw [htake]⟩
    exact le_matched hfits (Nat.le_refl _) (by rw [length_append, hlen]; omega)
      (by rw [htake, ← hlen, take_length])
  · rintro ⟨l, hl, hmatched, rfl⟩
    obtain ⟨hfits, -⟩ := fits_of_matched hmatched
    obtain ⟨hscalar, hencode⟩ := encode_value hl hfits
    exact ⟨hscalar, hencode ▸ ⟨r.drop l.count, by rw [cons_append, take_append_drop]⟩⟩

theorem begins_zero (s : List Nat) : Begins s 0 :=
  ⟨Nat.zero_le _, [0], ⟨0, .inl (by decide), rfl⟩, Nat.one_pos, rfl⟩

/-- **Where an encoding is cut off** -/
theorem isGreatest_matched (hl : lead b = some l) (hlt : matched l.count l.low l.high r < l.count) :
    IsGreatest {k | Begins (b :: r) k} (matched l.count l.low l.high r + 1) := by
  constructor
  · obtain ⟨t, hfits, htake⟩ := exists_fits (lead_bounds hl).2 (r := r) (n := l.count)
    refine ⟨Nat.succ_le_succ (matched_le _ _ _ _).2, b :: t, wellFormed_cons.mpr ⟨l, hl, hfits⟩,
      ?_, ?_⟩
    · rw [length_cons, hfits.length]
      exact Nat.succ_lt_succ hlt
    · rw [take_succ_cons, take_succ_cons, htake]
  · rintro k ⟨hk, w, hw, hkw, htake⟩
    cases k with
    | zero => exact Nat.zero_le _
    | succ k =>
      cases w with
      | nil => exact absurd hkw (Nat.not_lt_zero _)
      | cons b' t =>
        rw [take_succ_cons, take_succ_cons] at htake
        obtain ⟨rfl, htake'⟩ := List.cons.inj htake
        obtain ⟨l', hl', hfits⟩ := wellFormed_cons.mp hw
        obtain rfl := Option.some.inj (hl.symm.trans hl')
        rw [length_cons, hfits.length] at hkw
        exact Nat.succ_le_succ (le_matched hfits (Nat.le_of_lt_succ (Nat.lt_of_succ_lt hkw))
          (Nat.le_of_succ_le_succ hk) htake')

theorem isGreatest_zero (r : List Nat) (hb : lead b = none) :
    IsGreatest {k | Begins (b :: r) k} 0 := by
  refine ⟨begins_zero _, ?_⟩
  rintro (_ | k) ⟨hk, w, hw, hkw, htake⟩
  · exact Nat.le_refl 0
  · cases w with
    | nil => exact absurd hkw (Nat.not_lt_zero _)
    | cons b' t =>
      rw [take_succ_cons, take_succ_cons] at htake
      obtain ⟨rfl, -⟩ := List.cons.inj htake
      obtain ⟨l, hl, -⟩ := wellFormed_cons.mp hw
      exact absurd (hb.symm.trans hl) nofun

/-! ## Texts -/

/-- The encodings of scalar values, one after the other -/
def Text (s : List Nat) : Prop := ∃ us : List Nat, (∀ u ∈ us, Scalar u) ∧ us.flatMap encode = s

theorem text_nil : Text [] := ⟨[], nofun, rfl⟩

theorem text_cons : Text (b :: r) ↔
    ∃ l, lead b = some l ∧ matched l.count l.low l.high r = l.count ∧ Text (r.drop l.count) := by
  constructor
  · rintro ⟨us, hus, heq⟩
    match us with
    | [] => exact absurd heq nofun
    | u :: us =>
      obtain ⟨hu, hus'⟩ := forall_mem_cons.mp hus
      rw [flatMap_cons] at heq
      obtain ⟨l, hl, hmatched, rfl⟩ := encode_prefix_iff.mp ⟨hu, _, heq⟩
      obtain ⟨hfits, -⟩ := fits_of_matched hmatched
      rw [(encode_value hl hfits).2, cons_append] at heq
      refine ⟨l, hl, hmatched, us, hus', ?_⟩
      rw [← (List.cons.inj heq).2, List.drop_left' hfits.length]
  · rintro ⟨l, hl, hmatched, us, hus, heq⟩
    obtain ⟨hfits, -⟩ := fits_of_matched hmatched
    obtain ⟨hscalar, hencode⟩ := encode_value hl hfits
    refine ⟨_ :: us, forall_mem_cons.mpr ⟨hscalar, hus⟩, ?_⟩
    rw [flatMap_cons, hencode, heq, cons_append, take_append_drop]

end Utf8
