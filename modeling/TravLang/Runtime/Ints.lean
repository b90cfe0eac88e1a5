import Mathlib.Data.List.TakeWhile
import TravLang.Lib.Horner
import TravLang.Lib.Result
import TravLang.Runtime.Words

/-!
# Integers from strings (`runtime/ints.c`)

A pointer into a string is kept as an offset. The bytes of a string are followed by a null byte,
which may be read as well; a read after it is an error of its own.
-/

namespace TravLang.Runtime.Ints

open List Result

inductive Exn where
  /-- `caml_failwith` -/
  | failure (msg : String)
  /-- a read after the end of a string -/
  | outOfBounds
  deriving DecidableEq, Repr

/-- `*p` -/
def deref (s : Bytes) (p : Nat) : Except Exn UInt8 :=
  if p = s.length then .ok 0
  else
    match s[p]? with
    | some c => .ok c
    | none => .error .outOfBounds

/-- The prefix of the base in `parse_sign_and_base`: the offset after it, the base and whether the
representation is signed -/
def parseBase (s : Bytes) (p : Nat) : Except Exn (Nat × Nat × Bool) := do
  let c ← deref s p
  if c = '0'.toUInt8 then
    let c ← deref s (p + 1)
    if c = 'x'.toUInt8 ∨ c = 'X'.toUInt8 then return (p + 2, 16, false)
    else if c = 'o'.toUInt8 ∨ c = 'O'.toUInt8 then return (p + 2, 8, false)
    else if c = 'b'.toUInt8 ∨ c = 'B'.toUInt8 then return (p + 2, 2, false)
    else if c = 'u'.toUInt8 ∨ c = 'U'.toUInt8 then return (p + 2, 10, false)
    else return (p, 10, true)
  else return (p, 10, true)

/-- The offset after the sign and the prefix of the base, the base, whether the representation is
signed, and the sign -/
def parseSignAndBase (s : Bytes) (p : Nat) : Except Exn (Nat × Nat × Bool × Int) := do
  let c ← deref s p
  let (p, sign) : Nat × Int :=
    if c = '-'.toUInt8 then (p + 1, -1)
    else if c = '+'.toUInt8 then (p + 1, 1)
    else (p, 1)
  let (p, base, signedness) ← parseBase s p
  return (p, base, signedness, sign)

def parseDigit (c : UInt8) : Int :=
  if '0'.toUInt8 ≤ c ∧ c ≤ '9'.toUInt8 then (c.toNat : Int) - '0'.toNat
  else if 'A'.toUInt8 ≤ c ∧ c ≤ 'F'.toUInt8 then (c.toNat : Int) - 'A'.toNat + 10
  else if 'a'.toUInt8 ≤ c ∧ c ≤ 'f'.toUInt8 then (c.toNat : Int) - 'a'.toNat + 10
  else -1

/-- The loop of `parse_intnat` over the digits: the offset where it stops and the number -/
def digitsLoop (host : Host) (s : Bytes) (errmsg : String) (base threshold p res : Nat) :
    Except Exn (Nat × Nat) :=
  match _h : deref s p with
  | .error e => .error e
  | .ok c =>
    if c = '_'.toUInt8 then digitsLoop host s errmsg base threshold (p + 1) res
    else
      let d := parseDigit c
      if d < 0 ∨ d ≥ base then .ok (p, res)
      -- overflow in the multiplication
      else if res > threshold then .error (.failure errmsg)
      else
        let res := host.uintnat (base * res + d)
        -- overflow in the addition
        if res < host.uintnat d then .error (.failure errmsg)
        else digitsLoop host s errmsg base threshold (p + 1) res
termination_by s.length + 1 - p
decreasing_by
  all_goals
    have hp : p < s.length + 1 := by
      by_contra hp
      rw [deref, if_neg (by omega), List.getElem?_eq_none (by omega)] at _h
      cases _h
    omega

def parseIntnat (host : Host) (s : Bytes) (nbits : Nat) (errmsg : String) : Except Exn Int := do
  let (p, base, signedness, sign) ← parseSignAndBase s 0
  let threshold := host.uintnat (-1) / base
  let d := parseDigit (← deref s p)
  if d < 0 ∨ d ≥ base then .error (.failure errmsg)
  else
    let (p, res) ← digitsLoop host s errmsg base threshold (p + 1) (host.uintnat d)
    let result := if sign < 0 then host.intnat (-host.intnat res) else host.intnat res
    if p ≠ s.length then .error (.failure errmsg)
    else if signedness then
      if sign ≥ 0 then
        if res ≥ host.uintnat (2 ^ (nbits - 1)) then .error (.failure errmsg) else .ok result
      else
        if res > host.uintnat (2 ^ (nbits - 1)) then .error (.failure errmsg) else .ok result
    else if nbits < host.wordBits ∧ res ≥ host.uintnat (2 ^ nbits) then .error (.failure errmsg)
    else .ok result

/-- `caml_int_of_string` -/
def camlIntOfString (host : Host) (s : Bytes) : Except Exn Int :=
  (parseIntnat host s (8 * host.wordSize - 1) "int_of_string").map host.int

/-! ## Literals -/

/-- The value of a digit of a base, in either case -/
def digitOf (base : Nat) (c : UInt8) : Option Nat :=
  (List.range base).find? fun d => c = d.digitChar.toUInt8 ∨ c = d.digitChar.toUpper.toUInt8

/-- A digit or an underscore -/
def IsDigits (base : Nat) (c : UInt8) : Prop := c = '_'.toUInt8 ∨ (digitOf base c).isSome

instance (base : Nat) (c : UInt8) : Decidable (IsDigits base c) :=
  inferInstanceAs (Decidable (_ ∨ _))

/-- A digit, then digits and underscores -/
def IsNumeral (base : Nat) : List UInt8 → Prop
  | [] => False
  | c :: w => (digitOf base c).isSome ∧ ∀ x ∈ w, IsDigits base x

instance (base : Nat) : DecidablePred (IsNumeral base)
  | [] => inferInstanceAs (Decidable False)
  | _ :: _ => inferInstanceAs (Decidable (_ ∧ _))

/-- The number that digits write; underscores do not count. -/
def magnitude (base : Nat) (w : List UInt8) : Nat :=
  Nat.ofDigits base (w.filterMap (digitOf base)).reverse

/-- An optional sign, and whether it is a minus -/
inductive SignText : List UInt8 → Bool → Prop where
  | none : SignText [] false
  | plus : SignText ['+'.toUInt8] false
  | minus : SignText ['-'.toUInt8] true

/-- An optional prefix, in either case, its base and whether there is none -/
inductive BaseText : List UInt8 → Nat → Bool → Prop where
  | plain : BaseText [] 10 true
  | hex {c : UInt8} (h : c = 'x'.toUInt8 ∨ c = 'X'.toUInt8) : BaseText ['0'.toUInt8, c] 16 false
  | oct {c : UInt8} (h : c = 'o'.toUInt8 ∨ c = 'O'.toUInt8) : BaseText ['0'.toUInt8, c] 8 false
  | bin {c : UInt8} (h : c = 'b'.toUInt8 ∨ c = 'B'.toUInt8) : BaseText ['0'.toUInt8, c] 2 false
  | unsigned {c : UInt8} (h : c = 'u'.toUInt8 ∨ c = 'U'.toUInt8) :
      BaseText ['0'.toUInt8, c] 10 false

/-- The text of an integer -/
def Literal (s : Bytes) (negative plain : Bool) (m : Nat) : Prop :=
  ∃ st bt w base, SignText st negative ∧ BaseText bt base plain ∧ IsNumeral base w ∧
    s = st ++ (bt ++ w) ∧ m = magnitude base w

/-- The magnitudes that are accepted -/
def Fits (nbits : Nat) (negative plain : Bool) (m : Nat) : Prop :=
  if plain then if negative then m ≤ 2 ^ (nbits - 1) else m ≤ 2 ^ (nbits - 1) - 1
  else m ≤ 2 ^ nbits - 1

instance (nbits : Nat) (negative plain : Bool) (m : Nat) :
    Decidable (Fits nbits negative plain m) :=
  inferInstanceAs (Decidable (ite _ _ _))

/-! ## Digits -/

variable {host : Host} {s pre rest : Bytes} {errmsg : String} {base nbits d m : Nat} {c : UInt8}
  {plain negative : Bool} {bt w : List UInt8}

theorem digitOf_eq (hbase : base ∈ [2, 8, 10, 16]) (c : UInt8) :
    digitOf base c =
      if parseDigit c < 0 ∨ parseDigit c ≥ base then none else some (parseDigit c).toNat := by
  have hall : ∀ base ∈ [2, 8, 10, 16], ∀ n : Fin 256, digitOf base (UInt8.ofNat n) =
      if parseDigit (UInt8.ofNat n) < 0 ∨ parseDigit (UInt8.ofNat n) ≥ base then none
      else some (parseDigit (UInt8.ofNat n)).toNat := by decide +kernel
  have h := hall base hbase ⟨c.toNat, c.toNat_lt⟩
  simpa only [UInt8.ofNat_toNat] using h

theorem digitOf_lt (h : digitOf base c = some d) : d < base :=
  mem_range.mp (List.mem_of_find?_eq_some h)

section

variable (hbase : base ∈ [2, 8, 10, 16])

include hbase

theorem digitOf_null : digitOf base 0 = none := by
  rw [digitOf_eq hbase]
  rfl

theorem digitOf_underscore : digitOf base '_'.toUInt8 = none := by
  rw [digitOf_eq hbase]
  rfl

theorem parseDigit_of_some (h : digitOf base c = some d) :
    ¬(parseDigit c < 0 ∨ parseDigit c ≥ base) ∧ parseDigit c = d := by
  rw [digitOf_eq hbase] at h
  split at h
  · cases h
  · next hdigit => exact ⟨hdigit, by have := Option.some.inj h; omega⟩

theorem parseDigit_of_none (h : digitOf base c = none) :
    parseDigit c < 0 ∨ parseDigit c ≥ base := by
  rw [digitOf_eq hbase] at h
  split at h
  · next hdigit => exact hdigit
  · cases h

end

theorem base_pos (host : Host) (hbase : base ∈ [2, 8, 10, 16]) :
    0 < base ∧ base ≤ 2 ^ host.wordBits := by
  have hle : 16 ≤ 2 ^ host.wordBits := by
    rcases wordBits_cases host with hbits | hbits <;> (rw [hbits]; decide)
  simp only [mem_cons, not_mem_nil, or_false] at hbase
  omega

/-- One turn of the loop over the digits. -/
theorem digitsLoop_step (hbase : base ∈ [2, 8, 10, 16]) {p res : Nat} (hc : deref s p = .ok c) :
    digitsLoop host s errmsg base (host.uintnat (-1) / base) p res =
      if c = '_'.toUInt8 then digitsLoop host s errmsg base (host.uintnat (-1) / base) (p + 1) res
      else
        match digitOf base c with
        | none => .ok (p, res)
        | some d =>
          if base * res + d < 2 ^ host.wordBits then
            digitsLoop host s errmsg base (host.uintnat (-1) / base) (p + 1) (base * res + d)
          else .error (.failure errmsg) := by
  obtain ⟨hpos, hle⟩ := base_pos host hbase
  rw [digitsLoop]
  split
  · next h => exact absurd (hc.symm.trans h) nofun
  next c' h =>
  obtain rfl := Except.ok.inj (hc.symm.trans h)
  by_cases hunderscore : c = '_'.toUInt8
  · rw [if_pos hunderscore, if_pos hunderscore]
  rw [if_neg hunderscore, if_neg hunderscore]
  cases hd : digitOf base c with
  | none => rw [if_pos (parseDigit_of_none hbase hd)]
  | some d =>
    obtain ⟨hdigit, heq⟩ := parseDigit_of_some hbase hd
    have hlt : d < 2 ^ host.wordBits := (digitOf_lt hd).trans_le hle
    have hsum : ((base : Int) * res + d) = ((base * res + d : Nat) : Int) := by push_cast; rfl
    rw [if_neg hdigit, heq, uintnat_neg_one, hsum, uintnat_natCast_mod, uintnat_natCast hlt]
    dsimp only
    split
    · next hgt =>
      rw [if_neg (Nat.not_lt.mpr (Horner.overflow_of_gt hpos hgt))]
    · next hthreshold =>
      have hwrap := Horner.wrapped_iff (Nat.two_pow_pos _) hlt (Nat.le_of_not_lt hthreshold)
      by_cases hfits : base * res + d < 2 ^ host.wordBits
      · rw [if_neg (mt hwrap.mp (Nat.not_le.mpr hfits)), if_pos hfits, Nat.mod_eq_of_lt hfits]
      · rw [if_pos (hwrap.mpr (Nat.le_of_not_lt hfits)), if_neg hfits]

theorem deref_append (pre rest : Bytes) :
    deref (pre ++ rest) pre.length = .ok (rest.headD 0) := by
  cases rest with
  | nil => simp [deref]
  | cons c rest => simp [deref]

/-- The digits and underscores that a text starts with -/
def digitsOf (base : Nat) (rest : List UInt8) : List UInt8 :=
  rest.takeWhile fun c => decide (IsDigits base c)

theorem digitsOf_cons (h : IsDigits base c) (rest : List UInt8) :
    digitsOf base (c :: rest) = c :: digitsOf base rest :=
  takeWhile_cons_of_pos (decide_eq_true h)

theorem digitsOf_cons_of_not (h : ¬IsDigits base c) (rest : List UInt8) :
    digitsOf base (c :: rest) = [] :=
  takeWhile_cons_of_neg (by simpa using h)

/-- **The loop over the digits reads all of them and fails when the number does not fit a word.** -/
theorem digitsLoop_eq (hbase : base ∈ [2, 8, 10, 16]) (pre rest : Bytes) {res : Nat}
    (hres : res < 2 ^ host.wordBits) :
    digitsLoop host (pre ++ rest) errmsg base (host.uintnat (-1) / base) pre.length res =
      let w := digitsOf base rest
      let m := Horner.run base res (w.filterMap (digitOf base))
      if m < 2 ^ host.wordBits then .ok (pre.length + w.length, m)
      else .error (.failure errmsg) := by
  dsimp only
  induction rest generalizing pre res with
  | nil =>
    rw [digitsLoop_step hbase (deref_append pre []), headD_nil, if_neg (by decide),
      digitOf_null hbase]
    exact (if_pos hres).symm
  | cons c rest ih =>
    have hpre : pre ++ c :: rest = (pre ++ [c]) ++ rest := (append_cons pre c rest)
    have hlen : pre.length + 1 = (pre ++ [c]).length := by simp
    rw [digitsLoop_step hbase (deref_append pre (c :: rest)), headD_cons]
    by_cases hunderscore : c = '_'.toUInt8
    · have hnone : digitOf base c = none := hunderscore ▸ digitOf_underscore hbase
      rw [if_pos hunderscore, digitsOf_cons (.inl hunderscore), filterMap_cons_none hnone,
        length_cons, hpre, hlen, ih _ hres, ← hlen, Nat.add_assoc, Nat.add_comm 1]
    · rw [if_neg hunderscore]
      cases hd : digitOf base c with
      | none =>
        have hstop : ¬IsDigits base c := fun h => h.elim hunderscore (by simp [hd])
        rw [digitsOf_cons_of_not hstop]
        exact (if_pos hres).symm
      | some d =>
        rw [digitsOf_cons (.inr (by rw [hd]; rfl)), filterMap_cons_some hd,
          Horner.run_cons, length_cons]
        dsimp only
        split
        · next hfits =>
          rw [hpre, hlen, ih _ hfits, ← hlen, Nat.add_assoc, Nat.add_comm 1]
        · next hfits =>
          have hle := Horner.le_run (base_pos host hbase).1 (base * res + d)
            ((digitsOf base rest).filterMap (digitOf base))
          rw [if_neg fun hlt => hfits (hle.trans_lt hlt)]

theorem BaseText.base_mem (h : BaseText bt base plain) :
    base ∈ [2, 8, 10, 16] := by
  cases h <;> decide

/-! ## Sign and base -/

theorem deref_append_succ (pre rest : Bytes) (c : UInt8) :
    deref (pre ++ c :: rest) (pre.length + 1) = .ok (rest.headD 0) := by
  have h := deref_append (pre ++ [c]) rest
  rwa [append_assoc, length_append] at h

theorem parseBase_spec (pre rest : Bytes) : ∃ bt w base plain, BaseText bt base plain ∧
    rest = bt ++ w ∧ parseBase (pre ++ rest) pre.length =
      .ok (pre.length + bt.length, base, plain) := by
  unfold parseBase
  rw [deref_append, ok_bind]
  split
  · next hzero =>
    match rest with
    | [] => exact absurd hzero (by decide)
    | c0 :: rest =>
      obtain rfl : c0 = '0'.toUInt8 := hzero
      rw [deref_append_succ, ok_bind]
      match rest with
      | [] => exact ⟨[], _, 10, true, .plain, rfl, rfl⟩
      | c :: w =>
        rw [headD_cons]
        split
        · next h => exact ⟨_, w, 16, false, .hex h, rfl, rfl⟩
        split
        · next h => exact ⟨_, w, 8, false, .oct h, rfl, rfl⟩
        split
        · next h => exact ⟨_, w, 2, false, .bin h, rfl, rfl⟩
        split
        · next h => exact ⟨_, w, 10, false, .unsigned h, rfl, rfl⟩
        · exact ⟨[], _, 10, true, .plain, rfl, rfl⟩
  · exact ⟨[], rest, 10, true, .plain, rfl, rfl⟩

/-- No letter of a prefix is among the digits of a decimal number. -/
theorem not_isDigits_letter (h : IsDigits 10 c) :
    ∀ l ∈ ['x', 'X', 'o', 'O', 'b', 'B', 'u', 'U'], c ≠ l.toUInt8 := by
  have hall : ∀ l ∈ ['x', 'X', 'o', 'O', 'b', 'B', 'u', 'U'], ¬IsDigits 10 l.toUInt8 := by
    simp only [forall_mem_cons, not_mem_nil, false_implies, implies_true]
    decide
  exact fun l hl heq => hall l hl (heq ▸ h)

theorem parseBase_of_letter (pre w : Bytes) (c : UInt8) :
    parseBase (pre ++ '0'.toUInt8 :: c :: w) pre.length =
      if c = 'x'.toUInt8 ∨ c = 'X'.toUInt8 then .ok (pre.length + 2, 16, false)
      else if c = 'o'.toUInt8 ∨ c = 'O'.toUInt8 then .ok (pre.length + 2, 8, false)
      else if c = 'b'.toUInt8 ∨ c = 'B'.toUInt8 then .ok (pre.length + 2, 2, false)
      else if c = 'u'.toUInt8 ∨ c = 'U'.toUInt8 then .ok (pre.length + 2, 10, false)
      else .ok (pre.length, 10, true) := by
  unfold parseBase
  rw [deref_append, ok_bind, headD_cons, if_pos rfl, deref_append_succ, ok_bind]
  rfl

theorem parseBase_of_text (pre : Bytes) (hbt : BaseText bt base plain) (hw : IsNumeral base w) :
    parseBase (pre ++ (bt ++ w)) pre.length = .ok (pre.length + bt.length, base, plain) := by
  cases hbt with
  | plain =>
    match w, hw with
    | c0 :: w, ⟨_, hdigits⟩ =>
      have hletter : ∀ l ∈ ['x', 'X', 'o', 'O', 'b', 'B', 'u', 'U'], w.headD 0 ≠ l.toUInt8 := by
        match w with
        | [] =>
          simp only [forall_mem_cons, not_mem_nil, false_implies, implies_true]
          decide
        | c :: w => exact not_isDigits_letter (hdigits c mem_cons_self)
      unfold parseBase
      rw [nil_append, deref_append, ok_bind, deref_append_succ, ok_bind]
      generalize w.headD 0 = c at hletter
      simp only [mem_cons, not_mem_nil, or_false, forall_eq_or_imp, forall_eq] at hletter
      simp [hletter]
  | hex h => exact (parseBase_of_letter pre w _).trans (if_pos h)
  | oct h | bin h | unsigned h => rcases h with rfl | rfl <;> exact parseBase_of_letter pre w _

/-- The sign as the code has it -/
def signOf (negative : Bool) : Int := if negative then -1 else 1

theorem parseSignAndBase_eq {st rest : List UInt8} {p : Nat} (hst : SignText st negative)
    (hrest : st = [] → rest.headD 0 ≠ '-'.toUInt8 ∧ rest.headD 0 ≠ '+'.toUInt8)
    (hbase : parseBase (st ++ rest) st.length = .ok (p, base, plain)) :
    parseSignAndBase (st ++ rest) 0 = .ok (p, base, plain, signOf negative) := by
  have hderef : deref (st ++ rest) 0 = .ok ((st ++ rest).headD 0) := deref_append [] (st ++ rest)
  unfold parseSignAndBase
  rw [hderef, ok_bind]
  cases hst with
  | none =>
    obtain ⟨hminus, hplus⟩ := hrest rfl
    rw [nil_append, if_neg hminus, if_neg hplus]
    dsimp only
    rw [nil_append, length_nil] at hbase
    rw [hbase]
    rfl
  | plus =>
    have hminus : (['+'.toUInt8] ++ rest).headD 0 ≠ '-'.toUInt8 :=
      show '+'.toUInt8 ≠ '-'.toUInt8 by decide
    rw [if_neg hminus, if_pos (by rfl)]
    dsimp only
    rw [length_singleton] at hbase
    rw [Nat.zero_add, hbase]
    rfl
  | minus =>
    rw [if_pos (by rfl)]
    dsimp only
    rw [length_singleton] at hbase
    rw [Nat.zero_add, hbase]
    rfl

/-- A sign and a prefix are always found. -/
theorem parseSignAndBase_spec (s : Bytes) : ∃ st bt w base negative plain,
    SignText st negative ∧ BaseText bt base plain ∧ s = st ++ (bt ++ w) ∧
    parseSignAndBase s 0 = .ok (st.length + bt.length, base, plain, signOf negative) := by
  obtain ⟨st, rest, negative, hst, rfl, hrest⟩ : ∃ st rest negative, SignText st negative ∧
      s = st ++ rest ∧
      (st = [] → rest.headD 0 ≠ '-'.toUInt8 ∧ rest.headD 0 ≠ '+'.toUInt8) := by
    match s with
    | [] => exact ⟨[], [], false, .none, rfl, fun _ => by decide⟩
    | c :: rest =>
      by_cases hminus : c = '-'.toUInt8
      · exact ⟨[c], rest, true, hminus ▸ .minus, rfl, nofun⟩
      by_cases hplus : c = '+'.toUInt8
      · exact ⟨[c], rest, false, hplus ▸ .plus, rfl, nofun⟩
      · exact ⟨[], c :: rest, false, .none, rfl, fun _ => ⟨hminus, hplus⟩⟩
  obtain ⟨bt, w, base, plain, hbt, rfl, hbase⟩ := parseBase_spec st rest
  exact ⟨st, bt, w, base, negative, plain, hst, hbt, rfl, parseSignAndBase_eq hst hrest hbase⟩

/-- The sign and the prefix of a literal are found. -/
theorem parseSignAndBase_of_text {st : List UInt8} (hst : SignText st negative)
    (hbt : BaseText bt base plain) (hw : IsNumeral base w) :
    parseSignAndBase (st ++ (bt ++ w)) 0 =
      .ok (st.length + bt.length, base, plain, signOf negative) := by
  refine parseSignAndBase_eq hst (fun _ => ?_) (parseBase_of_text st hbt hw)
  have hnot : ∀ c ∈ ['-', '+'], ∀ base ∈ [2, 8, 10, 16],
      (digitOf base c.toUInt8).isSome = false := by
    simp only [forall_mem_cons, not_mem_nil, false_implies, implies_true]
    decide
  have hc : ∀ c ∈ ['-', '+'], (bt ++ w).headD 0 ≠ c.toUInt8 := by
    intro c hc heq
    cases hbt with
    | plain =>
      match w, hw with
      | c0 :: w, ⟨hdigit, _⟩ =>
        obtain rfl : c0 = c.toUInt8 := heq
        exact absurd (hdigit.symm.trans (hnot c hc 10 (by decide))) nofun
    | _ =>
      have hzero : ∀ c ∈ ['-', '+'], '0'.toUInt8 ≠ c.toUInt8 := by
        simp only [forall_mem_cons, not_mem_nil, false_implies, implies_true]
        decide
      exact hzero c hc heq
  exact ⟨hc _ (by decide), hc _ (by decide)⟩

/-! ## Results -/

theorem magnitude_cons (h : digitOf base c = some d) (w : List UInt8) :
    magnitude base (c :: w) = Horner.run base d (w.filterMap (digitOf base)) := by
  rw [magnitude, filterMap_cons_some h, reverse_cons, Horner.run_eq]

theorem digitsOf_eq_self_iff :
    digitsOf base w = w ↔ ∀ x ∈ w, IsDigits base x := by
  rw [digitsOf, takeWhile_eq_self_iff]
  simp only [decide_eq_true_eq]

theorem fits_iff : Fits nbits negative plain m ↔
    if plain then if negative then ¬m > 2 ^ (nbits - 1) else ¬m ≥ 2 ^ (nbits - 1)
    else ¬m ≥ 2 ^ nbits := by
  have hhalf := Nat.two_pow_pos (nbits - 1)
  have hpow := Nat.two_pow_pos nbits
  unfold Fits
  rcases plain with _ | _ <;> rcases negative with _ | _ <;> simp <;> omega

/-- A literal that fits has a magnitude that fits a word. -/
theorem Fits.lt (h : Fits nbits negative plain m) (hpos : 0 < nbits) (hle : nbits ≤ host.wordBits) :
    m < 2 ^ host.wordBits := by
  have hhalf : 2 ^ (nbits - 1) < 2 ^ nbits := Nat.pow_lt_pow_right (by decide) (by omega)
  have hword : 2 ^ nbits ≤ 2 ^ host.wordBits := Nat.pow_le_pow_right (by decide) hle
  rw [fits_iff] at h
  split at h
  · split at h <;> omega
  · omega

/-- The range checks accept the numbers that fit. -/
theorem rangeChecks_eq {α : Type} (negative plain : Bool) (x y : α) (hm : m < 2 ^ host.wordBits)
    (hpos : 0 < nbits) (hle : nbits ≤ host.wordBits) :
    (if plain then
      if signOf negative ≥ 0 then if m ≥ host.uintnat (2 ^ (nbits - 1)) then x else y
      else if m > host.uintnat (2 ^ (nbits - 1)) then x else y
    else if nbits < host.wordBits ∧ m ≥ host.uintnat (2 ^ nbits) then x else y) =
    if Fits nbits negative plain m then y else x := by
  have hpow : ∀ {k : Nat}, k < host.wordBits → host.uintnat (2 ^ k) = 2 ^ k := fun hk => by
    have h := @uintnat_natCast host (2 ^ _) (Nat.pow_lt_pow_right (by decide) hk)
    exact_mod_cast h
  have hhalf : host.uintnat (2 ^ (nbits - 1)) = 2 ^ (nbits - 1) := hpow (by omega)
  rw [hhalf]
  simp only [fits_iff]
  rcases plain with _ | _
  · rcases Nat.eq_or_lt_of_le hle with rfl | hlt
    · simp [hm]
    · rw [hpow hlt]
      simp only [hlt, true_and, Bool.false_eq_true, if_false, ite_not]
  · rcases negative with _ | _
    · have hsign : signOf false ≥ 0 := by decide
      simp only [hsign, if_true, Bool.false_eq_true, if_false, ite_not]
    · have hsign : ¬signOf true ≥ 0 := by decide
      simp only [hsign, if_true, if_false, ite_not]

theorem parseIntnat_of_header (hpos : 0 < nbits) (hle : nbits ≤ host.wordBits)
    (hbase : base ∈ [2, 8, 10, 16])
    (hheader : parseSignAndBase (pre ++ rest) 0 = .ok (pre.length, base, plain, signOf negative)) :
    parseIntnat host (pre ++ rest) nbits errmsg =
      if IsNumeral base rest ∧ Fits nbits negative plain (magnitude base rest) then
        .ok (host.intnat (if negative then -magnitude base rest else magnitude base rest))
      else .error (.failure errmsg) := by
  unfold parseIntnat
  rw [hheader, ok_bind]
  dsimp only
  rw [deref_append, ok_bind]
  cases hd : digitOf base (rest.headD 0) with
  | none =>
    have hnot : ¬IsNumeral base rest := by
      match rest with
      | [] => exact id
      | c :: w =>
        intro h
        rw [headD_cons] at hd
        exact absurd h.1 (by rw [hd]; decide)
    rw [if_pos (parseDigit_of_none hbase hd), if_neg fun h => hnot h.1]
  | some d =>
    obtain ⟨hdigit, heq⟩ := parseDigit_of_some hbase hd
    have hd' : d < 2 ^ host.wordBits := (digitOf_lt hd).trans_le (base_pos host hbase).2
    rw [if_neg hdigit, heq, uintnat_natCast hd']
    match rest with
    | [] => exact absurd (hd.symm.trans (digitOf_null hbase)) nofun
    | c :: w =>
      rw [headD_cons] at hd
      have hpre : pre ++ c :: w = (pre ++ [c]) ++ w := (append_cons pre c w)
      have hlen : pre.length + 1 = (pre ++ [c]).length := by simp
      have hend : (pre ++ [c] ++ w).length = (pre ++ [c]).length + w.length := length_append
      rw [hpre, hlen, digitsLoop_eq hbase _ _ hd', magnitude_cons hd, hend]
      dsimp only
      by_cases hdigits : ∀ x ∈ w, IsDigits base x
      · have hnumeral : IsNumeral base (c :: w) := ⟨by rw [hd]; rfl, hdigits⟩
        rw [digitsOf_eq_self_iff.mpr hdigits]
        generalize Horner.run base d (w.filterMap (digitOf base)) = m
        split
        · next hm =>
          rw [ok_bind, if_neg (not_not.mpr rfl),
            rangeChecks_eq negative plain _ _ hm hpos hle]
          simp only [hnumeral, true_and]
          rcases negative with _ | _
          · rfl
          · simp [signOf, intnat_neg_intnat]
        · next hm => rw [if_neg fun h => hm (h.2.lt hpos hle)]; rfl
      · have hstart : digitsOf base w <+: w := takeWhile_prefix _
        have hne : (digitsOf base w).length ≠ w.length := fun h =>
          hdigits (digitsOf_eq_self_iff.mp (hstart.eq_of_length h))
        rw [if_neg fun h : IsNumeral base (c :: w) ∧ _ => hdigits h.1.2]
        by_cases hm : Horner.run base d ((digitsOf base w).filterMap (digitOf base)) <
            2 ^ host.wordBits
        · rw [if_pos hm, ok_bind, if_pos fun h => hne (Nat.add_left_cancel h)]
        · rw [if_neg hm, error_bind]

/-- **Integers are parsed exactly.** The parser returns the signed magnitude, as a word, of the
literals whose magnitude is in the range of their form, and fails on all other strings. -/
theorem parseIntnat_exact (host : Host) (s : Bytes) (nbits : Nat) (errmsg : String)
    (hpos : 0 < nbits) (hle : nbits ≤ host.wordBits) :
    (∀ r, parseIntnat host s nbits errmsg = .ok r ↔ ∃ negative plain m,
      Literal s negative plain m ∧ Fits nbits negative plain m ∧
        r = host.intnat (if negative then -m else m)) ∧
    ((∀ r, parseIntnat host s nbits errmsg ≠ .ok r) →
      parseIntnat host s nbits errmsg = .error (.failure errmsg)) := by
  -- what the parser returns once the sign and the base are known
  have hparse : ∀ {st bt w base negative plain}, s = st ++ (bt ++ w) → BaseText bt base plain →
      parseSignAndBase s 0 = .ok (st.length + bt.length, base, plain, signOf negative) →
      parseIntnat host s nbits errmsg =
        if IsNumeral base w ∧ Fits nbits negative plain (magnitude base w) then
          .ok (host.intnat (if negative then -magnitude base w else magnitude base w))
        else .error (.failure errmsg) := by
    intro st bt w base negative plain hs hbt hheader
    rw [← append_assoc] at hs
    subst hs
    rw [← length_append] at hheader
    exact parseIntnat_of_header hpos hle hbt.base_mem hheader
  obtain ⟨st, bt, w, base, negative, plain, hst, hbt, hs, hheader⟩ := parseSignAndBase_spec s
  have heq := hparse hs hbt hheader
  refine ⟨fun r => ⟨fun h => ?_, ?_⟩, fun h => ?_⟩
  · rw [heq] at h
    split at h
    · next hok =>
      exact ⟨negative, plain, _, ⟨st, bt, w, base, hst, hbt, hok.1, hs, rfl⟩, hok.2,
        (Except.ok.inj h).symm⟩
    · cases h
  · rintro ⟨negative', plain', m, ⟨st', bt', w', base', hst', hbt', hw', hs', rfl⟩, hfits, rfl⟩
    rw [hparse hs' hbt' (hs' ▸ parseSignAndBase_of_text hst' hbt' hw'), if_pos ⟨hw', hfits⟩]
  · rw [heq] at h ⊢
    split
    · next hok =>
      rw [if_pos hok] at h
      exact absurd rfl (h _)
    · rfl

/-- The least integer of 63 bits, and one less -/
theorem parseIntnat_exact_minInt :
    camlIntOfString ⟨true, false⟩ "-4611686018427387904".toUTF8.toList =
      .ok (-4611686018427387904) ∧
    (∀ r, parseIntnat ⟨true, false⟩ "-4611686018427387904".toUTF8.toList 63 "" = .ok r ↔
      ∃ negative plain m, Literal "-4611686018427387904".toUTF8.toList negative plain m ∧
        Fits 63 negative plain m ∧ r = Host.intnat ⟨true, false⟩ (if negative then -m else m)) ∧
    Fits 63 true true 4611686018427387904 ∧ ¬Fits 63 true true 4611686018427387905 :=
  ⟨by decide +kernel, (parseIntnat_exact ⟨true, false⟩ _ 63 _ (by decide) (by decide)).1,
    by decide, by decide⟩

end TravLang.Runtime.Ints
