import Mathlib.Data.Nat.Bitwise
import TravLang.Runtime.Compare.Equality
import TravLang.Runtime.Hash.Queue

/-!
# Hashing respects equality

Two values that compare as equal are hashed alike: the queues hold pairs of such values at all
times. A Forward link is followed to its end before a value is hashed, the mixing of a float does
not distinguish floats that compare as equal, and that of a header leaves out the colour.
-/

namespace TravLang.Runtime.Hash

open List Binary64
open Compare (Same SameAll ValueOk DataOk HeapData camlCompare)

variable {host : Host} {heap : Heap CustomOps} {o : Obj Value CustomOps} {d : UInt64}
  {v w w1 w2 : Value} {k tag : Nat} {fields : List Value} {s1 s2 : State} {mem1 mem2 : Memory}

/-! ## Masks -/

theorem and_shiftLeft (n m k : Nat) : n &&& (m <<< k) = ((n >>> k) &&& m) <<< k := by
  apply Nat.eq_of_testBit_eq
  intro i
  by_cases h : k ≤ i
  · simp [Nat.testBit_shiftLeft, Nat.testBit_shiftRight, h]
  · simp [Nat.testBit_shiftLeft, h]

/-- A clean header does not depend on the colour. -/
theorem cleanhdHd_eq (host : Host) (mem : Memory) (v : Value) (htag : o.tag < 256) :
    cleanhdHd host (hdVal host mem v o) =
      o.tag ||| (o.wosize host &&& (2 ^ (host.wordBits - 10) - 1)) <<< 10 := by
  have hcolor : mem.color v % 4 < 4 := Nat.mod_lt _ (by decide)
  have hlow : hdVal host mem v o % 2 ^ 8 = o.tag := by
    unfold hdVal
    omega
  have hhigh : hdVal host mem v o >>> 10 = o.wosize host := by
    rw [Nat.shiftRight_eq_div_pow]
    unfold hdVal
    omega
  unfold cleanhdHd headerTagMask headerWosizeMask
  rw [Nat.and_or_distrib_left, Nat.and_two_pow_sub_one_eq_mod, and_shiftLeft, hlow, hhigh]

/-! ## Floats -/

theorem exponent_mask (h : UInt32) : h &&& 0x7FF00000 = 0x7FF00000 ↔
    h.toNat / 2 ^ 20 % 2 ^ 11 = 2047 := by
  have hmask : (0x7FF00000 : UInt32).toNat = (2 ^ 11 - 1) <<< 20 := by decide
  rw [← UInt32.toNat_inj, UInt32.toNat_and, hmask, and_shiftLeft, Nat.and_two_pow_sub_one_eq_mod,
    Nat.shiftRight_eq_div_pow, Nat.shiftLeft_eq, Nat.shiftLeft_eq]
  omega

theorem fraction_mask (h l : UInt32) : l ||| (h &&& 0xFFFFF) = 0 ↔
    l.toNat = 0 ∧ h.toNat % 2 ^ 20 = 0 := by
  have hmask : (0xFFFFF : UInt32).toNat = 2 ^ 20 - 1 := by decide
  rw [← UInt32.toNat_inj, UInt32.toNat_or, UInt32.toNat_and, hmask, Nat.and_two_pow_sub_one_eq_mod,
    UInt32.toNat_zero, Nat.or_eq_zero_iff]

theorem high_toNat (d : UInt64) : (d >>> 32).toUInt32.toNat = d.toNat / 2 ^ 32 := by
  have hlt := d.toNat_lt
  simp [UInt64.toNat_shiftRight, Nat.shiftRight_eq_div_pow]
  omega

theorem low_toNat (d : UInt64) : d.toUInt32.toNat = d.toNat % 2 ^ 32 := by
  simp

/-- The test for NaNs on the two halves of a float. -/
theorem isNaN_iff (d : UInt64) : ((d >>> 32).toUInt32 &&& 0x7FF00000 = 0x7FF00000 ∧
    d.toUInt32 ||| ((d >>> 32).toUInt32 &&& 0xFFFFF) ≠ 0) ↔ isNaN d = true := by
  have hlt := d.toNat_lt
  rw [exponent_mask, Ne, fraction_mask, high_toNat, low_toNat, isNaN, decide_eq_true_eq]
  unfold exponent fraction
  omega

theorem zero_iff (d : UInt64) (h : exponent d = 0 ∧ fraction d = 0) :
    d.toUInt32 = 0 ∧ ((d >>> 32).toUInt32 = 0 ∨ (d >>> 32).toUInt32 = 0x80000000) := by
  have hlt := d.toNat_lt
  obtain ⟨he, hf⟩ := h
  unfold exponent at he
  unfold fraction at hf
  rw [← UInt32.toNat_inj, ← UInt32.toNat_inj, ← UInt32.toNat_inj, high_toNat, low_toNat,
    UInt32.toNat_zero, show (0x80000000 : UInt32).toNat = 2 ^ 31 from rfl]
  omega

/-- The two halves of a float after normalisation. -/
def normalize (d : UInt64) : UInt32 × UInt32 :=
  if isNaN d then (0x7FF00000, 0x00000001)
  else if (d >>> 32).toUInt32 = 0x80000000 ∧ d.toUInt32 = 0 then (0, d.toUInt32)
  else ((d >>> 32).toUInt32, d.toUInt32)

theorem camlHashMixDouble_eq (hash : UInt32) (d : UInt64) :
    camlHashMixDouble hash d = mix (mix hash (normalize d).2) (normalize d).1 := by
  unfold camlHashMixDouble normalize
  simp only [isNaN_iff]

theorem normalize_zero (h : exponent d = 0 ∧ fraction d = 0) :
    normalize d = (0, 0) := by
  obtain ⟨hl, hh⟩ := zero_iff d h
  have hnan : ¬ isNaN d = true := by
    rw [isNaN, decide_eq_true_eq, h.1]
    exact fun hc => absurd hc.1 (by decide)
  rw [normalize, if_neg hnan, hl]
  rcases hh with hh | hh
  · rw [hh, if_neg (by decide)]
  · rw [hh, if_pos ⟨rfl, rfl⟩]

/-- Floats that compare as equal are mixed alike. -/
theorem camlHashMixDouble_same {d1 d2 : UInt64} (h : Binary64.Same d1 d2) (hash : UInt32) :
    camlHashMixDouble hash d1 = camlHashMixDouble hash d2 := by
  have hnorm : normalize d1 = normalize d2 := by
    rcases h with heq | ⟨h1, h2⟩
    · simp only [eq, Bool.and_eq_true, decide_eq_true_eq] at heq
      rcases scaled_inj heq.2 with rfl | ⟨hz1, hz2⟩
      · rfl
      · rw [normalize_zero hz1, normalize_zero hz2]
    · rw [normalize, normalize, if_pos h1, if_pos h2]
  rw [camlHashMixDouble_eq, camlHashMixDouble_eq, hnorm]

/-! ## Links -/

/-- The value at the end of a chain of Forward links, and the number of links. -/
inductive Ends (heap : Heap CustomOps) : Value → Value → Nat → Prop where
  | value {v : Value} : (∀ o, heap.obj v = some o → o.tag ≠ forwardTag) → Ends heap v v 0
  | link {v u w : Value} {us : List Value} {k : Nat} :
      heap.obj v = some (.structured forwardTag (u :: us)) → Ends heap u w k →
      Ends heap v w (k + 1)

/-- Chains of links have fewer links than are followed. -/
def ShortChains (heap : Heap CustomOps) : Prop :=
  ∀ a o, heap.get a = some o → ∃ w k, Ends heap (.block a) w k ∧ k < maxForwardDereference

theorem ShortChains.ends (h : ShortChains heap) (hv : ValueOk host heap v) :
    ∃ w k, Ends heap v w k ∧ k < maxForwardDereference := by
  cases v with
  | long n => exact ⟨_, 0, .value nofun, by decide⟩
  | atom tag =>
    refine ⟨_, 0, .value ?_, by decide⟩
    rintro o ⟨⟩
    exact (Compare.ordinaryTag_ne hv).1
  | block a =>
    obtain ⟨o, ho⟩ := Option.isSome_iff_exists.mp hv
    exact h a o ho

theorem Ends.eq_of_obj (h : Ends heap v w k) (ho : heap.obj v = some o)
    (htag : o.tag ≠ forwardTag) :
    w = v := by
  cases h with
  | value => rfl
  | link hv =>
    cases hv.symm.trans ho
    exact absurd rfl htag

theorem Ends.unique {w' : Value} {k' : Nat} (h : Ends heap v w k) (h' : Ends heap v w' k') :
    w = w' := by
  induction h generalizing k' with
  | value hv =>
    cases h' with
    | value => rfl
    | link ho => exact absurd rfl (hv _ ho)
  | link ho _ ih =>
    cases h' with
    | value hv => exact absurd rfl (hv _ ho)
    | link ho' hu' =>
      cases ho.symm.trans ho'
      exact ih hu'

theorem Ends.notForward (h : Ends heap v w k) :
    ∀ o, heap.obj w = some o → o.tag ≠ forwardTag := by
  induction h with
  | value hv => exact hv
  | link _ _ ih => exact ih

theorem valueOk_fields (hheap : HeapData host heap)
    (hv : ValueOk host heap v) (ho : heap.obj v = some (.structured tag fields)) :
    ∀ u ∈ fields, ValueOk host heap u := by
  rcases hheap.obj hv with ⟨n, rfl, -⟩ | ⟨o, ho', hdata⟩
  · cases ho
  · cases ho.symm.trans ho'
    exact hdata.2.1

theorem Ends.valueOk (hheap : HeapData host heap) (h : Ends heap v w k) (hv : ValueOk host heap v) :
    ValueOk host heap w := by
  induction h with
  | value => exact hv
  | link ho _ ih => exact ih (valueOk_fields hheap hv ho _ mem_cons_self)

/-- The same values at the ends of two chains: what hashing sees. -/
inductive Heads (heap : Heap CustomOps) : Value → Value → Prop where
  | long (n : Int) : Heads heap (.long n) (.long n)
  | string {v1 v2 : Value} {s : Bytes} : heap.obj v1 = some (.string s) →
      heap.obj v2 = some (.string s) → Heads heap v1 v2
  | double {v1 v2 : Value} {d1 d2 : UInt64} : heap.obj v1 = some (.double d1) →
      heap.obj v2 = some (.double d2) → Binary64.Same d1 d2 → Heads heap v1 v2
  | doubleArray {v1 v2 : Value} {ds1 ds2 : List UInt64} : heap.obj v1 = some (.doubleArray ds1) →
      heap.obj v2 = some (.doubleArray ds2) → List.Forall₂ Binary64.Same ds1 ds2 →
      Heads heap v1 v2
  | block {v1 v2 : Value} {tag : Nat} {fields1 fields2 : List Value} : OrdinaryTag tag →
      heap.obj v1 = some (.structured tag fields1) →
      heap.obj v2 = some (.structured tag fields2) → SameAll heap fields1 fields2 →
      Heads heap v1 v2

theorem heads_self (hheap : HeapData host heap) (hw : ValueOk host heap w)
    (hforward : ∀ o, heap.obj w = some o → o.tag ≠ forwardTag) : Heads heap w w := by
  rcases hheap.obj hw with ⟨n, rfl, -⟩ | ⟨o, ho, hdata⟩
  · exact .long n
  · rcases hdata.sameKind hdata rfl (hforward o ho) with ⟨tag, fields, _, htag, rfl, -⟩ |
      ⟨str, _, rfl, -⟩ | ⟨d, _, rfl, -⟩ | ⟨ds, _, rfl, -⟩
    · exact .block htag ho ho (Compare.sameAll_refl fields)
    · exact .string ho ho
    · exact .double ho ho (.refl d)
    · exact .doubleArray ho ho (forall₂_same.mpr fun d _ => .refl d)

theorem heads_of_same (hheap : HeapData host heap) {v1 v2 : Value} {k1 k2 : Nat}
    (hw1 : ValueOk host heap w1) :
    Same heap v1 v2 → Ends heap v1 w1 k1 → Ends heap v2 w2 k2 → Heads heap w1 w2
  | .refl v, h1, h2 => h1.unique h2 ▸ heads_self hheap hw1 h1.notForward
  | .string ho1 ho2, h1, h2 => by
    rw [h1.eq_of_obj ho1 (show stringTag ≠ forwardTag by decide),
      h2.eq_of_obj ho2 (show stringTag ≠ forwardTag by decide)]
    exact .string ho1 ho2
  | .double ho1 ho2 hd, h1, h2 => by
    rw [h1.eq_of_obj ho1 (show doubleTag ≠ forwardTag by decide),
      h2.eq_of_obj ho2 (show doubleTag ≠ forwardTag by decide)]
    exact .double ho1 ho2 hd
  | .doubleArray ho1 ho2 hds, h1, h2 => by
    rw [h1.eq_of_obj ho1 (show doubleArrayTag ≠ forwardTag by decide),
      h2.eq_of_obj ho2 (show doubleArrayTag ≠ forwardTag by decide)]
    exact .doubleArray ho1 ho2 hds
  | .forwardLeft ho hsame, .value hv, _ => absurd rfl (hv _ ho)
  | .forwardLeft ho hsame, .link ho' h1, h2 => by
    cases ho.symm.trans ho'
    exact heads_of_same hheap hw1 hsame h1 h2
  | .forwardRight ho hsame, _, .value hv => absurd rfl (hv _ ho)
  | .forwardRight ho hsame, h1, .link ho' h2 => by
    cases ho.symm.trans ho'
    exact heads_of_same hheap hw1 hsame h1 h2
  | .block htag ho1 ho2 hfields, h1, h2 => by
    rw [h1.eq_of_obj ho1 (Compare.ordinaryTag_ne htag).1,
      h2.eq_of_obj ho2 (Compare.ordinaryTag_ne htag).1]
    exact .block htag ho1 ho2 hfields

/-- The loop over the links finds the end of the chain. -/
theorem derefForward_ends (hheap : HeapData host heap) (hends : Ends heap v w k)
    (hv : ValueOk host heap v) (ho : heap.obj v = some o) (htag : o.tag = forwardTag) {i : Nat}
    (hk : k ≤ i) :
    derefForward heap i o = .ok (some w) := by
  induction hends generalizing o i with
  | value hne => exact absurd htag (hne o ho)
  | @link v u w us k ho' hu ih =>
    cases ho'.symm.trans ho
    obtain ⟨i, rfl⟩ : ∃ j, i = j + 1 := ⟨i - 1, by omega⟩
    have huok := valueOk_fields hheap hv ho u mem_cons_self
    rw [derefForward]
    rcases hheap.obj huok with ⟨n, rfl, -⟩ | ⟨o', ho', -⟩
    · -- an integer ends the chain
      cases hu with
      | value => rfl
      | link hlong => cases hlong
    · cases u with
      | long => cases ho'
      | _ =>
        simp only [Obj.fields, ho']
        split
        · next hne => rw [hu.eq_of_obj ho' hne]
        · next hf => exact ih huok ho' (not_not.mp hf) (Nat.le_of_succ_le_succ hk)

/-- A link leads to `again` with the end of its chain. -/
theorem halts_again {mem : Memory} (hheap : HeapData host mem.heap) {s : State}
    {r : Except Exn Int} (hends : Ends mem.heap v w k) (hv : ValueOk host mem.heap v)
    (hk : k < maxForwardDereference) (h : Machine.Halts (hashStep host mem) (.again s w) r) :
    Machine.Halts (hashStep host mem) (.again s v) r := by
  rcases hheap.obj hv with ⟨n, rfl, -⟩ | ⟨o, ho, hdata⟩
  · cases hends with
    | value => exact h
    | link hlong => cases hlong
  · by_cases hf : o.tag = forwardTag
    · refine Machine.halts_of_inl ?_ h
      obtain ⟨u, us, rfl, -⟩ := hdata.forward hf
      have hderef := derefForward_ends hheap hends hv ho rfl (Nat.le_of_lt hk)
      have hvalue : hashValue host mem s v = .ok (.again s w) := by
        unfold hashValue
        cases v with
        | long => cases ho
        | _ =>
          rw [ho]
          show hashForward mem.heap s _ = _
          unfold hashForward
          rw [hderef]
          rfl
      rw [hashStep, hvalue]
    · rw [← hends.eq_of_obj ho hf]
      exact h

/-! ## Two runs side by side -/

/-- Two states with the same values in their queues. -/
structure Alike (host : Host) (heap : Heap CustomOps) (s1 s2 : State) : Prop where
  queues : ∃ vs1 vs2, Holds s1 vs1 ∧ Holds s2 vs2 ∧ SameAll heap vs1 vs2 ∧
    (∀ v ∈ vs1, ValueOk host heap v) ∧ ∀ v ∈ vs2, ValueOk host heap v
  rd : s1.rd = s2.rd
  sz : s1.sz = s2.sz
  num : s1.num = s2.num
  h : s1.h = s2.h

theorem Alike.mixed (h : Alike host heap s1 s2) (num : Int) (hash : UInt32) :
    Alike host heap { s1 with num, h := hash } { s2 with num, h := hash } := by
  obtain ⟨vs1, vs2, h1, h2, hsame⟩ := h.queues
  exact ⟨⟨vs1, vs2, h1.mixed num hash, h2.mixed num hash, hsame⟩, h.rd, h.sz, rfl, rfl⟩

theorem Alike.enqueue (h : Alike host heap s1 s2) {fields1 fields2 : List Value}
    (hfields : SameAll heap fields1 fields2) (hok1 : ∀ v ∈ fields1, ValueOk host heap v)
    (hok2 : ∀ v ∈ fields2, ValueOk host heap v) :
    ∃ s1' s2', enqueue fields1 s1 = .ok s1' ∧ enqueue fields2 s2 = .ok s2' ∧
      Alike host heap s1' s2' ∧ s1'.rd = s1.rd := by
  obtain ⟨vs1, vs2, h1, h2, hsame, hvs1, hvs2⟩ := h.queues
  obtain ⟨s1', hs1, hq1, hrd1, hsz1, hnum1, hh1⟩ := h1.enqueue fields1
  obtain ⟨s2', hs2, hq2, hrd2, hsz2, hnum2, hh2⟩ := h2.enqueue fields2
  refine ⟨s1', s2', hs1, hs2, ⟨⟨_, _, hq1, hq2, ?_, ?_, ?_⟩, ?_, ?_, ?_, ?_⟩, hrd1⟩
  · rw [h.sz, hsame.length]
    exact hsame.append (hfields.take _)
  · exact forall_mem_append.mpr ⟨hvs1, fun v hv => hok1 v (mem_of_mem_take hv)⟩
  · exact forall_mem_append.mpr ⟨hvs2, fun v hv => hok2 v (mem_of_mem_take hv)⟩
  · rw [hrd1, hrd2, h.rd]
  · rw [hsz1, hsz2, h.sz]
  · rw [hnum1, hnum2, h.num]
  · rw [hh1, hh2, h.h]

theorem Alike.hashDoubles {ds1 ds2 : List UInt64} (hds : List.Forall₂ Binary64.Same ds1 ds2)
    (h : Alike host heap s1 s2) :
    Alike host heap (hashDoubles ds1 s1) (hashDoubles ds2 s2) := by
  induction hds generalizing s1 s2 with
  | nil => exact h
  | @cons d1 d2 ds1 ds2 hd _ ih =>
    have hnext := h.mixed (s1.num - 1) (camlHashMixDouble s1.h d1)
    rw [Hash.hashDoubles, Hash.hashDoubles, ← h.num, ← h.h, ← camlHashMixDouble_same hd]
    split
    · exact hnext
    · exact ih hnext

theorem hashDoubles_rd (ds : List UInt64) (s : State) : (hashDoubles ds s).rd = s.rd := by
  obtain ⟨num, hash, heq⟩ := hashDoubles_eq ds s
  rw [heq]

section Values

variable {mem : Memory} {s : State} {v : Value}

theorem hashValue_string {str : Bytes} (ho : mem.heap.obj v = some (.string str)) :
    hashValue host mem s v =
      .ok (.loop { s with h := camlHashMixString s.h str, num := s.num - 1 }) := by
  unfold hashValue
  cases v with
  | long => cases ho
  | _ => simp only [ho]

theorem hashValue_double (ho : mem.heap.obj v = some (.double d)) :
    hashValue host mem s v =
      .ok (.loop { s with h := camlHashMixDouble s.h d, num := s.num - 1 }) := by
  unfold hashValue
  cases v with
  | long => cases ho
  | _ => simp only [ho]

theorem hashValue_doubleArray {ds : List UInt64} (ho : mem.heap.obj v = some (.doubleArray ds)) :
    hashValue host mem s v = .ok (.loop (hashDoubles ds s)) := by
  unfold hashValue
  cases v with
  | long => cases ho
  | _ => simp only [ho]

/-- The header of an ordinary block is mixed, and its fields are put into the queue. -/
theorem hashValue_block (htag : OrdinaryTag tag)
    (ho : mem.heap.obj v = some (.structured tag fields)) {s' : State}
    (hs' : enqueue fields { s with h := camlHashMixUint32 s.h (UInt32.ofNat (tag |||
      (fields.length &&& (2 ^ (host.wordBits - 10) - 1)) <<< 10)) } = .ok s') :
    hashValue host mem s v = .ok (.loop s') := by
  have hhd := cleanhdHd_eq host mem v
    (show (Obj.structured tag fields : Obj Value CustomOps).tag < 256 from
      Compare.ordinaryTag_lt htag)
  obtain ⟨⟨hlt, hcont, hclosure, hinfix⟩, hobject, hforward⟩ := htag
  have hstructured : hashStructured host mem s v tag (.structured tag fields) =
      .ok (.loop s') := by
    unfold hashStructured
    rw [if_neg hinfix, if_neg hforward, if_neg hobject, if_neg hclosure, if_neg hcont, hhd]
    show (enqueue fields _ >>= fun s => .ok (After.loop s)) = _
    rw [show Obj.tag (.structured tag fields : Obj Value CustomOps) = tag from rfl,
      show Obj.wosize host (.structured tag fields : Obj Value CustomOps) = fields.length from rfl,
      hs']
    rfl
  unfold hashValue
  cases v with
  | long => cases ho
  | _ => simp only [ho, if_pos hlt, hstructured]

end Values

section

variable (hmem1 : mem1.heap = heap) (hmem2 : mem2.heap = heap) (hheap : HeapData host heap)

include hmem1 hmem2 hheap

/-- **Values that are the same lead to states that are alike.** -/
theorem hashValue_alike (hw1 : ValueOk host heap w1) (hw2 : ValueOk host heap w2)
    (hheads : Heads heap w1 w2) (h : Alike host heap s1 s2) :
    ∃ s1' s2', hashValue host mem1 s1 w1 = .ok (.loop s1') ∧
      hashValue host mem2 s2 w2 = .ok (.loop s2') ∧ Alike host heap s1' s2' ∧ s1'.rd = s1.rd := by
  subst hmem1
  cases hheads with
  | long n =>
    refine ⟨_, _, rfl, rfl, ?_, rfl⟩
    rw [← h.num, ← h.h]
    exact h.mixed _ _
  | string ho1 ho2 =>
    refine ⟨_, _, hashValue_string ho1, hashValue_string (hmem2 ▸ ho2), ?_, rfl⟩
    rw [← h.num, ← h.h]
    exact h.mixed _ _
  | double ho1 ho2 hd =>
    refine ⟨_, _, hashValue_double ho1, hashValue_double (hmem2 ▸ ho2), ?_, rfl⟩
    rw [← h.num, ← h.h, ← camlHashMixDouble_same hd]
    exact h.mixed _ _
  | doubleArray ho1 ho2 hds =>
    exact ⟨_, _, hashValue_doubleArray ho1, hashValue_doubleArray (hmem2 ▸ ho2),
      h.hashDoubles hds, hashDoubles_rd _ _⟩
  | @block _ _ tag fields1 fields2 htag ho1 ho2 hfields =>
    obtain ⟨s1', s2', hs1, hs2, halike, hrd⟩ := (h.mixed s1.num (camlHashMixUint32 s1.h
      (UInt32.ofNat (tag ||| (fields1.length &&& (2 ^ (host.wordBits - 10) - 1)) <<< 10)))).enqueue
      hfields (valueOk_fields hheap hw1 ho1) (valueOk_fields hheap hw2 ho2)
    refine ⟨s1', s2', hashValue_block htag ho1 hs1, ?_, halike, hrd⟩
    rw [h.num, h.h, hfields.length] at hs2
    exact hashValue_block htag (hmem2 ▸ ho2) hs2

/-- Two runs from states that are alike end with the same hash. Every round reads one value of the
queue, of which there are at most `HASH_QUEUE_SIZE`. -/
theorem halts_alike (hshort : ShortChains heap) (h : Alike host heap s1 s2) :
    ∃ r, Machine.Halts (hashStep host mem1) (.loop s1) (.ok r) ∧
      Machine.Halts (hashStep host mem2) (.loop s2) (.ok r) := by
  induction hsize : hashQueueSize - s1.rd using Nat.strongRecOn generalizing s1 s2 with
  | _ size ih =>
  obtain ⟨vs1, vs2, h1, h2, hsame, hvs1, hvs2⟩ := h.queues
  have hwr : s1.wr = s2.wr := by rw [h1.wr, h2.wr, hsame.length]
  by_cases hmore : s1.rd < s1.wr ∧ s1.num > 0
  · have hrd : s1.rd < vs1.length := h1.wr ▸ hmore.1
    obtain ⟨v1, v2, hv1, hv2, hv⟩ := hsame.get hrd
    have hok1 := hvs1 v1 (List.mem_of_getElem? hv1)
    have hok2 := hvs2 v2 (List.mem_of_getElem? hv2)
    obtain ⟨w1, k1, he1, hk1⟩ := hshort.ends hok1
    obtain ⟨w2, k2, he2, hk2⟩ := hshort.ends hok2
    have hw1 := he1.valueOk hheap hok1
    have hw2 := he2.valueOk hheap hok2
    -- the states after the values have been taken from the queues
    have hnext : Alike host heap { s1 with rd := s1.rd + 1 } { s2 with rd := s2.rd + 1 } :=
      ⟨⟨vs1, vs2, ⟨h1.queue, h1.wr, h1.wr_le, h1.sz_le, hrd⟩,
        ⟨h2.queue, h2.wr, h2.wr_le, h2.sz_le, by rw [← h.rd, ← hsame.length]; exact hrd⟩,
        hsame, hvs1, hvs2⟩, congrArg (· + 1) h.rd, h.sz, h.num, h.h⟩
    obtain ⟨s1', s2', hs1', hs2', halike, hrd'⟩ := hashValue_alike hmem1 hmem2 hheap hw1 hw2
      (heads_of_same hheap hw1 hv he1 he2) hnext
    have hless : hashQueueSize - s1'.rd < size := by
      have := h1.wr_le
      rw [hrd']
      show hashQueueSize - (s1.rd + 1) < size
      omega
    obtain ⟨r, hr1, hr2⟩ := ih _ hless halike rfl
    refine ⟨r, ?_, ?_⟩
    · have hstep : hashStep host mem1 (.loop s1) =
        .inl (.again { s1 with rd := s1.rd + 1 } v1) := by
        rw [hashStep, if_pos hmore, h1.read hv1]
      refine Machine.halts_of_inl hstep ?_
      subst hmem1
      refine halts_again hheap he1 hok1 hk1 (Machine.halts_of_inl ?_ hr1)
      rw [hashStep, hs1']
    · have hmore2 : s2.rd < s2.wr ∧ s2.num > 0 := by rwa [← h.rd, ← hwr, ← h.num]
      have hstep : hashStep host mem2 (.loop s2) =
          .inl (.again { s2 with rd := s2.rd + 1 } v2) := by
        rw [hashStep, if_pos hmore2, h2.read (h.rd ▸ hv2)]
      refine Machine.halts_of_inl hstep ?_
      subst hmem2
      refine halts_again hheap he2 hok2 hk2 (Machine.halts_of_inl ?_ hr2)
      rw [hashStep, hs2']
  · refine ⟨_, Machine.halts_of_inr (by rw [hashStep, if_neg hmore]), Machine.halts_of_inr ?_⟩
    rw [hashStep, if_neg (by rwa [← h.rd, ← hwr, ← h.num]), h.h]

end

/-- **Hashing respects equality**: values that compare as equal have the same hash, whatever the
colours of their headers, and hashing never leaves its queue. The values may have cycles. -/
theorem hash_respects_compare (hheap : HeapData host heap) (hshort : ShortChains heap) :
    (∀ (mem1 mem2 : Memory) (sys : Compare.System) (fuel : Nat) (v1 v2 : Value)
      (count limit seed : Int), mem1.heap = heap → mem2.heap = heap → ValueOk host heap v1 →
      ValueOk host heap v2 → camlCompare fuel host heap sys v1 v2 = some (.ok 0) →
      ∃ n r, ∀ fuel' ≥ n, camlHash fuel' host mem1 count limit seed v1 = some (.ok r) ∧
        camlHash fuel' host mem2 count limit seed v2 = some (.ok r)) ∧
    ∀ (mem : Memory) (fuel : Nat) (v : Value) (count limit seed : Int),
      camlHash fuel host mem count limit seed v ≠ some (.error .queueBounds) := by
  refine ⟨?_, fun mem fuel v count limit seed => camlHash_stays fuel count limit seed v⟩
  intro mem1 mem2 sys fuel v1 v2 count limit seed hmem1 hmem2 hv1 hv2 hcompare
  have hsame := Compare.same_of_camlCompare hheap hv1 hv2 hcompare
  obtain ⟨s1, hs1, hholds1, hrd1, hnum1, hh1, hsz1⟩ := initial_holds count limit seed v1
  obtain ⟨s2, hs2, hholds2, hrd2, hnum2, hh2, hsz2⟩ := initial_holds count limit seed v2
  have halike : Alike host heap s1 s2 := by
    refine ⟨⟨_, _, hholds1, hholds2, .cons hsame .nil, ?_, ?_⟩, ?_, ?_, ?_, ?_⟩
    · simpa using hv1
    · simpa using hv2
    · rw [hrd1, hrd2]
    · rw [hsz1, hsz2]
    · rw [hnum1, hnum2]
    · rw [hh1, hh2]
  obtain ⟨r, ⟨n1, hn1⟩, n2, hn2⟩ := halts_alike hmem1 hmem2 hheap hshort halike
  refine ⟨max n1 n2, r, fun fuel' hfuel => ⟨?_, ?_⟩⟩
  · unfold camlHash
    rw [hs1]
    exact Machine.run_mono hn1 (Nat.le_trans (Nat.le_max_left ..) hfuel)
  · unfold camlHash
    rw [hs2]
    exact Machine.run_mono hn2 (Nat.le_trans (Nat.le_max_right ..) hfuel)

/-- Two blocks with the two zeros for fields, one of them behind a link. -/
def twoZeros : Heap CustomOps :=
  [(8, .structured 0 [.block 24]), (16, .structured 0 [.block 32]), (24, .double 0),
   (32, .structured forwardTag [.block 40]), (40, .double 0x8000000000000000)]

theorem shortChains_twoZeros : ShortChains twoZeros := by
  intro a o hget
  have hmem := Heap.mem_of_get hget
  simp only [twoZeros, mem_cons, not_mem_nil, Prod.mk.injEq, or_false] at hmem
  rcases hmem with ⟨rfl, rfl⟩ | ⟨rfl, rfl⟩ | ⟨rfl, rfl⟩ | ⟨rfl, rfl⟩ | ⟨rfl, rfl⟩
  case inr.inr.inr.inl => exact ⟨_, 1, .link rfl (.value (by rintro _ ⟨⟩; decide)), by decide⟩
  all_goals exact ⟨_, 0, .value (by rintro _ ⟨⟩; decide), by decide⟩

theorem hash_respects_compare_twoZeros : ∃ n r, ∀ fuel ≥ n,
    camlHash fuel ⟨true, false⟩ ⟨twoZeros, fun _ => 0, id, fun _ _ => 0⟩ 10 100 0 (.block 8) =
      some (.ok r) ∧
    camlHash fuel ⟨true, false⟩ ⟨twoZeros, fun _ => 3, id, fun _ _ => 0⟩ 10 100 0 (.block 16) =
      some (.ok r) := by
  have hheap : HeapData ⟨true, false⟩ twoZeros := Heap.objects_of_mem (by decide +kernel)
  exact (hash_respects_compare hheap shortChains_twoZeros).1 _ _
    ⟨fun _ _ _ => .error .badAccess, fun _ => true, fun _ => none⟩ 20 _ _ 10 100 0 rfl rfl
    (by decide) (by decide) (by decide +kernel)

end TravLang.Runtime.Hash
