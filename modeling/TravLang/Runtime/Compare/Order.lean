import TravLang.Runtime.Compare.Shape
import TravLang.Runtime.Compare.Worklist
import TravLang.Runtime.Graph
import TravLang.Runtime.Words

/-!
# Comparison is a total order

A finite value without cycles that is made of integers, strings, ordinary blocks and Forward links
has a shape. `compare_val` gives the sign of the comparison of shapes, whether or not the comparison
is a total one, unless it is interrupted.
-/

namespace TravLang.Runtime.Compare

open Result List

variable {host : Host} {heap : Heap CustomOps} {sys : System} {total : Bool} {tag n m : Nat}
  {v v1 v2 : Value} {a b : Int} {s s1 s2 : Bytes} {fields1 fields2 fields vs : List Value}

/-! ## The shapes of values -/

mutual

/-- A value has a shape, which one sees after visiting so many values. -/
inductive Shaped (host : Host) (heap : Heap CustomOps) : Value → Shape → Nat → Prop where
  | int {n : Int} : InRange host n → Shaped host heap (.long n) (.int n) 1
  | string {v : Value} {s : Bytes} : heap.obj v = some (.string s) →
      (Obj.string s : Obj Value CustomOps).wosize host ≤ host.maxWosize →
      Shaped host heap v (.string s) 1
  | forward {v u : Value} {us : List Value} {x : Shape} {n : Nat} :
      heap.obj v = some (.structured forwardTag (u :: us)) → Shaped host heap u x n →
      Shaped host heap v x (n + 1)
  | block {v : Value} {tag : Fin stringTag} {fields : List Value} {xs : List Shape} {n : Nat} :
      heap.obj v = some (.structured tag fields) → OrdinaryTag tag →
      fields.length ≤ host.maxWosize → ShapedAll host heap fields xs n →
      Shaped host heap v (.block tag xs) (n + 1)

inductive ShapedAll (host : Host) (heap : Heap CustomOps) :
    List Value → List Shape → Nat → Prop where
  | nil : ShapedAll host heap [] [] 0
  | cons {v : Value} {x : Shape} {vs : List Value} {xs : List Shape} {n m : Nat} :
      Shaped host heap v x n → ShapedAll host heap vs xs m →
      ShapedAll host heap (v :: vs) (x :: xs) (n + m)

end

theorem ShapedAll.length {vs : List Value} {xs : List Shape} {n : Nat} :
    ShapedAll host heap vs xs n → vs.length = xs.length
  | .nil => rfl
  | .cons _ h => congrArg (· + 1) h.length

theorem ShapedAll.append {us : List Value} {ys : List Shape} {m : Nat}
    (h' : ShapedAll host heap us ys m) : ∀ {vs : List Value} {xs : List Shape} {n : Nat},
    ShapedAll host heap vs xs n → ShapedAll host heap (vs ++ us) (xs ++ ys) (n + m)
  | _, _, _, .nil => by
    rw [Nat.zero_add]
    exact h'
  | _, _, _, .cons h hs => by
    rw [Nat.add_assoc]
    exact .cons h (ShapedAll.append h' hs)

/-- The tags of ordinary blocks are not those of links, nor of strings. -/
theorem ordinaryTag_ne (h : OrdinaryTag tag) : tag ≠ forwardTag ∧ tag ≠ stringTag :=
  ⟨h.2.2, Nat.ne_of_lt (Nat.lt_trans h.1.1 (by decide))⟩

theorem Shaped.pos {x : Shape} (h : Shaped host heap v x n) : 0 < n := by
  cases h <;> exact Nat.succ_pos _

mutual

/-- A value has one shape. -/
theorem Shaped.unique {v : Value} {x y : Shape} {n m : Nat} (h : Shaped host heap v x n)
    (h' : Shaped host heap v y m) : x = y := by
  cases h with
  | int hn =>
    cases h' with
    | int => rfl
    | string hv => cases hv
    | forward hv => cases hv
    | block hv => cases hv
  | string hv =>
    cases h' with
    | int => cases hv
    | string hv' =>
      cases hv.symm.trans hv'
      rfl
    | forward hv' => cases hv.symm.trans hv'
    | block hv' => cases hv.symm.trans hv'
  | forward hv hu =>
    cases h' with
    | int => cases hv
    | string hv' => cases hv.symm.trans hv'
    | forward hv' hu' =>
      cases hv.symm.trans hv'
      exact hu.unique hu'
    | block hv' htag =>
      obtain ⟨heq, -⟩ := Obj.structured.inj (Option.some.inj (hv.symm.trans hv'))
      exact absurd heq.symm (ordinaryTag_ne htag).1
  | block hv htag _ hfields =>
    cases h' with
    | int => cases hv
    | string hv' => cases hv.symm.trans hv'
    | forward hv' =>
      obtain ⟨heq, -⟩ := Obj.structured.inj (Option.some.inj (hv.symm.trans hv'))
      exact absurd heq (ordinaryTag_ne htag).1
    | block hv' _ _ hfields' =>
      obtain ⟨heq, rfl⟩ := Obj.structured.inj (Option.some.inj (hv.symm.trans hv'))
      rw [Fin.ext heq, hfields.unique hfields']

theorem ShapedAll.unique {vs : List Value} {xs ys : List Shape} {n m : Nat}
    (h : ShapedAll host heap vs xs n) (h' : ShapedAll host heap vs ys m) : xs = ys := by
  cases h with
  | nil =>
    cases h'
    rfl
  | cons hv hvs =>
    cases h' with
    | cons hv' hvs' => rw [hv.unique hv', hvs.unique hvs']

end

/-! ## Differences that are returned -/

/-- A result with the sign of a comparison. -/
structure Decides (host : Host) (r : Int) (o : Ordering) : Prop where
  sign : compare r 0 = o
  ordered : r ≠ UNORDERED host

theorem decides_less : Decides host LESS .lt := by
  refine ⟨rfl, ?_⟩
  rcases wordBits_cases host with hbits | hbits <;> (rw [UNORDERED, hbits]; decide)

theorem decides_greater : Decides host GREATER .gt := by
  refine ⟨rfl, ?_⟩
  rcases wordBits_cases host with hbits | hbits <;> (rw [UNORDERED, hbits]; decide)

theorem decides_equal : Decides host EQUAL .eq := by
  refine ⟨rfl, ?_⟩
  rcases wordBits_cases host with hbits | hbits <;> (rw [UNORDERED, hbits]; decide)

theorem compare_sub_zero (a b : Int) : compare (a - b) 0 = compare a b := by
  rcases Int.lt_trichotomy a b with h | h | h
  · rw [Int.compare_eq_lt.mpr h, Int.compare_eq_lt]
    exact Int.sub_neg_of_lt h
  · rw [h, Int.sub_self, Int.compare_eq_eq.mpr rfl, Int.compare_eq_eq.mpr rfl]
  · rw [Int.compare_eq_gt.mpr h, Int.compare_eq_gt]
    exact Int.sub_pos_of_lt h

/-- A difference that is above the smallest `intnat` is neither cut off, nor taken for
`UNORDERED`. -/
theorem decides_sub (hlow : -2 ^ (host.wordBits - 1) < a - b)
    (hhigh : a - b < 2 ^ (host.wordBits - 1)) :
    Decides host (host.intnat (a - b)) (compare a b) := by
  rw [intnat_eq_self (Int.le_of_lt hlow) hhigh]
  exact ⟨compare_sub_zero a b, Int.ne_of_gt hlow⟩

theorem compare_natCast (a b : Nat) : compare (a : Int) b = compare a b := by
  simp only [compare, compareOfLessAndEq, Int.ofNat_lt, Int.ofNat_inj]

/-- The difference of two sizes. -/
theorem decides_sub_nat {a b : Nat} (ha : a < 2 ^ (host.wordBits - 1))
    (hb : b < 2 ^ (host.wordBits - 1)) :
    Decides host (host.intnat (a - b)) (compare a b) := by
  have ha' : (a : Int) < 2 ^ (host.wordBits - 1) := by exact_mod_cast ha
  have hb' : (b : Int) < 2 ^ (host.wordBits - 1) := by exact_mod_cast hb
  rw [← compare_natCast]
  exact decides_sub (by omega) (by omega)

/-- The comment in the source: the subtraction cannot overflow. -/
theorem decides_longs (ha : InRange host a) (hb : InRange host b) :
    Decides host (host.intnat (a - b)) (compare a b) := by
  obtain ⟨ha1, ha2⟩ := inRange_bounds ha
  obtain ⟨hb1, hb2⟩ := inRange_bounds hb
  exact decides_sub (by omega) (by omega)

theorem size_lt (h : n ≤ host.maxWosize) : n < 2 ^ (host.wordBits - 1) := by
  unfold Host.maxWosize at h
  rcases wordBits_cases host with hbits | hbits <;> (rw [hbits] at h ⊢; omega)

theorem stringLength_lt (h : (Obj.string s : Obj Value CustomOps).wosize host ≤ host.maxWosize) :
    s.length < 2 ^ (host.wordBits - 1) := by
  simp only [Obj.wosize, Host.maxWosize, Host.wordBits] at h ⊢
  rcases wordSize_cases host with hsize | hsize <;> (rw [hsize] at h ⊢; omega)

/-! ## One comparison -/

theorem compare_succ (a b : Nat) : compare (a + 1) (b + 1) = compare a b := by
  simp only [compare, compareOfLessAndEq, Nat.add_lt_add_iff_right, Nat.add_right_cancel_iff]

theorem compare_uint8 (a b : UInt8) : compare a.toNat b.toNat = compare a b := by
  simp only [compare, compareOfLessAndEq, UInt8.lt_iff_toNat_lt, UInt8.toNat_inj]

theorem then_of_ne_eq {o o' : Ordering} (h : o ≠ .eq) : o.then o' = o := by
  cases o with
  | eq => exact absurd rfl h
  | _ => rfl

/-- `memcmp`, and then the lengths: the lexicographic order. -/
theorem compare_bytes : ∀ s1 s2 : Bytes, compare s1 s2 =
    (compare (memcmp s1 s2 (min s1.length s2.length)) 0).then (compare s1.length s2.length)
  | [], [] => rfl
  | [], _ :: _ => rfl
  | _ :: _, [] => rfl
  | a :: s1, b :: s2 => by
    rw [List.compare_cons_cons, compare_bytes s1 s2, length_cons, length_cons,
      Nat.add_min_add_right, memcmp, compare_succ]
    split
    · next hab => rw [hab, Std.ReflOrd.compare_self, Ordering.eq_then]
    · next hab =>
      -- the first bytes decide
      have hne : compare a b ≠ .eq := fun h => hab (Std.LawfulEqOrd.eq_of_compare h)
      rw [compare_sub_zero, compare_natCast, compare_uint8]
      rw [then_of_ne_eq hne, then_of_ne_eq hne]

theorem compareStrings_spec (h1 : s1.length < 2 ^ (host.wordBits - 1))
    (h2 : s2.length < 2 ^ (host.wordBits - 1)) :
    (compareStrings host s1 s2 = .nextItem ∧ compare s1 s2 = .eq) ∨
    ∃ r, compareStrings host s1 s2 = .returns r ∧ Decides host r (compare s1 s2) ∧
      compare s1 s2 ≠ .eq := by
  unfold compareStrings
  dsimp only
  rw [compare_bytes, show (if s1.length ≤ s2.length then s1.length else s2.length) =
    min s1.length s2.length from (Nat.min_def ..).symm]
  generalize memcmp s1 s2 (min s1.length s2.length) = res
  split
  · next hlt =>
    rw [Int.compare_eq_lt.mpr hlt]
    exact .inr ⟨_, rfl, decides_less, nofun⟩
  · split
    · next hgt =>
      rw [Int.compare_eq_gt.mpr hgt]
      exact .inr ⟨_, rfl, decides_greater, nofun⟩
    · have hzero : res = 0 := by omega
      rw [hzero]
      split
      · next hlen =>
        exact .inr ⟨_, rfl, decides_sub_nat h1 h2, fun h => hlen (Nat.compare_eq_eq.mp h)⟩
      · next hlen =>
        rw [not_not.mp hlen]
        exact .inl ⟨rfl, Nat.compare_eq_eq.mpr rfl⟩

/-- What the comparison of two values with shapes leads to: a result with the right sign, or other
values that decide it. -/
inductive Outcome (host : Host) (heap : Heap CustomOps) (x1 x2 : Shape) (n m : Nat) :
    Next → Prop where
  | returns {r : Int} : Decides host r (x1.compare x2) → x1.compare x2 ≠ .eq →
      Outcome host heap x1 x2 n m (.returns r)
  | nextItem : x1.compare x2 = .eq → Outcome host heap x1 x2 n m .nextItem
  | continues {v1 v2 : Value} {n' m' : Nat} : Shaped host heap v1 x1 n' →
      Shaped host heap v2 x2 m' → n' + m' < n + m →
      Outcome host heap x1 x2 n m (.continues v1 v2)
  | fields {fields1 fields2 : List Value} {xs1 xs2 : List Shape} {n' m' : Nat} :
      ShapedAll host heap fields1 xs1 n' → ShapedAll host heap fields2 xs2 m' →
      n' + m' < n + m → fields1.length = fields2.length →
      x1.compare x2 = compareFields xs1 xs2 →
      Outcome host heap x1 x2 n m (.fields fields1 fields2)

section Values

variable {v1 v2 u : Value} {o1 o2 : Obj Value CustomOps} {us : List Value}

theorem blockOf_eq {o : Obj Value CustomOps} (h : heap.obj v = some o) :
    blockOf heap v = .ok o := by
  simp only [blockOf, h]

theorem compareValues_longBlock {n : Int} (h2 : heap.obj v2 = some o2)
    (hne : ¬ (.long n = v2 ∧ total = true)) :
    compareValues host heap sys total (.long n) v2 =
      compareLongBlock host sys total (.long n) v2 o2 := by
  unfold compareValues
  rw [if_neg hne]
  cases v2 with
  | long => cases h2
  | _ => simp only [blockOf_eq h2, ok_bind]

theorem compareValues_blockLong {n : Int} (h1 : heap.obj v1 = some o1)
    (hne : ¬ (v1 = .long n ∧ total = true)) :
    compareValues host heap sys total v1 (.long n) =
      compareBlockLong host sys total v1 (.long n) o1 := by
  unfold compareValues
  rw [if_neg hne]
  cases v1 with
  | long => cases h1
  | _ => simp only [blockOf_eq h1, ok_bind]

theorem compareValues_blocks (h1 : heap.obj v1 = some o1) (h2 : heap.obj v2 = some o2)
    (hne : ¬ (v1 = v2 ∧ total = true)) :
    compareValues host heap sys total v1 v2 = compareBlocks host sys total v1 v2 o1 o2 := by
  unfold compareValues
  rw [if_neg hne]
  cases v1 with
  | long => cases h1
  | _ =>
    cases v2 with
    | long => cases h2
    | _ => simp only [blockOf_eq h1, blockOf_eq h2, ok_bind]

/-- Blocks with different tags, neither of them a link or in a closure. -/
theorem compareBlocks_tags (hne : o1.tag ≠ o2.tag)
    (h1 : o1.tag ≠ forwardTag ∧ o1.tag ≠ infixTag) (h2 : o2.tag ≠ forwardTag ∧ o2.tag ≠ infixTag) :
    compareBlocks host sys total v1 v2 o1 o2 =
      .ok (.returns (host.intnat (o1.tag - o2.tag))) := by
  unfold compareBlocks closureTagOf
  rw [if_pos hne, if_neg h1.1, if_neg h2.1, if_neg h1.2, if_neg h2.2, if_pos hne]

theorem compareBlocks_sameTag (htag : o1.tag = o2.tag) :
    compareBlocks host sys total v1 v2 o1 o2 =
      compareSameTag host sys total o1.tag v1 v2 o1 o2 :=
  if_neg (not_not.mpr htag)

/-- Two blocks of fields with the same ordinary tag. -/
theorem compareBlocks_ordinary (htag : OrdinaryTag tag) :
    compareBlocks host sys total v1 v2 (.structured tag fields1) (.structured tag fields2) =
      if fields1.length ≠ fields2.length then
        .ok (.returns (host.intnat (fields1.length - fields2.length)))
      else if fields1.length = 0 then .ok .nextItem
      else .ok (.fields fields1 fields2) := by
  obtain ⟨⟨hlt, hcont, hclosure, hinfix⟩, hobject, hforward⟩ := htag
  unfold compareBlocks compareSameTag compareStructured
  dsimp only [Obj.tag, Obj.fields, Obj.wosize]
  rw [if_neg (not_not.mpr rfl), if_pos hlt, if_neg hforward,
    if_neg (not_or.mpr ⟨hclosure, hinfix⟩), if_neg hcont, if_neg hobject]

theorem compareBlocks_forwardLeft (h2 : o2.tag ≠ forwardTag) :
    compareBlocks host sys total v1 v2 (.structured forwardTag (u :: us)) o2 =
      .ok (.continues u v2) := by
  unfold compareBlocks
  exact (if_pos (Ne.symm h2)).trans (if_pos rfl)

theorem compareBlocks_forwardRight (h1 : o1.tag ≠ forwardTag) :
    compareBlocks host sys total v1 v2 o1 (.structured forwardTag (u :: us)) =
      .ok (.continues v1 u) := by
  unfold compareBlocks
  exact (if_pos h1).trans ((if_neg h1).trans (if_pos rfl))

theorem compareBlocks_strings :
    compareBlocks host sys total v1 v2 (.string s1) (.string s2) =
      .ok (if v1 = v2 then .nextItem else compareStrings host s1 s2) :=
  compareBlocks_sameTag rfl

end Values

theorem decides_tags {tag1 tag2 : Nat} (h1 : tag1 < 256) (h2 : tag2 < 256) :
    Decides host (host.intnat (tag1 - tag2)) (compare tag1 tag2) := by
  have hpow : 256 ≤ 2 ^ (host.wordBits - 1) := by
    rcases wordBits_cases host with hbits | hbits <;> (rw [hbits]; decide)
  exact decides_sub_nat (Nat.lt_of_lt_of_le h1 hpow) (Nat.lt_of_lt_of_le h2 hpow)

theorem ordinaryTag_lt (h : OrdinaryTag tag) : tag < 256 :=
  Nat.lt_trans h.1.1 (by decide)

/-- A string and an ordinary block. -/
theorem compareBlocks_stringBlock (htag : OrdinaryTag tag) :
    ∃ r, compareBlocks host sys total v1 v2 (.string s) (.structured tag fields) =
      .ok (.returns r) ∧ Decides host r (compare stringTag tag) ∧ compare stringTag tag ≠ .eq := by
  obtain ⟨hforward, hstring⟩ := ordinaryTag_ne htag
  refine ⟨_, compareBlocks_tags (Ne.symm hstring)
    ⟨show stringTag ≠ forwardTag by decide, show stringTag ≠ infixTag by decide⟩
    ⟨hforward, htag.1.2.2.2⟩, ?_, ?_⟩
  · exact decides_tags (show stringTag < 256 by decide) (ordinaryTag_lt htag)
  · exact fun h => hstring (Nat.compare_eq_eq.mp h).symm

theorem compareBlocks_blockString (htag : OrdinaryTag tag) :
    ∃ r, compareBlocks host sys total v1 v2 (.structured tag fields) (.string s) =
      .ok (.returns r) ∧ Decides host r (compare tag stringTag) ∧ compare tag stringTag ≠ .eq := by
  obtain ⟨hforward, hstring⟩ := ordinaryTag_ne htag
  refine ⟨_, compareBlocks_tags hstring ⟨hforward, htag.1.2.2.2⟩
    ⟨show stringTag ≠ forwardTag by decide, show stringTag ≠ infixTag by decide⟩, ?_, ?_⟩
  · exact decides_tags (ordinaryTag_lt htag) (show stringTag < 256 by decide)
  · exact fun h => hstring (Nat.compare_eq_eq.mp h)

/-- Two ordinary blocks. -/
theorem compareBlocks_shaped {tag1 tag2 : Fin stringTag}
    {xs1 xs2 : List Shape} (htag1 : OrdinaryTag tag1) (htag2 : OrdinaryTag tag2)
    (hsize1 : fields1.length ≤ host.maxWosize) (hsize2 : fields2.length ≤ host.maxWosize)
    (h1 : ShapedAll host heap fields1 xs1 n) (h2 : ShapedAll host heap fields2 xs2 m) :
    ∃ next, compareBlocks host sys total v1 v2 (.structured tag1 fields1)
      (.structured tag2 fields2) = .ok next ∧
      Outcome host heap (.block tag1 xs1) (.block tag2 xs2) (n + 1) (m + 1) next := by
  have hspec : Shape.compare (.block tag1 xs1) (.block tag2 xs2) =
      (compare tag1.val tag2.val).then
        ((compare fields1.length fields2.length).then (compareFields xs1 xs2)) := by
    rw [Shape.compare, h1.length, h2.length]
  by_cases htag : tag1 = tag2
  · subst htag
    rw [compareBlocks_ordinary htag1]
    rw [Std.ReflOrd.compare_self, Ordering.eq_then] at hspec
    split
    · next hlen =>
      have hne : compare fields1.length fields2.length ≠ .eq := fun h =>
        hlen (Nat.compare_eq_eq.mp h)
      rw [then_of_ne_eq hne] at hspec
      exact ⟨_, rfl, .returns (hspec ▸ decides_sub_nat (size_lt hsize1) (size_lt hsize2))
        (hspec ▸ hne)⟩
    · next hlen =>
      have hlen := not_not.mp hlen
      rw [Nat.compare_eq_eq.mpr hlen, Ordering.eq_then] at hspec
      split
      · next hzero =>
        refine ⟨_, rfl, .nextItem ?_⟩
        have hnil1 := length_eq_zero_iff.mp (h1.length ▸ hzero)
        have hnil2 := length_eq_zero_iff.mp (h2.length ▸ hlen ▸ hzero)
        rw [hspec, hnil1, hnil2]
        rfl
      · exact ⟨_, rfl, .fields h1 h2 (by omega) hlen hspec⟩
  · have hne : tag1.val ≠ tag2.val := fun h => htag (Fin.ext h)
    have hne' : compare tag1.val tag2.val ≠ .eq := fun h => hne (Nat.compare_eq_eq.mp h)
    rw [then_of_ne_eq hne'] at hspec
    exact ⟨_, compareBlocks_tags hne ⟨(ordinaryTag_ne htag1).1, htag1.1.2.2.2⟩
      ⟨(ordinaryTag_ne htag2).1, htag2.1.2.2.2⟩,
      .returns (hspec ▸ decides_tags (ordinaryTag_lt htag1) (ordinaryTag_lt htag2))
        (hspec ▸ hne')⟩

/-- **A comparison of two values with shapes decides their order, or is passed on.** -/
theorem compareValues_shaped (sys : System) (total : Bool) {x1 x2 : Shape}
    (h1 : Shaped host heap v1 x1 n) (h2 : Shaped host heap v2 x2 m) :
    ∃ next, compareValues host heap sys total v1 v2 = .ok next ∧
      Outcome host heap x1 x2 n m next := by
  by_cases hsame : v1 = v2 ∧ total = true
  · refine ⟨.nextItem, if_pos hsame, .nextItem ?_⟩
    obtain ⟨rfl, -⟩ := hsame
    rw [h1.unique h2]
    exact Std.ReflCmp.compare_self
  have hstring : stringTag ≠ forwardTag := by decide
  cases h1 with
  | int hn =>
    cases h2 with
    | int hm =>
      unfold compareValues
      rw [if_neg hsame]
      dsimp only
      split
      · next heq =>
        rw [heq]
        exact ⟨_, rfl, .nextItem Std.ReflCmp.compare_self⟩
      · next hne =>
        refine ⟨_, rfl, .returns ?_ ?_⟩
        · rw [Shape.compare]
          exact decides_longs hn hm
        · rw [Shape.compare]
          exact fun h => hne (Int.compare_eq_eq.mp h)
    | string hv2 _ =>
      rw [compareValues_longBlock hv2 hsame]
      exact ⟨_, if_neg hstring, .returns decides_less nofun⟩
    | forward hv2 hu2 =>
      rw [compareValues_longBlock hv2 hsame]
      exact ⟨_, if_pos rfl, .continues (.int hn) hu2 (by omega)⟩
    | block hv2 htag2 _ _ =>
      rw [compareValues_longBlock hv2 hsame]
      exact ⟨_, if_neg (ordinaryTag_ne htag2).1, .returns decides_less nofun⟩
  | string hv1 hsize1 =>
    cases h2 with
    | int hm =>
      rw [compareValues_blockLong hv1 hsame]
      exact ⟨_, if_neg hstring, .returns decides_greater nofun⟩
    | string hv2 hsize2 =>
      rw [compareValues_blocks hv1 hv2 hsame, compareBlocks_strings]
      refine ⟨_, rfl, ?_⟩
      split
      · next heq =>
        subst heq
        cases hv1.symm.trans hv2
        exact .nextItem Std.ReflCmp.compare_self
      · rcases compareStrings_spec (stringLength_lt hsize1) (stringLength_lt hsize2) with
          ⟨hnext, heq⟩ | ⟨r, hr, hdec, hne⟩
        · rw [hnext]
          exact .nextItem (by rw [Shape.compare, heq])
        · rw [hr]
          rw [← Shape.compare] at hdec hne
          exact .returns hdec hne
    | forward hv2 hu2 =>
      rw [compareValues_blocks hv1 hv2 hsame]
      exact ⟨_, compareBlocks_forwardRight hstring, .continues (.string hv1 hsize1) hu2 (by omega)⟩
    | block hv2 htag2 _ _ =>
      rw [compareValues_blocks hv1 hv2 hsame]
      obtain ⟨r, hr, hdec, hne⟩ := compareBlocks_stringBlock htag2
      exact ⟨_, hr, .returns (by rw [Shape.compare]; exact hdec) (by rw [Shape.compare]; exact hne)⟩
  | forward hv1 hu1 =>
    cases h2 with
    | int hm =>
      rw [compareValues_blockLong hv1 hsame]
      exact ⟨_, if_pos rfl, .continues hu1 (.int hm) (by omega)⟩
    | string hv2 hsize2 =>
      rw [compareValues_blocks hv1 hv2 hsame]
      exact ⟨_, compareBlocks_forwardLeft hstring, .continues hu1 (.string hv2 hsize2) (by omega)⟩
    | forward hv2 hu2 =>
      rw [compareValues_blocks hv1 hv2 hsame]
      exact ⟨_, rfl, .continues hu1 hu2 (by omega)⟩
    | block hv2 htag2 hsize2 hfields2 =>
      rw [compareValues_blocks hv1 hv2 hsame]
      exact ⟨_, compareBlocks_forwardLeft (ordinaryTag_ne htag2).1,
        .continues hu1 (.block hv2 htag2 hsize2 hfields2) (by omega)⟩
  | block hv1 htag1 hsize1 hfields1 =>
    cases h2 with
    | int hm =>
      rw [compareValues_blockLong hv1 hsame]
      exact ⟨_, if_neg (ordinaryTag_ne htag1).1, .returns decides_greater nofun⟩
    | string hv2 hsize2 =>
      rw [compareValues_blocks hv1 hv2 hsame]
      obtain ⟨r, hr, hdec, hne⟩ := compareBlocks_blockString htag1
      exact ⟨_, hr, .returns (by rw [Shape.compare]; exact hdec) (by rw [Shape.compare]; exact hne)⟩
    | forward hv2 hu2 =>
      rw [compareValues_blocks hv1 hv2 hsame]
      exact ⟨_, compareBlocks_forwardRight (ordinaryTag_ne htag1).1,
        .continues (.block hv1 htag1 hsize1 hfields1) hu2 (by omega)⟩
    | block hv2 htag2 hsize2 hfields2 =>
      rw [compareValues_blocks hv1 hv2 hsame]
      exact compareBlocks_shaped htag1 htag2 hsize1 hsize2 hfields1 hfields2

/-! ## Whole comparisons -/

/-- The list of pairs decides the order of two lists of shapes. The induction is on the number of
values that are still to be visited. -/
theorem workStep_shaped (sys : System) (total : Bool) {ws : List Value} {xs ys : List Shape}
    (hvs : ShapedAll host heap vs xs n) (hws : ShapedAll host heap ws ys m)
    (hlen : vs.length = ws.length) :
    ∃ k, Machine.Halts (workStep host heap sys total) (vs.zip ws) (.ok k) ∧
      Decides host k (compareFields xs ys) := by
  induction hsize : n + m using Nat.strongRecOn generalizing vs ws xs ys n m with
  | _ size ih =>
  cases hvs with
  | nil =>
    cases hws with
    | nil => exact ⟨EQUAL, Machine.halts_of_inr rfl, decides_equal⟩
    | cons => cases hlen
  | @cons v x vs xs n₁ n₂ hv hvs =>
    cases hws with
    | nil => cases hlen
    | @cons w y ws ys m₁ m₂ hw hws =>
      have hlen' : vs.length = ws.length := Nat.succ.inj hlen
      have hpos := hv.pos
      obtain ⟨next, hnext, hout⟩ :=
        compareValues_shaped sys total hv hw
      rw [zip_cons_cons, compareFields]
      cases hout with
      | returns hdec hne =>
        rw [then_of_ne_eq hne]
        exact ⟨_, Machine.halts_of_inr (by simp only [workStep, hnext]), hdec⟩
      | nextItem heq =>
        obtain ⟨k, hk, hdec⟩ := ih _ (by omega) hvs hws hlen' rfl
        rw [heq, Ordering.eq_then]
        exact ⟨k, Machine.halts_of_inl (by simp only [workStep, hnext]) hk, hdec⟩
      | continues hv' hw' hless =>
        obtain ⟨k, hk, hdec⟩ := ih _ (by omega) (.cons hv' hvs) (.cons hw' hws)
          (congrArg (· + 1) hlen') rfl
        rw [compareFields] at hdec
        exact ⟨k, Machine.halts_of_inl (by simp only [workStep, hnext]; rfl) hk, hdec⟩
      | fields hfields1 hfields2 hless hlength heq =>
        have hshapes : _ = _ := hfields1.length.symm.trans (hlength.trans hfields2.length)
        obtain ⟨k, hk, hdec⟩ := ih _ (by omega) (hvs.append hfields1) (hws.append hfields2)
          (by rw [length_append, length_append, hlength, hlen']) rfl
        rw [compareFields_append hshapes, ← heq] at hdec
        rw [zip_append hlength] at hk
        exact ⟨k, Machine.halts_of_inl (by simp only [workStep, hnext]) hk, hdec⟩

/-! ## Values without cycles -/

/-- A value of a host, made of integers, strings, ordinary blocks and Forward links. -/
def ValueOk (host : Host) (heap : Heap CustomOps) : Value → Prop
  | .long n => InRange host n
  | .atom tag => OrdinaryTag tag
  | .block a => (heap.get a).isSome

def ObjOk (host : Host) (heap : Heap CustomOps) (o : Obj Value CustomOps) : Prop :=
  o.wosize host ≤ host.maxWosize ∧ (∀ v ∈ o.fields, ValueOk host heap v) ∧
  match o with
  | .structured tag fields => OrdinaryTag tag ∨ tag = forwardTag ∧ fields ≠ []
  | .string _ => True
  | _ => False

instance (host : Host) (heap : Heap CustomOps) : (v : Value) → Decidable (ValueOk host heap v)
  | .long n => inferInstanceAs (Decidable (InRange host n))
  | .atom tag => inferInstanceAs (Decidable (OrdinaryTag tag))
  | .block a => inferInstanceAs (Decidable ((heap.get a).isSome = true))

instance (host : Host) (heap : Heap CustomOps) (o : Obj Value CustomOps) :
    Decidable (ObjOk host heap o) := by
  cases o <;> exact inferInstanceAs (Decidable (_ ∧ _ ∧ _))

/-- The blocks of finite values without cycles. -/
structure HeapOk (host : Host) (heap : Heap CustomOps) : Prop where
  objects : ∀ a o, heap.get a = some o → ObjOk host heap o
  acyclic : Graph.Acyclic host heap.get

def HasShape (host : Host) (heap : Heap CustomOps) (v : Value) (x : Shape) : Prop :=
  ∃ n, Shaped host heap v x n

theorem exists_shapedAll (h : ∀ u ∈ vs, ∃ x, HasShape host heap u x) :
    ∃ xs n, ShapedAll host heap vs xs n := by
  induction vs with
  | nil => exact ⟨[], 0, .nil⟩
  | cons u vs ih =>
    obtain ⟨x, n, hx⟩ := h u mem_cons_self
    obtain ⟨xs, m, hxs⟩ := ih fun w hw => h w (mem_cons_of_mem _ hw)
    exact ⟨x :: xs, n + m, .cons hx hxs⟩

theorem hasShape_atom (h : OrdinaryTag tag) : ∃ x, HasShape host heap (.atom tag) x :=
  ⟨.block ⟨tag, Nat.lt_trans h.1.1 (by decide)⟩ [], 1, .block rfl h (Nat.zero_le _) .nil⟩

theorem hasShape_empty {a : Nat} {o : Obj Value CustomOps} (hget : heap.get a = some o)
    (ho : ObjOk host heap o) (hzero : o.wosize host = 0) :
    ∃ x, HasShape host heap (.block a) x := by
  obtain ⟨hsize, -, hkind⟩ := ho
  cases o with
  | structured tag fields =>
    obtain rfl : fields = [] := length_eq_zero_iff.mp hzero
    rcases hkind with htag | ⟨-, hne⟩
    · exact ⟨.block ⟨tag, Nat.lt_trans htag.1.1 (by decide)⟩ [], 1, .block hget htag hsize .nil⟩
    · exact absurd rfl hne
  | string s => exact ⟨.string s, 1, .string hget hsize⟩
  | _ => exact hkind.elim

/-- **A value without cycles has a shape.** -/
theorem HeapOk.hasShape (h : HeapOk host heap) (hv : ValueOk host heap v) :
    ∃ x, HasShape host heap v x := by
  -- by induction on the blocks, in the order of their fields
  have hblock : ∀ a, (heap.get a).isSome → ∃ x, HasShape host heap (.block a) x := by
    intro a
    induction h.acyclic.acc_heap a with
    | intro a _ ih =>
    intro ha
    obtain ⟨o, hget⟩ := Option.isSome_iff_exists.mp ha
    obtain ⟨hsize, hfields, hkind⟩ := h.objects a o hget
    cases o with
    | structured tag fields =>
      have hall : ∀ u ∈ fields, ∃ x, HasShape host heap u x := by
        intro u hu
        have hu' := hfields u hu
        cases u with
        | long n => exact ⟨.int n, 1, .int hu'⟩
        | atom t => exact hasShape_atom hu'
        | block b =>
          obtain ⟨o', hget'⟩ := Option.isSome_iff_exists.mp hu'
          by_cases hzero : o'.wosize host = 0
          · exact hasShape_empty hget' (h.objects b o' hget') hzero
          · exact ih b ⟨_, _, hget, hu, Graph.view_block hget' hzero⟩ hu'
      rcases hkind with htag | ⟨rfl, hne⟩
      · obtain ⟨xs, n, hxs⟩ := exists_shapedAll hall
        exact ⟨.block ⟨tag, Nat.lt_trans htag.1.1 (by decide)⟩ xs, n + 1,
          .block hget htag hsize hxs⟩
      · obtain ⟨u, us, rfl⟩ := exists_cons_of_ne_nil hne
        obtain ⟨x, n, hx⟩ := hall u mem_cons_self
        exact ⟨x, n + 1, .forward hget hx⟩
    | string s => exact ⟨.string s, 1, .string hget hsize⟩
    | _ => exact hkind.elim
  cases v with
  | long n => exact ⟨.int n, 1, .int hv⟩
  | atom tag => exact hasShape_atom hv
  | block a => exact hblock a hv

/-! ## The total order -/

section Order

variable {v v1 v2 v3 : Value} {x x1 x2 x3 : Shape} {fuel : Nat} {k r : Int} {o : Ordering}

theorem HasShape.unique (h : HasShape host heap v x1) (h' : HasShape host heap v x2) : x1 = x2 :=
  h.choose_spec.unique h'.choose_spec

/-- `compare_val` comes to an end, with the order of the shapes unless it is interrupted. -/
theorem compareVal_hasShape (h1 : HasShape host heap v1 x1) (h2 : HasShape host heap v2 x2)
    (sys : System) (total : Bool) :
    ∃ n r, (∀ fuel ≥ n, compareVal fuel host heap sys v1 v2 total = some r) ∧
      (Interrupted sys r ∨ ∃ k, r = .ok k ∧ Decides host k (x1.compare x2)) := by
  obtain ⟨n, h1⟩ := h1
  obtain ⟨m, h2⟩ := h2
  obtain ⟨k, hk, hdec⟩ := workStep_shaped sys total (.cons h1 .nil) (.cons h2 .nil) rfl
  rw [compareFields, compareFields, Ordering.then_eq] at hdec
  obtain ⟨n', r, hr, hres⟩ := compareVal_of_halts hk
  exact ⟨n', r, hr, hres.imp_right fun h => ⟨k, h, hdec⟩⟩

/-- The same, of a result. -/
theorem decides_of_compareVal (h1 : HasShape host heap v1 x1) (h2 : HasShape host heap v2 x2)
    (h : compareVal fuel host heap sys v1 v2 total = some (.ok k)) :
    Decides host k (x1.compare x2) := by
  obtain ⟨n, r, hr, hres⟩ := compareVal_hasShape h1 h2 sys total
  have heq := (hr (max n fuel) (Nat.le_max_left ..)).symm.trans
    (Machine.run_mono h (Nat.le_max_right ..))
  cases heq
  rcases hres with (hoom | ⟨_, _, _, hraised⟩) | ⟨k', hk', hdec⟩
  · cases hoom
  · cases hraised
  · cases hk'
    exact hdec

/-- A primitive returns what it makes of a comparison. -/
theorem primitive_eq_ok {α : Type} {result : Int → α} {a : α}
    (h : primitive fuel host heap sys v1 v2 total result = some (.ok a)) :
    ∃ k, compareVal fuel host heap sys v1 v2 total = some (.ok k) ∧ a = result k := by
  unfold primitive at h
  obtain ⟨r, hr, h⟩ := Option.map_eq_some_iff.mp h
  cases r with
  | error e => cases h
  | ok k =>
    cases h
    exact ⟨k, hr, rfl⟩

/-- The result of `caml_compare` -/
def orderingResult : Ordering → Int
  | .lt => LESS
  | .eq => EQUAL
  | .gt => GREATER

theorem camlCompare_eq (h1 : HasShape host heap v1 x1) (h2 : HasShape host heap v2 x2)
    (h : camlCompare fuel host heap sys v1 v2 = some (.ok r)) :
    r = orderingResult (x1.compare x2) := by
  obtain ⟨k, hk, rfl⟩ := primitive_eq_ok h
  have hdec := (decides_of_compareVal h1 h2 hk).sign
  split
  · next hlt =>
    rw [← hdec, Int.compare_eq_lt.mpr hlt]
    rfl
  · split
    · next hgt =>
      rw [← hdec, Int.compare_eq_gt.mpr hgt]
      rfl
    · rw [← hdec, Int.compare_eq_eq.mpr (by omega)]
      rfl

theorem camlCompare_self (fuel : Nat) (sys : System) (v : Value) :
    camlCompare (fuel + 1) host heap sys v v = some (.ok EQUAL) := by
  have hstep : compareStep host heap sys true (initial v v) = .inr (.ok EQUAL) := by
    unfold compareStep compareValues initial
    simp only [and_self, if_true]
    rfl
  unfold camlCompare primitive compareVal
  rw [Machine.run, hstep]
  rfl

theorem orderingResult_neg (o : Ordering) : orderingResult o.swap = -orderingResult o := by
  cases o <;> rfl

theorem orderingResult_le : orderingResult o ≤ 0 ↔ o.isLE := by
  cases o <;> decide

theorem orderingResult_eq_zero : orderingResult o = 0 ↔ o = .eq := by
  cases o <;> decide

/-- A partial comparison of values with shapes has the sign of the total one. -/
theorem sign_of_camlCompare (h1 : HasShape host heap v1 x1) (h2 : HasShape host heap v2 x2)
    {sys' : System} {fuel' : Nat} (hr : camlCompare fuel host heap sys v1 v2 = some (.ok r))
    (hk : compareVal fuel' host heap sys' v1 v2 total = some (.ok k)) :
    (k = 0 ↔ r = 0) ∧ (k < 0 ↔ r < 0) ∧ k ≠ UNORDERED host := by
  obtain ⟨hsign, hordered⟩ := decides_of_compareVal h1 h2 hk
  rw [camlCompare_eq h1 h2 hr, ← hsign]
  refine ⟨?_, ?_, hordered⟩
  · rw [orderingResult_eq_zero, Int.compare_eq_eq]
  · rw [← Int.compare_eq_lt]
    cases compare k 0 <;> decide

/-- **Structural comparison is a total order**: `compare_val` decides the order of shapes, and the
primitives are consistent with it. The calls that are compared with each other need not find the
same memory and the same pending actions. -/
theorem compare_total_order (hheap : HeapOk host heap) :
    (∀ v, ValueOk host heap v → ∃! x, HasShape host heap v x) ∧
    (∀ v1 v2 x1 x2, HasShape host heap v1 x1 → HasShape host heap v2 x2 → ∀ sys total, ∃ n r,
      (∀ fuel ≥ n, compareVal fuel host heap sys v1 v2 total = some r) ∧
      (Interrupted sys r ∨
        ∃ k, r = .ok k ∧ k ≠ UNORDERED host ∧ compare k 0 = x1.compare x2)) ∧
    (∀ v sys fuel, camlCompare (fuel + 1) host heap sys v v = some (.ok 0)) ∧
    (∀ v1 v2 sys sys' fuel fuel' r r', ValueOk host heap v1 → ValueOk host heap v2 →
      camlCompare fuel host heap sys v1 v2 = some (.ok r) →
      camlCompare fuel' host heap sys' v2 v1 = some (.ok r') →
      r' = -r ∧ (r = 0 → ∀ x, HasShape host heap v1 x ↔ HasShape host heap v2 x)) ∧
    (∀ v1 v2 v3 sys sys' sys'' fuel fuel' fuel'' r r' r'', ValueOk host heap v1 →
      ValueOk host heap v2 → ValueOk host heap v3 →
      camlCompare fuel host heap sys v1 v2 = some (.ok r) →
      camlCompare fuel' host heap sys' v2 v3 = some (.ok r') →
      camlCompare fuel'' host heap sys'' v1 v3 = some (.ok r'') →
      r ≤ 0 → r' ≤ 0 → r'' ≤ 0) ∧
    (∀ v1 v2 sys sys' fuel fuel' r b, ValueOk host heap v1 → ValueOk host heap v2 →
      camlCompare fuel host heap sys v1 v2 = some (.ok r) →
      (camlEqual fuel' host heap sys' v1 v2 = some (.ok b) → b = decide (r = 0)) ∧
      (camlNotequal fuel' host heap sys' v1 v2 = some (.ok b) → b = decide (r ≠ 0)) ∧
      (camlLessthan fuel' host heap sys' v1 v2 = some (.ok b) → b = decide (r < 0)) ∧
      (camlLessequal fuel' host heap sys' v1 v2 = some (.ok b) → b = decide (r ≤ 0)) ∧
      (camlGreaterthan fuel' host heap sys' v1 v2 = some (.ok b) → b = decide (r > 0)) ∧
      (camlGreaterequal fuel' host heap sys' v1 v2 = some (.ok b) → b = decide (r ≥ 0))) := by
  refine ⟨?_, ?_, ?_, ?_, ?_, ?_⟩
  · intro v hv
    obtain ⟨x, hx⟩ := hheap.hasShape hv
    exact ⟨x, hx, fun y hy => hy.unique hx⟩
  · intro v1 v2 x1 x2 h1 h2 sys total
    obtain ⟨n, r, hr, hres⟩ := compareVal_hasShape h1 h2 sys total
    exact ⟨n, r, hr, hres.imp_right fun ⟨k, hk, hdec⟩ => ⟨k, hk, hdec.ordered, hdec.sign⟩⟩
  · exact fun v sys fuel => camlCompare_self fuel sys v
  · intro v1 v2 sys sys' fuel fuel' r r' hv1 hv2 hr hr'
    obtain ⟨x1, h1⟩ := hheap.hasShape hv1
    obtain ⟨x2, h2⟩ := hheap.hasShape hv2
    rw [camlCompare_eq h1 h2 hr, camlCompare_eq h2 h1 hr', ← orderingResult_neg,
      Shape.compare_swap]
    refine ⟨rfl, fun hzero x => ?_⟩
    have hx := Shape.eq_of_compare (orderingResult_eq_zero.mp hzero)
    subst hx
    exact ⟨fun h => h.unique h1 ▸ h2, fun h => h.unique h2 ▸ h1⟩
  · intro v1 v2 v3 sys sys' sys'' fuel fuel' fuel'' r r' r'' hv1 hv2 hv3 hr hr' hr''
    obtain ⟨x1, h1⟩ := hheap.hasShape hv1
    obtain ⟨x2, h2⟩ := hheap.hasShape hv2
    obtain ⟨x3, h3⟩ := hheap.hasShape hv3
    rw [camlCompare_eq h1 h2 hr, camlCompare_eq h2 h3 hr', camlCompare_eq h1 h3 hr'',
      orderingResult_le, orderingResult_le, orderingResult_le]
    exact Std.TransCmp.isLE_trans
  · intro v1 v2 sys sys' fuel fuel' r b hv1 hv2 hr
    obtain ⟨x1, h1⟩ := hheap.hasShape hv1
    obtain ⟨x2, h2⟩ := hheap.hasShape hv2
    have hspec : ∀ {result : Int → Bool}, primitive fuel' host heap sys' v1 v2 false result =
        some (.ok b) → ∃ k, b = result k ∧ (k = 0 ↔ r = 0) ∧ (k < 0 ↔ r < 0) ∧
          k ≠ UNORDERED host := by
      intro result hb
      obtain ⟨k, hk, hbk⟩ := primitive_eq_ok hb
      exact ⟨k, hbk, sign_of_camlCompare h1 h2 hr hk⟩
    refine ⟨?_, ?_, ?_, ?_, ?_, ?_⟩ <;> intro hb <;>
      obtain ⟨k, rfl, hzero, hneg, hordered⟩ := hspec hb <;> rw [decide_eq_decide] <;> omega

/-- Two pairs of an integer and a string. One has its own string, behind a link. -/
def linkedPairs : Heap CustomOps :=
  [(8, .structured 0 [.long 1, .block 32]), (16, .structured 0 [.long 1, .block 24]),
   (24, .structured forwardTag [.block 40]), (32, .string [97]), (40, .string [98])]

theorem compare_total_order_linkedPairs :
    camlCompare 20 ⟨true, false⟩ linkedPairs ⟨fun _ _ _ => .error .badAccess, fun _ => true,
      fun _ => none⟩ (.block 8) (.block 16) = some (.ok (-1)) ∧
    (∃! x, HasShape ⟨true, false⟩ linkedPairs (.block 16) x) ∧
    ∀ sys fuel r, camlCompare fuel ⟨true, false⟩ linkedPairs sys (.block 16) (.block 8) =
      some (.ok r) → r = 1 := by
  have hheap : HeapOk ⟨true, false⟩ linkedPairs :=
    ⟨Heap.objects_of_mem (by decide +kernel), Heap.acyclic_of_above (by decide)⟩
  obtain ⟨hshape, -, -, hantisymm, -, -⟩ := compare_total_order hheap
  have hrun : camlCompare 20 ⟨true, false⟩ linkedPairs ⟨fun _ _ _ => .error .badAccess,
      fun _ => true, fun _ => none⟩ (.block 8) (.block 16) = some (.ok (-1)) := by decide +kernel
  refine ⟨hrun, hshape _ (by decide), fun sys fuel r hr => ?_⟩
  exact (hantisymm _ _ _ sys 20 fuel _ r (by decide) (by decide) hrun hr).1

end Order

end TravLang.Runtime.Compare
