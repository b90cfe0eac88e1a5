import TravLang.Runtime.Compare.Order

/-!
# Values that compare as equal

What a comparison with the result 0 says about two values that may have cycles, floats and float
arrays: they are the same up to the addresses of their blocks, up to Forward links and up to the
equality of floats. A comparison that returns has looked at finitely many pairs, so this is an
inductive relation even for values with cycles; blocks at the same address are not looked at.
-/

namespace TravLang.Runtime.Compare

open Result List

variable {host : Host} {heap : Heap CustomOps} {sys : System} {o : Obj Value CustomOps}

mutual

/-- Found equal by a total comparison. -/
inductive Same (heap : Heap CustomOps) : Value → Value → Prop where
  | refl (v : Value) : Same heap v v
  | string {v1 v2 : Value} {s : Bytes} : heap.obj v1 = some (.string s) →
      heap.obj v2 = some (.string s) → Same heap v1 v2
  | double {v1 v2 : Value} {d1 d2 : UInt64} : heap.obj v1 = some (.double d1) →
      heap.obj v2 = some (.double d2) → Binary64.Same d1 d2 → Same heap v1 v2
  | doubleArray {v1 v2 : Value} {ds1 ds2 : List UInt64} : heap.obj v1 = some (.doubleArray ds1) →
      heap.obj v2 = some (.doubleArray ds2) → List.Forall₂ Binary64.Same ds1 ds2 →
      Same heap v1 v2
  | forwardLeft {v1 v2 u : Value} {us : List Value} :
      heap.obj v1 = some (.structured forwardTag (u :: us)) → Same heap u v2 → Same heap v1 v2
  | forwardRight {v1 v2 u : Value} {us : List Value} :
      heap.obj v2 = some (.structured forwardTag (u :: us)) → Same heap v1 u → Same heap v1 v2
  | block {v1 v2 : Value} {tag : Nat} {fields1 fields2 : List Value} : OrdinaryTag tag →
      heap.obj v1 = some (.structured tag fields1) →
      heap.obj v2 = some (.structured tag fields2) → SameAll heap fields1 fields2 →
      Same heap v1 v2

inductive SameAll (heap : Heap CustomOps) : List Value → List Value → Prop where
  | nil : SameAll heap [] []
  | cons {v1 v2 : Value} {vs1 vs2 : List Value} : Same heap v1 v2 → SameAll heap vs1 vs2 →
      SameAll heap (v1 :: vs1) (v2 :: vs2)

end

theorem sameAll_of_zip : ∀ {vs1 vs2 : List Value}, vs1.length = vs2.length →
    (∀ p ∈ vs1.zip vs2, Same heap p.1 p.2) → SameAll heap vs1 vs2
  | [], [], _, _ => .nil
  | v1 :: _, v2 :: _, hlen, h =>
    .cons (h (v1, v2) mem_cons_self)
      (sameAll_of_zip (Nat.succ.inj hlen) fun p hp => h p (mem_cons_of_mem _ hp))

theorem sameAll_refl : ∀ vs : List Value, SameAll heap vs vs
  | [] => .nil
  | v :: vs => .cons (.refl v) (sameAll_refl vs)

theorem SameAll.length {vs1 vs2 : List Value} : SameAll heap vs1 vs2 → vs1.length = vs2.length
  | .nil => rfl
  | .cons _ h => congrArg (· + 1) h.length

theorem SameAll.take {vs1 vs2 : List Value} : SameAll heap vs1 vs2 → ∀ n,
    SameAll heap (vs1.take n) (vs2.take n)
  | _, 0 => .nil
  | .nil, _ + 1 => .nil
  | .cons h hs, n + 1 => .cons h (hs.take n)

theorem SameAll.append {us1 us2 vs1 vs2 : List Value} : SameAll heap vs1 vs2 →
    SameAll heap us1 us2 → SameAll heap (vs1 ++ us1) (vs2 ++ us2)
  | .nil, h => h
  | .cons h hs, h' => .cons h (hs.append h')

theorem SameAll.get : ∀ {vs1 vs2 : List Value} {i : Nat}, SameAll heap vs1 vs2 → i < vs1.length →
    ∃ v1 v2, vs1[i]? = some v1 ∧ vs2[i]? = some v2 ∧ Same heap v1 v2
  | _, _, 0, .cons h _, _ => ⟨_, _, rfl, rfl, h⟩
  | _, _, _ + 1, .cons _ hs, hi => hs.get (Nat.lt_of_succ_lt_succ hi)

/-! ## Blocks of data -/

/-- A block of fields, a string, a float or a float array. -/
def DataOk (host : Host) (heap : Heap CustomOps) (o : Obj Value CustomOps) : Prop :=
  o.wosize host ≤ host.maxWosize ∧ (∀ v ∈ o.fields, ValueOk host heap v) ∧
  match o with
  | .structured tag fields => OrdinaryTag tag ∨ tag = forwardTag ∧ fields ≠ []
  | .string _ => True
  | .double _ => True
  | .doubleArray _ => True
  | _ => False

instance (host : Host) (heap : Heap CustomOps) :
    (o : Obj Value CustomOps) → Decidable (DataOk host heap o)
  | .structured tag _ => inferInstanceAs (Decidable (_ ∧ _ ∧ (OrdinaryTag tag ∨ _ ∧ _)))
  | .string _ | .double _ | .doubleArray _ => inferInstanceAs (Decidable (_ ∧ _ ∧ True))
  | .custom _ _ | .abstract _ => inferInstanceAs (Decidable (_ ∧ _ ∧ False))

def HeapData (host : Host) (heap : Heap CustomOps) : Prop :=
  ∀ a o, heap.get a = some o → DataOk host heap o

/-- An integer or a block of data. -/
theorem HeapData.obj (hheap : HeapData host heap) {v : Value} (hv : ValueOk host heap v) :
    (∃ n, v = .long n ∧ InRange host n) ∨ ∃ o, heap.obj v = some o ∧ DataOk host heap o := by
  cases v with
  | long n => exact .inl ⟨n, rfl, hv⟩
  | atom tag => exact .inr ⟨_, rfl, Nat.zero_le _, fun _ h => absurd h not_mem_nil, .inl hv⟩
  | block a =>
    obtain ⟨o, ho⟩ := Option.isSome_iff_exists.mp hv
    exact .inr ⟨o, ho, hheap a o ho⟩

/-- A Forward link. -/
theorem DataOk.forward (ho : DataOk host heap o)
    (htag : o.tag = forwardTag) :
    ∃ u us, o = .structured forwardTag (u :: us) ∧ ValueOk host heap u := by
  obtain ⟨-, hfields, hkind⟩ := ho
  cases o with
  | structured tag fields =>
    cases htag
    rcases hkind with hord | ⟨-, hne⟩
    · exact absurd rfl (ordinaryTag_ne hord).1
    · obtain ⟨u, us, rfl⟩ := exists_cons_of_ne_nil hne
      exact ⟨u, us, rfl, hfields u mem_cons_self⟩
  | _ => cases htag

/-- The tags of the other blocks. -/
theorem DataOk.tag (ho : DataOk host heap o)
    (htag : o.tag ≠ forwardTag) : o.tag ≠ infixTag ∧ o.tag < 256 := by
  obtain ⟨-, -, hkind⟩ := ho
  cases o with
  | structured tag fields =>
    rcases hkind with hord | ⟨hf, -⟩
    · exact ⟨hord.1.2.2.2, ordinaryTag_lt hord⟩
    · exact absurd hf htag
  | custom => exact hkind.elim
  | abstract => exact hkind.elim
  | string s => exact ⟨show stringTag ≠ infixTag by decide, show stringTag < 256 by decide⟩
  | double d => exact ⟨show doubleTag ≠ infixTag by decide, show doubleTag < 256 by decide⟩
  | doubleArray ds =>
    exact ⟨show doubleArrayTag ≠ infixTag by decide, show doubleArrayTag < 256 by decide⟩

theorem doubleArray_length_le (host : Host) (ds : List UInt64) :
    ds.length ≤ (Obj.doubleArray ds : Obj Value CustomOps).wosize host := by
  refine Nat.le_mul_of_pos_right _ ?_
  unfold Host.doubleWosize
  rcases wordSize_cases host with h | h <;> (rw [h]; decide)

/-! ## One comparison -/

theorem Decides.ne_zero {r : Int} {o : Ordering} (h : Decides host r o) (ho : o ≠ .eq) : r ≠ 0 := by
  rintro rfl
  exact ho h.sign.symm

/-- What a comparison of two values says about them. -/
def Agrees (host : Host) (heap : Heap CustomOps) (v1 v2 : Value) : Next → Prop
  | .returns r => r ≠ 0
  | .nextItem => Same heap v1 v2
  | .continues w1 w2 =>
    ValueOk host heap w1 ∧ ValueOk host heap w2 ∧ (Same heap w1 w2 → Same heap v1 v2)
  | .fields fields1 fields2 =>
    (∀ u ∈ fields1, ValueOk host heap u) ∧ (∀ u ∈ fields2, ValueOk host heap u) ∧
      fields1.length = fields2.length ∧ (SameAll heap fields1 fields2 → Same heap v1 v2)

theorem compareDoubles_spec (host : Host) (d1 d2 : UInt64) :
    (compareDoubles host true d1 d2 = .nextItem ∧ Binary64.Same d1 d2) ∨
    ∃ r, compareDoubles host true d1 d2 = .returns r ∧ r ≠ 0 := by
  unfold compareDoubles
  split
  · exact .inr ⟨_, rfl, by decide⟩
  · split
    · exact .inr ⟨_, rfl, by decide⟩
    · split
      · next heq => exact .inl ⟨rfl, .inl heq⟩
      · rw [if_neg (by decide)]
        split
        · exact .inr ⟨_, rfl, by decide⟩
        · next h1 =>
          split
          · exact .inr ⟨_, rfl, by decide⟩
          · next h2 =>
            rw [Binary64.eq_self, Bool.not_eq_true', Bool.not_eq_false] at h1 h2
            exact .inl ⟨rfl, .inr ⟨h1, h2⟩⟩

theorem compareDoubleArrays_spec : ∀ {ds1 ds2 : List UInt64}, ds1.length = ds2.length →
    (compareDoubleArrays host true ds1 ds2 = .nextItem ∧ List.Forall₂ Binary64.Same ds1 ds2) ∨
    ∃ r, compareDoubleArrays host true ds1 ds2 = .returns r ∧ r ≠ 0
  | [], [], _ => .inl ⟨rfl, .nil⟩
  | d1 :: ds1, d2 :: ds2, hlen => by
    rw [compareDoubleArrays]
    rcases compareDoubles_spec host d1 d2 with ⟨hd, hsame⟩ | ⟨r, hr, hne⟩
    · rw [hd]
      rcases compareDoubleArrays_spec (Nat.succ.inj hlen) with ⟨hds, hall⟩ | hr
      · exact .inl ⟨hds, .cons hsame hall⟩
      · exact .inr hr
    · rw [hr]
      exact .inr ⟨r, rfl, hne⟩

section Blocks

variable {v1 v2 : Value} {o1 o2 : Obj Value CustomOps}

/-- Blocks of data with the same tag are of the same kind. -/
theorem DataOk.sameKind (ho1 : DataOk host heap o1) (ho2 : DataOk host heap o2)
    (htag : o1.tag = o2.tag) (hf : o1.tag ≠ forwardTag) :
    (∃ tag fields1 fields2, OrdinaryTag tag ∧ o1 = .structured tag fields1 ∧
      o2 = .structured tag fields2) ∨
    (∃ s1 s2, o1 = .string s1 ∧ o2 = .string s2) ∨ (∃ d1 d2, o1 = .double d1 ∧ o2 = .double d2) ∨
    ∃ ds1 ds2, o1 = .doubleArray ds1 ∧ o2 = .doubleArray ds2 := by
  have hord : ∀ {o : Obj Value CustomOps} {tag fields}, DataOk host heap o →
      o = .structured tag fields → o.tag ≠ forwardTag → OrdinaryTag tag := by
    rintro _ tag fields ho rfl hne
    exact ho.2.2.resolve_right fun h => hne h.1
  have hlt : ∀ {o : Obj Value CustomOps} {tag fields}, DataOk host heap o →
      o = .structured tag fields → o.tag ≠ forwardTag → o.tag < stringTag := by
    rintro _ tag fields ho rfl hne
    exact Nat.lt_trans (hord ho rfl hne).1.1 (by decide)
  cases h1 : o1 with
  | structured tag fields1 =>
    cases h2 : o2 with
    | structured tag2 fields2 =>
      obtain rfl : tag = tag2 := by rwa [h1, h2] at htag
      exact .inl ⟨tag, fields1, fields2, hord ho1 h1 hf, rfl, rfl⟩
    | custom | abstract => exact (h2 ▸ ho2).2.2.elim
    | _ =>
      have := hlt ho1 h1 hf
      rw [htag, h2] at this
      exact absurd this (by simp [Obj.tag, stringTag, doubleTag, doubleArrayTag])
  | custom | abstract => exact (h1 ▸ ho1).2.2.elim
  | _ =>
    cases h2 : o2 with
    | structured tag2 fields2 =>
      have := hlt ho2 h2 (htag ▸ hf)
      rw [← htag, h1] at this
      exact absurd this (by simp [Obj.tag, stringTag, doubleTag, doubleArrayTag])
    | custom | abstract => exact (h2 ▸ ho2).2.2.elim
    | _ =>
      rw [h1, h2] at htag
      simp [Obj.tag, stringTag, doubleTag, doubleArrayTag] at htag ⊢

section

variable (h1 : heap.obj v1 = some o1) (h2 : heap.obj v2 = some o2) (ho1 : DataOk host heap o1)
  (ho2 : DataOk host heap o2)

include h1 h2 ho1 ho2

/-- Two blocks with the same tag, other than links. -/
theorem compareBlocks_agrees_sameTag (htag : o1.tag = o2.tag) (hf : o1.tag ≠ forwardTag) :
    ∃ next, compareBlocks host sys true v1 v2 o1 o2 = .ok next ∧ Agrees host heap v1 v2 next := by
  rcases ho1.sameKind ho2 htag hf with ⟨tag, fields1, fields2, hord, rfl, rfl⟩ |
    ⟨s1, s2, rfl, rfl⟩ | ⟨d1, d2, rfl, rfl⟩ | ⟨ds1, ds2, rfl, rfl⟩
  · rw [compareBlocks_ordinary hord]
    split
    · next hlen =>
      exact ⟨_, rfl, (decides_sub_nat (size_lt ho1.1) (size_lt ho2.1)).ne_zero
        fun h => hlen (Nat.compare_eq_eq.mp h)⟩
    · next hlen =>
      have hlen := not_not.mp hlen
      split
      · next hzero =>
        obtain rfl := length_eq_zero_iff.mp hzero
        obtain rfl := length_eq_zero_iff.mp hlen.symm
        exact ⟨_, rfl, .block hord h1 h2 .nil⟩
      · exact ⟨_, rfl, ho1.2.1, ho2.2.1, hlen, .block hord h1 h2⟩
  · rw [compareBlocks_strings]
    refine ⟨_, rfl, ?_⟩
    split
    · next heq => exact heq ▸ .refl v1
    · rcases compareStrings_spec (stringLength_lt ho1.1) (stringLength_lt ho2.1) with
        ⟨hnext, heq⟩ | ⟨r, hr, hdec, hne⟩
      · rw [hnext]
        exact .string h1 (Std.LawfulEqOrd.eq_of_compare heq ▸ h2)
      · rw [hr]
        exact hdec.ne_zero hne
  · rw [compareBlocks_sameTag htag]
    refine ⟨_, rfl, ?_⟩
    rcases compareDoubles_spec host d1 d2 with ⟨hd, hsame⟩ | ⟨r, hr, hne⟩
    · rw [hd]
      exact .double h1 h2 hsame
    · rw [hr]
      exact hne
  · rw [compareBlocks_sameTag htag]
    unfold compareSameTag
    dsimp only
    split
    · next hlen =>
      refine ⟨_, rfl, (decides_sub_nat (size_lt ?_) (size_lt ?_)).ne_zero
        fun h => hlen (Nat.compare_eq_eq.mp h)⟩
      · exact Nat.le_trans (doubleArray_length_le host ds1) ho1.1
      · exact Nat.le_trans (doubleArray_length_le host ds2) ho2.1
    · next hlen =>
      refine ⟨_, rfl, ?_⟩
      rcases compareDoubleArrays_spec (not_not.mp hlen) with ⟨hds, hsame⟩ | ⟨r, hr, hne⟩
      · rw [hds]
        exact .doubleArray h1 h2 hsame
      · rw [hr]
        exact hne

theorem compareBlocks_agrees (hv1 : ValueOk host heap v1) (hv2 : ValueOk host heap v2) :
    ∃ next, compareBlocks host sys true v1 v2 o1 o2 = .ok next ∧ Agrees host heap v1 v2 next := by
  by_cases hf1 : o1.tag = forwardTag
  · obtain ⟨u1, us1, rfl, hu1⟩ := ho1.forward hf1
    by_cases hf2 : o2.tag = forwardTag
    · obtain ⟨u2, us2, rfl, hu2⟩ := ho2.forward hf2
      exact ⟨.continues u1 u2, rfl, hu1, hu2, fun h => .forwardLeft h1 (.forwardRight h2 h)⟩
    · exact ⟨_, compareBlocks_forwardLeft hf2, hu1, hv2, .forwardLeft h1⟩
  · by_cases hf2 : o2.tag = forwardTag
    · obtain ⟨u2, us2, rfl, hu2⟩ := ho2.forward hf2
      exact ⟨_, compareBlocks_forwardRight hf1, hv1, hu2, .forwardRight h2⟩
    · by_cases htag : o1.tag = o2.tag
      · exact compareBlocks_agrees_sameTag h1 h2 ho1 ho2 htag hf1
      · obtain ⟨hi1, hlt1⟩ := ho1.tag hf1
        obtain ⟨hi2, hlt2⟩ := ho2.tag hf2
        exact ⟨_, compareBlocks_tags htag ⟨hf1, hi1⟩ ⟨hf2, hi2⟩,
          (decides_tags hlt1 hlt2).ne_zero fun h => htag (Nat.compare_eq_eq.mp h)⟩

end

end Blocks

/-- **A total comparison of two values says something true about them.** -/
theorem compareValues_agrees (sys : System) (hheap : HeapData host heap) {v1 v2 : Value}
    (hv1 : ValueOk host heap v1) (hv2 : ValueOk host heap v2) :
    ∃ next, compareValues host heap sys true v1 v2 = .ok next ∧ Agrees host heap v1 v2 next := by
  by_cases hsame : v1 = v2 ∧ true = true
  · exact ⟨.nextItem, if_pos hsame, hsame.1 ▸ .refl v1⟩
  rcases hheap.obj hv1 with ⟨n1, rfl, hn1⟩ | ⟨o1, ho1, hdata1⟩
  · rcases hheap.obj hv2 with ⟨n2, rfl, hn2⟩ | ⟨o2, ho2, hdata2⟩
    · have hne : n1 ≠ n2 := fun h => hsame ⟨h ▸ rfl, rfl⟩
      refine ⟨.returns (host.intnat (n1 - n2)), ?_, ?_⟩
      · unfold compareValues
        rw [if_neg hsame]
        exact if_neg hne
      · exact (decides_longs hn1 hn2).ne_zero fun h => hne (Int.compare_eq_eq.mp h)
    · rw [compareValues_longBlock ho2 hsame]
      unfold compareLongBlock
      split
      · next hf =>
        obtain ⟨u, us, rfl, hu⟩ := hdata2.forward hf
        exact ⟨.continues _ u, rfl, hv1, hu, .forwardRight ho2⟩
      · split
        · exact hdata2.2.2.elim
        · exact ⟨_, rfl, show LESS ≠ 0 by decide⟩
  · rcases hheap.obj hv2 with ⟨n2, rfl, hn2⟩ | ⟨o2, ho2, hdata2⟩
    · rw [compareValues_blockLong ho1 hsame]
      unfold compareBlockLong
      split
      · next hf =>
        obtain ⟨u, us, rfl, hu⟩ := hdata1.forward hf
        exact ⟨.continues u _, rfl, hu, hv2, .forwardLeft ho1⟩
      · split
        · exact hdata1.2.2.elim
        · exact ⟨_, rfl, show GREATER ≠ 0 by decide⟩
    · rw [compareValues_blocks ho1 ho2 hsame]
      exact compareBlocks_agrees ho1 ho2 hdata1 hdata2 hv1 hv2

/-! ## Whole comparisons -/

/-- If the list of pairs is found equal, all of its pairs are. The induction is on the steps. -/
theorem same_of_run (hheap : HeapData host heap) {n : Nat} {pairs : List (Value × Value)}
    (hpairs : ∀ p ∈ pairs, ValueOk host heap p.1 ∧ ValueOk host heap p.2)
    (h : Machine.run (workStep host heap sys true) n pairs = some (.ok 0)) :
    ∀ p ∈ pairs, Same heap p.1 p.2 := by
  induction n generalizing pairs with
  | zero => cases h
  | succ n ih =>
    cases pairs with
    | nil => exact fun p hp => absurd hp not_mem_nil
    | cons p rest =>
      obtain ⟨v1, v2⟩ := p
      obtain ⟨hv1, hv2⟩ := hpairs (v1, v2) mem_cons_self
      have hrest : ∀ p ∈ rest, ValueOk host heap p.1 ∧ ValueOk host heap p.2 :=
        fun p hp => hpairs p (mem_cons_of_mem _ hp)
      obtain ⟨next, hnext, hagrees⟩ := compareValues_agrees sys hheap hv1 hv2
      rw [Machine.run, workStep, hnext] at h
      cases next with
      | returns r =>
        cases h
        exact absurd rfl hagrees
      | nextItem =>
        exact forall_mem_cons.mpr ⟨hagrees, ih hrest h⟩
      | continues w1 w2 =>
        obtain ⟨hw1, hw2, hsame⟩ := hagrees
        have hall := ih (forall_mem_cons.mpr ⟨⟨hw1, hw2⟩, hrest⟩) h
        exact forall_mem_cons.mpr ⟨hsame (hall _ mem_cons_self),
          fun p hp => hall p (mem_cons_of_mem _ hp)⟩
      | fields fields1 fields2 =>
        obtain ⟨hf1, hf2, hlen, hsame⟩ := hagrees
        have hall := ih (forall_mem_append.mpr ⟨fun p hp =>
          ⟨hf1 _ (of_mem_zip hp).1, hf2 _ (of_mem_zip hp).2⟩, hrest⟩) h
        intro p hp
        rcases mem_cons.mp hp with rfl | hp
        · exact hsame (sameAll_of_zip hlen fun p hp => hall p (mem_append_left _ hp))
        · exact hall p (mem_append_right _ hp)

/-- **Values that compare as equal are the same.** -/
theorem same_of_camlCompare (hheap : HeapData host heap) {v1 v2 : Value}
    (hv1 : ValueOk host heap v1) (hv2 : ValueOk host heap v2) {fuel : Nat}
    (h : camlCompare fuel host heap sys v1 v2 = some (.ok 0)) : Same heap v1 v2 := by
  obtain ⟨k, hk, hres⟩ := primitive_eq_ok h
  obtain rfl : k = 0 := by
    by_contra hne
    split at hres
    · cases hres
    · split at hres
      · cases hres
      · omega
  rcases halts_of_compareVal hk with (hoom | ⟨_, _, _, hraised⟩) | ⟨n, hn⟩
  · cases hoom
  · cases hraised
  · exact same_of_run hheap (by simpa using ⟨hv1, hv2⟩) hn (v1, v2) mem_cons_self

end TravLang.Runtime.Compare
