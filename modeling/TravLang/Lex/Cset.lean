import TravLang.Lib.IntervalSet

/-!
# Sets of characters (`lex/cset.ml`)

A set is a list of intervals of character codes. In normal form the intervals are in order, and no
two of them can be merged.
-/

namespace TravLang.Cset

open IntervalSet

/-- The type `t` -/
abbrev CharSet := List (Int × Int)

/-- The order of the first intervals: the one call that does not shorten the lists exchanges them.
-/
def swapped : CharSet → CharSet → Nat
  | (c1, _) :: _, (c2, _) :: _ => if c1 > c2 then 1 else 0
  | _, _ => 0

def union (s1 s2 : CharSet) : CharSet :=
  match s1, s2 with
  | [], s2 => s2
  | s1, [] => s1
  | (c1, d1) :: r1, (c2, d2) :: r2 =>
    if c1 > c2 then union ((c2, d2) :: r2) ((c1, d1) :: r1)
    else if d1 + 1 < c2 then (c1, d1) :: union r1 ((c2, d2) :: r2)
    else if d1 < d2 then union ((c1, d2) :: r2) r1
    else union ((c1, d1) :: r1) r2
termination_by (s1.length + s2.length, swapped s1 s2)
decreasing_by
  · have hswap : swapped ((c2, d2) :: r2) ((c1, d1) :: r1) = 0 := if_neg (by omega)
    have hswap' : swapped ((c1, d1) :: r1) ((c2, d2) :: r2) = 1 := if_pos (by omega)
    rw [hswap, hswap']
    simp only [List.length_cons]
    rw [Nat.add_comm (r2.length + 1)]
    exact Prod.Lex.right _ Nat.one_pos
  · exact Prod.Lex.left _ _ (by simp only [List.length_cons]; omega)
  · exact Prod.Lex.left _ _ (by simp only [List.length_cons]; omega)
  · exact Prod.Lex.left _ _ (by simp only [List.length_cons]; omega)

def inter (l l' : CharSet) : CharSet :=
  match l, l' with
  | _, [] => []
  | [], _ => []
  | (c1, c2) :: r, (c1', c2') :: r' =>
    if c2 < c1' then inter r ((c1', c2') :: r')
    else if c2' < c1 then inter ((c1, c2) :: r) r'
    else if c2 < c2' then (max c1 c1', c2) :: inter r ((c1', c2') :: r')
    else (max c1 c1', c2') :: inter ((c1, c2) :: r) r'
termination_by l.length + l'.length

def diff (l l' : CharSet) : CharSet :=
  match l, l' with
  | l, [] => l
  | [], _ => []
  | (c1, c2) :: r, (c1', c2') :: r' =>
    if c2 < c1' then (c1, c2) :: diff r ((c1', c2') :: r')
    else if c2' < c1 then diff ((c1, c2) :: r) r'
    else
      let r'' := if c2' < c2 then (c2' + 1, c2) :: r else r
      if c1 < c1' then (c1, c1' - 1) :: diff r'' r' else diff r'' r'
termination_by l.length + l'.length
decreasing_by
  · simp only [List.length_cons]
    omega
  · simp only [List.length_cons]
    omega
  · split <;> simp only [List.length_cons] <;> omega
  · split <;> simp only [List.length_cons] <;> omega

/-- Strictly increasing intervals, with gaps between them -/
abbrev Normal (s : CharSet) : Prop := Spaced 1 s

/-! ## Union -/

theorem mem_union (s1 s2 : CharSet) (c : Int) :
    c ∈ members (union s1 s2) ↔ c ∈ members s1 ∨ c ∈ members s2 := by
  fun_induction union s1 s2 with
  | case1 s2 => simp [members_nil]
  | case2 s1 => simp [members_nil]
  | case3 c1 d1 r1 c2 d2 r2 h ih => rw [ih, or_comm]
  | case4 c1 d1 r1 c2 d2 r2 h h1 ih =>
    simp only [mem_cons, ih]
    grind
  | case5 c1 d1 r1 c2 d2 r2 h h1 h2 ih =>
    -- the intervals touch, and the second one reaches further
    have hmerge : (c1 ≤ c ∧ c ≤ d2) ↔ (c1 ≤ c ∧ c ≤ d1) ∨ (c2 ≤ c ∧ c ≤ d2) := by omega
    simp only [mem_cons, ih, hmerge]
    grind
  | case6 c1 d1 r1 c2 d2 r2 h h1 h2 ih =>
    simp only [mem_cons, ih]
    grind

theorem normal_union {s1 s2 : CharSet} (h1 : Normal s1) (h2 : Normal s2) :
    Normal (union s1 s2) := by
  fun_induction union s1 s2 with
  | case1 s2 => exact h2
  | case2 s1 => exact h1
  | case3 c1 d1 r1 c2 d2 r2 _ ih => exact ih h2 h1
  | case4 c1 d1 r1 c2 d2 r2 hle hlt ih =>
    refine (ih h1.tail h2).cons h1.head_le fun c hc => ?_
    rcases (mem_union _ _ c).mp hc with hc | hc
    · exact h1.lt_of_mem hc
    · have := h2.le_of_mem (by decide) hc
      omega
  | case5 c1 d1 r1 c2 d2 r2 hle hlt hd ih =>
    exact ih (h2.tail.cons (by dsimp only; omega) fun c hc => h2.lt_of_mem hc) h1.tail
  | case6 c1 d1 r1 c2 d2 r2 _ _ _ ih => exact ih h1 h2.tail

/-! ## Intersection -/

section

variable {gap c1 c2 c2' : Int} {l l' r : CharSet}

theorem mem_inter (hgap : 0 ≤ gap) (h : Spaced gap l) (h' : Spaced gap l') (c : Int) :
    c ∈ members (inter l l') ↔ c ∈ members l ∧ c ∈ members l' := by
  fun_induction inter l l' with
  | case1 l => simp [members_nil]
  | case2 l' => simp [members_nil]
  | case3 c1 c2 r c1' c2' r' hlt ih =>
    have hlow := h'.le_of_mem (c := c) hgap
    rw [ih h.tail h']
    simp only [mem_cons] at hlow ⊢
    grind
  | case4 c1 c2 r c1' c2' r' hlt hlt' ih =>
    have hlow := h.le_of_mem (c := c) hgap
    rw [ih h h'.tail]
    simp only [mem_cons] at hlow ⊢
    grind
  | case5 c1 c2 r c1' c2' r' hlt hlt' hd ih =>
    have hr := h.lt_of_mem (c := c)
    have hr' := h'.lt_of_mem (c := c)
    simp only [mem_cons, ih h.tail h']
    grind
  | case6 c1 c2 r c1' c2' r' hlt hlt' hd ih =>
    have hr := h.lt_of_mem (c := c)
    simp only [mem_cons, ih h h'.tail]
    grind

theorem spaced_inter (hgap : 0 ≤ gap) (h : Spaced gap l) (h' : Spaced gap l') :
    Spaced gap (inter l l') := by
  fun_induction inter l l' with
  | case1 l => exact .nil
  | case2 l' => exact .nil
  | case3 c1 c2 r c1' c2' r' _ ih => exact ih h.tail h'
  | case4 c1 c2 r c1' c2' r' _ _ ih => exact ih h h'.tail
  | case5 c1 c2 r c1' c2' r' hlt hlt' hd ih =>
    have hle : c1 ≤ c2 := h.head_le
    refine (ih h.tail h').cons (by dsimp only; omega) fun c hc => ?_
    exact h.lt_of_mem ((mem_inter hgap h.tail h' c).mp hc).1
  | case6 c1 c2 r c1' c2' r' hlt hlt' hd ih =>
    have hle : c1' ≤ c2' := h'.head_le
    refine (ih h h'.tail).cons (by dsimp only; omega) fun c hc => ?_
    exact h'.lt_of_mem ((mem_inter hgap h h'.tail c).mp hc).2

/-! ## Difference

An interval of `l'` is dropped as soon as the end of an interval of `l` lies in it, although it may
reach into the next interval of `l`. -/

/-- What remains of an interval above another one -/
theorem spaced_rest (h : Spaced gap ((c1, c2) :: r)) (c2' : Int) :
    Spaced gap (if c2' < c2 then (c2' + 1, c2) :: r else r) := by
  split
  · exact h.tail.cons (by dsimp only; omega) fun c hc => h.lt_of_mem hc
  · exact h.tail

theorem mem_rest (c : Int) :
    c ∈ members (if c2' < c2 then (c2' + 1, c2) :: r else r) ↔
      (c2' < c ∧ c ≤ c2) ∨ c ∈ members r := by
  split
  · rw [mem_cons]
    exact Iff.rfl
  · grind

theorem mem_of_mem_diff {c : Int} (hc : c ∈ members (diff l l')) : c ∈ members l := by
  fun_induction diff l l' with
  | case1 l => exact hc
  | case2 l' => exact hc
  | case3 c1 c2 r c1' c2' r' hlt ih =>
    rw [mem_cons] at hc ⊢
    exact hc.imp_right ih
  | case4 c1 c2 r c1' c2' r' _ _ ih => exact ih hc
  | case5 c1 c2 r c1' c2' r' hlt hlt' r'' hd ih =>
    have hrest : c ∈ members r'' ↔ (c2' < c ∧ c ≤ c2) ∨ c ∈ members r := mem_rest c
    rw [mem_cons] at hc ⊢
    grind
  | case6 c1 c2 r c1' c2' r' hlt hlt' r'' hd ih =>
    have hrest : c ∈ members r'' ↔ (c2' < c ∧ c ≤ c2) ∨ c ∈ members r := mem_rest c
    rw [mem_cons]
    grind

theorem spaced_diff (hone : gap ≤ 1) (h : Spaced gap l) (h' : Spaced gap l') :
    Spaced gap (diff l l') := by
  fun_induction diff l l' with
  | case1 l => exact h
  | case2 l' => exact .nil
  | case3 c1 c2 r c1' c2' r' hlt ih =>
    exact (ih h.tail h').cons h.head_le fun c hc => h.lt_of_mem (mem_of_mem_diff hc)
  | case4 c1 c2 r c1' c2' r' _ _ ih => exact ih h h'.tail
  | case5 c1 c2 r c1' c2' r' hlt hlt' r'' hd ih =>
    have hle : c1' ≤ c2' := h'.head_le
    refine (ih (spaced_rest h c2') h'.tail).cons (by dsimp only; omega) fun c hc => ?_
    rcases (mem_rest c).mp (mem_of_mem_diff hc) with hc | hc
    · dsimp only
      omega
    · have := h.lt_of_mem hc
      omega
  | case6 c1 c2 r c1' c2' r' _ _ r'' _ ih => exact ih (spaced_rest h c2') h'.tail

/-- No interval of `l'` overlaps two intervals of `l`. -/
def Separate (l l' : CharSet) : Prop :=
  ∀ p' ∈ l', ∀ p ∈ l, ∀ q ∈ l, p.2 < q.1 → p'.1 ≤ p.2 → p.1 ≤ p'.2 → p'.2 < q.1

theorem Separate.mono {k k' : CharSet} (h : Separate l l') (hk : ∀ p ∈ k, p ∈ l)
    (hk' : ∀ p ∈ k', p ∈ l') : Separate k k' :=
  fun p' hp' p hp q hq => h p' (hk' p' hp') p (hk p hp) q (hk q hq)

theorem Separate.rest (hgap : 0 ≤ gap) {p' : Int × Int} (h : Spaced gap ((c1, c2) :: r))
    (hsep : Separate ((c1, c2) :: r) (p' :: l')) (hle : c1 ≤ c2') :
    Separate (if c2' < c2 then (c2' + 1, c2) :: r else r) l' := by
  split
  · next hlt =>
    intro q' hq' p hp q hq hpq hlow hhigh
    have hq'' := List.mem_cons_of_mem p' hq'
    rcases List.mem_cons.mp hp with rfl | hp
    · rcases List.mem_cons.mp hq with rfl | hq
      · dsimp only at hpq
        omega
      · exact hsep q' hq'' (c1, c2) List.mem_cons_self q (List.mem_cons_of_mem _ hq) hpq hlow
          (by dsimp only at hhigh ⊢; omega)
    · rcases List.mem_cons.mp hq with rfl | hq
      · -- the later intervals are not below what remains of the first one
        have habove := h.lt_of_mem (c := p.1) ⟨p, hp, Int.le_refl _, h.tail.le p hp⟩
        have := h.tail.le p hp
        omega
      · exact hsep q' hq'' p (List.mem_cons_of_mem _ hp) q
          (List.mem_cons_of_mem _ hq) hpq hlow hhigh
  · exact hsep.mono (fun p hp => List.mem_cons_of_mem _ hp) fun p hp => List.mem_cons_of_mem _ hp

/-- An interval of `l'` that overlaps the first one of `l` does not reach the others. -/
theorem Separate.lt_of_mem (hgap : 0 ≤ gap) {p p' : Int × Int} {r r' : CharSet} {c : Int}
    (h : Spaced gap (p :: r)) (hsep : Separate (p :: r) (p' :: r')) (hlow : p'.1 ≤ p.2)
    (hhigh : p.1 ≤ p'.2) (hc : c ∈ members r) : p'.2 < c := by
  obtain ⟨q, hq, hq1, -⟩ := hc
  have habove := h.lt_of_mem (c := q.1) ⟨q, hq, Int.le_refl _, h.tail.le q hq⟩
  have := hsep p' List.mem_cons_self p List.mem_cons_self q (List.mem_cons_of_mem _ hq) (by omega)
    hlow hhigh
  omega

/-- What is not in the second set stays. -/
theorem mem_diff_of_notMem (h : Spaced gap l) (h' : Spaced gap l') {c : Int}
    (hc : c ∈ members l) (hc' : c ∉ members l') : c ∈ members (diff l l') := by
  fun_induction diff l l' with
  | case1 l => exact hc
  | case2 l' => exact hc
  | case3 c1 c2 r c1' c2' r' hlt ih =>
    rw [mem_cons] at hc ⊢
    exact hc.imp_right fun hc => ih h.tail h' hc hc'
  | case4 c1 c2 r c1' c2' r' hlt hlt' ih =>
    exact ih h h'.tail hc fun hc => hc' (mem_cons.mpr (.inr hc))
  | case5 c1 c2 r c1' c2' r' hlt hlt' r'' hd ih
  | case6 c1 c2 r c1' c2' r' hlt hlt' r'' hd ih =>
    have hrest : c ∈ members r'' ↔ (c2' < c ∧ c ≤ c2) ∨ c ∈ members r := mem_rest c
    have ih := ih (spaced_rest h c2') h'.tail
    simp only [mem_cons] at hc hc' ⊢
    grind

theorem notMem_of_mem_diff (hgap : 0 ≤ gap) (h : Spaced gap l) (h' : Spaced gap l')
    (hsep : Separate l l') {c : Int} (hc : c ∈ members (diff l l')) : c ∉ members l' := by
  fun_induction diff l l' with
  | case1 l => simp [members_nil]
  | case2 l' => simp [members_nil] at hc
  | case3 c1 c2 r c1' c2' r' hlt ih =>
    have hlow := h'.le_of_mem (c := c) hgap
    have ih := ih h.tail h'
      (hsep.mono (fun p hp => List.mem_cons_of_mem (c1, c2) hp) fun p hp => hp)
    rw [mem_cons] at hc
    grind
  | case4 c1 c2 r c1' c2' r' hlt hlt' ih =>
    have hlow := h.le_of_mem hgap (mem_of_mem_diff hc)
    have ih := ih h h'.tail
      (hsep.mono (fun p hp => hp) fun p hp => List.mem_cons_of_mem (c1', c2') hp)
    rw [mem_cons]
    grind
  | case5 c1 c2 r c1' c2' r' hlt hlt' r'' hd ih
  | case6 c1 c2 r c1' c2' r' hlt hlt' r'' hd ih =>
    have hr' := h'.lt_of_mem (c := c)
    have hle := h'.head_le
    have hapart := hsep.lt_of_mem hgap h (c := c) (Int.not_lt.mp hlt) (Int.not_lt.mp hlt')
    have hrest : c ∈ members (diff r'' r') → (c2' < c ∧ c ≤ c2) ∨ c ∈ members r := fun hc =>
      (mem_rest c).mp (mem_of_mem_diff hc)
    have ih := ih (spaced_rest h c2') h'.tail (hsep.rest hgap h (Int.not_lt.mp hlt'))
    simp only [mem_cons] at hc ⊢
    grind

theorem Separate.of_rest (hgap : 0 ≤ gap) (h : Spaced gap ((c1, c2) :: r))
    (h' : Spaced gap ((c1', c2') :: r'))
    (hsep : Separate (if c2' < c2 then (c2' + 1, c2) :: r else r) r')
    (habove : ∀ q ∈ r, c2' < q.1) : Separate ((c1, c2) :: r) ((c1', c2') :: r') := by
  intro p' hp' p hp q hq hpq hlow hhigh
  have hbelow := (List.pairwise_cons.mp h.below).1
  have hle := h.le
  -- the later of two intervals is not the first one
  have hq : q ∈ r := by grind
  rcases List.mem_cons.mp hp' with rfl | hp'
  · exact habove q hq
  · have hbelow' := (List.pairwise_cons.mp h'.below).1 p' hp'
    have hle' := h'.tail.le p' hp'
    rcases List.mem_cons.mp hp with rfl | hp
    · exact hsep p' hp' (c2' + 1, c2) (by grind) q (by grind) hpq hlow (by grind)
    · exact hsep p' hp' p (by grind) q (by grind) hpq hlow hhigh

/-- An interval that overlaps two intervals leaves a part of itself in the second one. -/
theorem separate_of_notMem (hgap : 0 ≤ gap) (h : Spaced gap l) (h' : Spaced gap l')
    (hdiff : ∀ c ∈ members (diff l l'), c ∉ members l') : Separate l l' := by
  fun_induction diff l l' with
  | case1 l => exact nofun
  | case2 l' => exact fun _ _ _ hp => nomatch hp
  | case3 c1 c2 r c1' c2' r' hlt ih =>
    have ih := ih h.tail h' fun c hc => hdiff c (mem_cons.mpr (.inr hc))
    intro p' hp' p hp q hq hpq hlow hhigh
    have hstart := h'.le_of_mem hgap ⟨p', hp', Int.le_refl _, h'.le p' hp'⟩
    have hbelow := (List.pairwise_cons.mp h.below).1
    have hle := h.le
    exact ih p' hp' p (by grind) q (by grind) hpq hlow hhigh
  | case4 c1 c2 r c1' c2' r' hlt hlt' ih =>
    have ih := ih h h'.tail fun c hc hc' => hdiff c hc (mem_cons.mpr (.inr hc'))
    intro p' hp' p hp q hq hpq hlow hhigh
    have hstart := h.le_of_mem hgap ⟨p, hp, Int.le_refl _, h.le p hp⟩
    exact ih p' (by grind) p hp q hq hpq hlow hhigh
  | case5 c1 c2 r c1' c2' r' hlt hlt' r'' hd ih
  | case6 c1 c2 r c1' c2' r' hlt hlt' r'' hd ih =>
    refine .of_rest hgap h h' (ih (spaced_rest h c2') h'.tail fun c hc hc' =>
      hdiff c (by simp [mem_cons, hc]) (mem_cons.mpr (.inr hc'))) fun q hq => ?_
    -- the start of `q` stays in the difference, so it is not below `c2'`
    refine Int.not_le.mp fun hle => ?_
    have hmem : q.1 ∈ members r := ⟨q, hq, Int.le_refl _, h.tail.le q hq⟩
    have hlt := h.lt_of_mem hmem
    have hlt' := h'.lt_of_mem (c := q.1)
    have hrest := mem_diff_of_notMem (spaced_rest h c2') h'.tail ((mem_rest q.1).mpr (.inr hmem))
      (by grind)
    exact hdiff q.1 (by simp [mem_cons, hrest, r'']) (mem_cons.mpr (.inl (by grind)))

end

/-- **Union, intersection and difference.** The results are in normal form; the difference is right
exactly if no interval of the second set overlaps two of the first. -/
theorem cset_operations (s1 s2 : CharSet) (h1 : Normal s1) (h2 : Normal s2) :
    (Normal (union s1 s2) ∧ members (union s1 s2) = members s1 ∪ members s2) ∧
    (Normal (inter s1 s2) ∧ members (inter s1 s2) = members s1 ∩ members s2) ∧
    Normal (diff s1 s2) ∧
      (members (diff s1 s2) = members s1 \ members s2 ↔ Separate s1 s2) := by
  have hgap : (0 : Int) ≤ 1 := by decide
  refine ⟨⟨normal_union h1 h2, ?_⟩, ⟨spaced_inter hgap h1 h2, ?_⟩, spaced_diff (by decide) h1 h2,
    fun heq => ?_, fun hsep => ?_⟩
  · ext c
    exact mem_union s1 s2 c
  · ext c
    exact mem_inter hgap h1 h2 c
  · exact separate_of_notMem hgap h1 h2 fun c hc => (heq ▸ hc).2
  · ext c
    exact ⟨fun hc => ⟨mem_of_mem_diff hc, notMem_of_mem_diff hgap h1 h2 hsep hc⟩,
      fun hc => mem_diff_of_notMem h1 h2 hc.1 hc.2⟩

theorem cset_operations_vowels :
    Normal [(97, 97), (101, 101), (105, 105)] ∧ Normal [(98, 103)] ∧
      Normal (union [(97, 97), (101, 101), (105, 105)] [(98, 103)]) ∧
      members (diff [(97, 97), (101, 101), (105, 105)] [(98, 103)]) =
        members [(97, 97), (101, 101), (105, 105)] \ members [(98, 103)] := by
  have h1 : Normal [(97, 97), (101, 101), (105, 105)] := ⟨by decide, by decide⟩
  have h2 : Normal [(98, 103)] := ⟨by decide, by decide⟩
  obtain ⟨⟨hunion, -⟩, -, -, hdiff⟩ := cset_operations _ _ h1 h2
  exact ⟨h1, h2, hunion, hdiff.mpr (by unfold Separate; decide)⟩

/-- `['a'-'c' 'x'-'z'] # ['b'-'y']` is all of `'x'-'z'` with `'a'`. -/
theorem diff_overlap :
    Normal [(97, 99), (120, 122)] ∧ Normal [(98, 121)] ∧
      diff [(97, 99), (120, 122)] [(98, 121)] = [(97, 97), (120, 122)] ∧
      120 ∈ members [(98, 121)] ∧ 120 ∈ members (diff [(97, 99), (120, 122)] [(98, 121)]) := by
  have hdiff : diff [(97, 99), (120, 122)] [(98, 121)] = [(97, 97), (120, 122)] := by
    simp [diff]
  refine ⟨⟨by decide, by decide⟩, ⟨by decide, by decide⟩, hdiff,
    ⟨_, List.mem_cons_self, by decide⟩, ?_⟩
  rw [hdiff]
  exact ⟨_, List.mem_cons_of_mem _ List.mem_cons_self, by decide⟩

end TravLang.Cset
