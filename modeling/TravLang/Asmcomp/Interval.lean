import Mathlib.Data.List.Pairwise
import TravLang.Asmcomp.Reg

/-!
# Live intervals (`asmcomp/interval.ml`)

An interval has the ranges of positions at which its register is live, in order. The functions of
the linear scan allocator are given by the set of these positions.
-/

namespace TravLang.Interval

open TravLang.Asmcomp List

/-- The type `range` -/
structure Range where
  rbegin : Int
  rend : Int
  deriving DecidableEq, Repr

/-- The type `t`, with the fields of the register that the allocator uses -/
structure T where
  typ : MachtypeComponent
  loc : Location := .unknown
  spill : Bool := false
  ibegin : Int
  iend : Int
  ranges : List Range
  deriving DecidableEq, Repr

/-- The function `overlap_ranges` of `overlap` -/
def overlapRanges : List Range → List Range → Bool
  | r0 :: rl0, r1 :: rl1 =>
    if r0.rend ≥ r1.rbegin ∧ r1.rend ≥ r0.rbegin then true
    else if r0.rend < r1.rend then overlapRanges rl0 (r1 :: rl1)
    else if r0.rend > r1.rend then overlapRanges (r0 :: rl0) rl1
    else overlapRanges rl0 rl1
  | _, _ => false
termination_by rl0 rl1 => rl0.length + rl1.length

def overlap (i0 i1 : T) : Bool := overlapRanges i0.ranges i1.ranges

/-- The function `is_live_in_ranges` of `is_live` -/
def isLiveInRanges (pos : Int) : List Range → Bool
  | [] => false
  | r :: rl =>
    if pos < r.rbegin then false else if pos ≤ r.rend then true else isLiveInRanges pos rl

def isLive (i : T) (pos : Int) : Bool := isLiveInRanges pos i.ranges

/-- The function `filter` of `remove_expired_ranges` -/
def filterRanges (pos : Int) : List Range → List Range
  | [] => []
  | r :: rl => if pos < r.rend then r :: rl else filterRanges pos rl

def removeExpiredRanges (i : T) (pos : Int) : T :=
  { i with ranges := filterRanges pos i.ranges }

/-! ## Positions -/

/-- The position `p` is in one of the ranges. -/
def Covers (rl : List Range) (p : Int) : Prop := ∃ r ∈ rl, r.rbegin ≤ p ∧ p ≤ r.rend

/-- Ranges in order, disjoint and not empty -/
structure Sorted (rl : List Range) : Prop where
  le : ∀ r ∈ rl, r.rbegin ≤ r.rend
  below : rl.Pairwise fun r r' => r.rend < r'.rbegin

variable {r : Range} {rl rl0 rl1 : List Range} {p pos : Int}

theorem covers_cons : Covers (r :: rl) p ↔ (r.rbegin ≤ p ∧ p ≤ r.rend) ∨ Covers rl p := by
  simp [Covers]

theorem not_covers_nil : ¬Covers [] p := by
  simp [Covers]

theorem sorted_cons : Sorted (r :: rl) ↔
    r.rbegin ≤ r.rend ∧ (∀ r' ∈ rl, r.rend < r'.rbegin) ∧ Sorted rl := by
  constructor
  · intro h
    obtain ⟨hlt, hrl⟩ := pairwise_cons.mp h.below
    exact ⟨h.le r mem_cons_self, hlt, fun r' hr' => h.le r' (mem_cons_of_mem _ hr'), hrl⟩
  · rintro ⟨hr, hlt, hrl⟩
    exact ⟨forall_mem_cons.mpr ⟨hr, hrl.le⟩, pairwise_cons.mpr ⟨hlt, hrl.below⟩⟩

/-- The positions after the first range -/
theorem lt_of_covers_tail (h : Sorted (r :: rl)) (hp : Covers rl p) : r.rend < p := by
  obtain ⟨r', hr', hle, -⟩ := hp
  have := (sorted_cons.mp h).2.1 r' hr'
  omega

/-- **Two intervals overlap if and only if they share a position.** -/
theorem overlapRanges_iff (h0 : Sorted rl0) (h1 : Sorted rl1) :
    overlapRanges rl0 rl1 = true ↔ ∃ p, Covers rl0 p ∧ Covers rl1 p := by
  fun_induction overlapRanges rl0 rl1 with
  | case1 r0 rl0 r1 rl1 hmeet =>
    have hle0 := h0.le r0 mem_cons_self
    have hle1 := h1.le r1 mem_cons_self
    refine ⟨fun _ => ⟨max r0.rbegin r1.rbegin, ?_, ?_⟩, fun _ => rfl⟩
    · exact covers_cons.mpr (.inl ⟨by omega, by omega⟩)
    · exact covers_cons.mpr (.inl ⟨by omega, by omega⟩)
  | case2 r0 rl0 r1 rl1 hmeet hlt ih =>
    -- the first range of the left side lies before all ranges of the right side
    have hle0 := h0.le r0 mem_cons_self
    rw [ih (sorted_cons.mp h0).2.2 h1]
    refine exists_congr fun p => ⟨fun h => ⟨covers_cons.mpr (.inr h.1), h.2⟩, ?_⟩
    rintro ⟨hp0, hp1⟩
    refine ⟨(covers_cons.mp hp0).resolve_left fun hp => ?_, hp1⟩
    rcases covers_cons.mp hp1 with hp1 | hp1
    · omega
    · have := lt_of_covers_tail h1 hp1
      omega
  | case3 r0 rl0 r1 rl1 hmeet hlt hgt ih =>
    have hle1 := h1.le r1 mem_cons_self
    rw [ih h0 (sorted_cons.mp h1).2.2]
    refine exists_congr fun p => ⟨fun h => ⟨h.1, covers_cons.mpr (.inr h.2)⟩, ?_⟩
    rintro ⟨hp0, hp1⟩
    refine ⟨hp0, (covers_cons.mp hp1).resolve_left fun hp => ?_⟩
    rcases covers_cons.mp hp0 with hp0 | hp0
    · omega
    · have := lt_of_covers_tail h0 hp0
      omega
  | case4 r0 rl0 r1 rl1 hmeet hlt hgt ih =>
    have hle0 := h0.le r0 mem_cons_self
    have hle1 := h1.le r1 mem_cons_self
    omega
  | case5 rl0 rl1 hnil =>
    refine ⟨fun h => (by cases h), ?_⟩
    rintro ⟨p, hp0, hp1⟩
    cases rl0 with
    | nil => exact absurd hp0 not_covers_nil
    | cons r0 rl0 =>
      cases rl1 with
      | nil => exact absurd hp1 not_covers_nil
      | cons r1 rl1 => exact absurd rfl (hnil r0 rl0 r1 rl1 rfl)

theorem isLiveInRanges_iff (h : Sorted rl) : isLiveInRanges pos rl = true ↔ Covers rl pos := by
  induction rl with
  | nil => simp [isLiveInRanges, Covers]
  | cons r rl ih =>
    rw [isLiveInRanges, covers_cons]
    have hrl := (sorted_cons.mp h).2.2
    have htail : Covers rl pos → r.rend < pos := lt_of_covers_tail h
    have hle := (sorted_cons.mp h).1
    split
    · next hlt =>
      refine ⟨fun he => (by cases he), ?_⟩
      rintro (hp | hp)
      · omega
      · have := htail hp
        omega
    · next hge =>
      split
      · next hle' => exact ⟨fun _ => .inl ⟨by omega, hle'⟩, fun _ => rfl⟩
      · next hgt =>
        rw [ih hrl]
        exact ⟨.inr, fun hp => hp.resolve_left fun hp => hgt hp.2⟩

/-! ## Expired ranges -/

theorem filterRanges_suffix (pos : Int) (rl : List Range) : filterRanges pos rl <:+ rl := by
  induction rl with
  | nil => exact suffix_refl _
  | cons r rl ih =>
    rw [filterRanges]
    split
    · exact suffix_refl _
    · exact ih.trans (suffix_cons r rl)

theorem Sorted.filterRanges (h : Sorted rl) (pos : Int) : Sorted (filterRanges pos rl) :=
  ⟨fun r hr => h.le r ((filterRanges_suffix pos rl).subset hr),
    h.below.sublist (filterRanges_suffix pos rl).sublist⟩

theorem covers_of_filterRanges (h : Covers (filterRanges pos rl) p) : Covers rl p := by
  obtain ⟨r, hr, hp⟩ := h
  exact ⟨r, (filterRanges_suffix pos rl).subset hr, hp⟩

/-- The positions after `pos` stay. -/
theorem covers_filterRanges (hp : Covers rl p) (hpos : pos < p) :
    Covers (filterRanges pos rl) p := by
  induction rl with
  | nil => exact hp
  | cons r rl ih =>
    rw [filterRanges]
    split
    · exact hp
    · next hend => exact ih ((covers_cons.mp hp).resolve_left fun h => by omega)

end TravLang.Interval
