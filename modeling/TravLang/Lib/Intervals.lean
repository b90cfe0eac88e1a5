import Mathlib.Data.List.Pairwise

/-!
# Lists of labelled intervals

A list of triples `(low, high, label)` gives the label `label` to the integers from `low` to `high`.
-/

namespace Intervals

open List

variable {α : Type} {c d : List (Int × Int × α)} {p : Int × Int × α}

/-- No interval is empty, and each one lies below the next one. -/
structure Sorted (c : List (Int × Int × α)) : Prop where
  le : ∀ p ∈ c, p.1 ≤ p.2.1
  below : c.Pairwise fun p q => p.2.1 < q.1

/-- All intervals lie between the two bounds. -/
def Within (low high : Int) (c : List (Int × Int × α)) : Prop :=
  ∀ p ∈ c, low ≤ p.1 ∧ p.2.1 ≤ high

/-- The label of `x` is `a`. -/
def Picks (c : List (Int × Int × α)) (x : Int) (a : α) : Prop :=
  ∃ l h, (l, h, a) ∈ c ∧ l ≤ x ∧ x ≤ h

theorem sorted_nil : Sorted ([] : List (Int × Int × α)) := ⟨nofun, .nil⟩

theorem sorted_cons : Sorted (p :: c) ↔
    p.1 ≤ p.2.1 ∧ (∀ q ∈ c, p.2.1 < q.1) ∧ Sorted c := by
  constructor
  · intro h
    obtain ⟨hp, hc⟩ := pairwise_cons.mp h.below
    exact ⟨h.le p mem_cons_self, hp, fun q hq => h.le q (mem_cons_of_mem _ hq), hc⟩
  · rintro ⟨hp, hlt, hc⟩
    exact ⟨forall_mem_cons.mpr ⟨hp, hc.le⟩, pairwise_cons.mpr ⟨hlt, hc.below⟩⟩

theorem within_cons {low high : Int} :
    Within low high (p :: c) ↔ (low ≤ p.1 ∧ p.2.1 ≤ high) ∧ Within low high c :=
  forall_mem_cons

theorem picks_cons {x l h : Int} {a b : α} :
    Picks ((l, h, b) :: c) x a ↔ (l ≤ x ∧ x ≤ h ∧ a = b) ∨ Picks c x a := by
  unfold Picks
  constructor
  · rintro ⟨l', h', hmem, hx⟩
    rcases mem_cons.mp hmem with heq | hmem
    · obtain ⟨rfl, rfl, rfl⟩ : l' = l ∧ h' = h ∧ a = b := by simpa using heq
      exact .inl ⟨hx.1, hx.2, rfl⟩
    · exact .inr ⟨l', h', hmem, hx⟩
  · rintro (⟨hl, hh, rfl⟩ | ⟨l', h', hmem, hx⟩)
    · exact ⟨l, h, mem_cons_self, hl, hh⟩
    · exact ⟨l', h', mem_cons_of_mem _ hmem, hx⟩

theorem Picks.within {low high x : Int} {a : α} (h : Picks c x a) (hc : Within low high c) :
    low ≤ x ∧ x ≤ high := by
  obtain ⟨l, h, hmem, hl, hh⟩ := h
  obtain ⟨h1, h2⟩ := hc _ hmem
  exact ⟨Int.le_trans h1 hl, Int.le_trans hh h2⟩

/-! ## Contiguous intervals -/

/-- The intervals follow each other without a gap, from `low` to `high`. -/
inductive Tiles : Int → Int → List (Int × Int × α) → Prop
  | last {l h : Int} {a : α} (hle : l ≤ h) : Tiles l h [(l, h, a)]
  | cons {l h high : Int} {a : α} {c : List (Int × Int × α)} (hle : l ≤ h)
    (hc : Tiles (h + 1) high c) : Tiles l high ((l, h, a) :: c)

variable {low high : Int}

section

variable (h : Tiles low high c)

include h

theorem Tiles.ne_nil : c ≠ [] := by
  cases h <;> exact cons_ne_nil _ _

theorem Tiles.le : low ≤ high := by
  induction h with
  | last hle => exact hle
  | cons hle _ ih => omega

theorem Tiles.within : Within low high c := by
  induction h with
  | last hle => exact within_cons.mpr ⟨⟨Int.le_refl _, Int.le_refl _⟩, nofun⟩
  | @cons l h high a c hle hc ih =>
    have hlast : h ≤ high := by have := hc.le; omega
    refine within_cons.mpr ⟨⟨Int.le_refl _, hlast⟩, fun p hp => ?_⟩
    obtain ⟨h1, h2⟩ := ih p hp
    exact ⟨by omega, h2⟩

theorem Tiles.sorted : Sorted c := by
  induction h with
  | last hle => exact sorted_cons.mpr ⟨hle, nofun, sorted_nil⟩
  | @cons l h high a c hle hc ih =>
    refine sorted_cons.mpr ⟨hle, fun q hq => ?_, ih⟩
    have := (hc.within q hq).1
    exact Int.lt_of_lt_of_le (Int.lt_add_one_iff.mpr (Int.le_refl h)) this

end

/-- The intervals go from `low` to `high`, and the label of `x` is `f x`. -/
structure Represents (f : Int → α) (low high : Int) (c : List (Int × Int × α)) : Prop where
  tiles : Tiles low high c
  picks_iff : ∀ x, low ≤ x → x ≤ high → ∀ a, Picks c x a ↔ a = f x

variable {f : Int → α} {l h : Int} {a : α}

theorem represents_singleton (hle : l ≤ h) (hf : ∀ x, l ≤ x → x ≤ h → f x = a) :
    Represents f l h [(l, h, a)] := by
  refine ⟨.last hle, fun x hl hh b => ?_⟩
  rw [picks_cons, hf x hl hh]
  constructor
  · rintro (hb | ⟨_, _, hmem, _⟩)
    · exact hb.2.2
    · cases hmem
  · exact fun hb => .inl ⟨hl, hh, hb⟩

theorem Represents.cons (hc : Represents f (h + 1) high c) (hle : l ≤ h)
    (hf : ∀ x, l ≤ x → x ≤ h → f x = a) : Represents f l high ((l, h, a) :: c) := by
  refine ⟨.cons hle hc.tiles, fun x hl hh b => ?_⟩
  rw [picks_cons]
  by_cases hx : x ≤ h
  · rw [hf x hl hx]
    refine ⟨fun hb => hb.elim (fun hb => hb.2.2) fun hp => ?_, fun hb => .inl ⟨hl, hx, hb⟩⟩
    have := (hp.within hc.tiles.within).1
    omega
  · rw [← hc.picks_iff x (by omega) hh]
    exact ⟨fun hb => hb.elim (fun hb => absurd hb.2.1 hx) id, .inr⟩

/-- The first interval may begin earlier. -/
theorem Represents.extend (hc : Represents f (l + 1) high ((l + 1, h, a) :: c)) (hf : f l = a) :
    Represents f l high ((l, h, a) :: c) := by
  have hlabel : ∀ x, l ≤ x → x ≤ h → h ≤ high → f x = a := by
    intro x hl hx hh
    by_cases hxl : x = l
    · rw [hxl, hf]
    · exact ((hc.picks_iff x (by omega) (by omega) a).mp
        (picks_cons.mpr (.inl ⟨by omega, hx, rfl⟩))).symm
  have htiles := hc.tiles
  cases htiles with
  | last hle => exact represents_singleton (by omega) fun x hl hx => hlabel x hl hx (Int.le_refl _)
  | cons hle hrest =>
    have hlast := hrest.le
    refine Represents.cons ⟨hrest, fun x hl hh b => ?_⟩ (by omega) fun x hl hx =>
      hlabel x hl hx (by omega)
    rw [← hc.picks_iff x (by omega) hh, picks_cons]
    exact ⟨.inr, fun hb => hb.elim (fun hb => by omega) id⟩

/-- One interval has the same label everywhere. -/
theorem Represents.eq_of_length_one (h : Represents f low high c) (hone : c.length = 1) {x y : Int}
    (hx : low ≤ x ∧ x ≤ high) (hy : low ≤ y ∧ y ≤ high) : f x = f y := by
  obtain ⟨⟨l, k, a⟩, rfl⟩ := length_eq_one_iff.mp hone
  have hlabel : ∀ z, low ≤ z ∧ z ≤ high → f z = a := by
    intro z hz
    obtain ⟨l', k', hmem, _⟩ := (h.picks_iff z hz.1 hz.2 (f z)).mpr rfl
    cases mem_singleton.mp hmem
    rfl
  rw [hlabel x hx, hlabel y hy]

end Intervals
