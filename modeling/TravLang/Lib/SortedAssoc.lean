import Mathlib.Data.List.Basic

/-!
# Sorted association lists

Finite maps over a key type that comes with a comparison function returning an integer:
negative, zero or positive as the first key is smaller than, equivalent to or greater than the
second. A map is the list of its bindings with strictly increasing keys, and `lookup` reads it as
a function from keys to optional values.

The results are about three ways of taking such lists apart.

* `Cut` — the bindings below, at and above a key
* `Edit` — a list that differs from another one in the binding of a single key
* `IsZip` — the joint listing of the keys of two lists, each with its two optional values
-/

namespace SortedAssoc

open List

variable {κ α β δ : Type} {cmp : κ → κ → Int}

/-! ## Comparison functions -/

/-- `cmp` decides a total preorder: keys that compare as zero need not be the same. -/
structure TotalPreorder (cmp : κ → κ → Int) : Prop where
  neg_iff : ∀ x y, cmp x y < 0 ↔ 0 < cmp y x
  trans : ∀ x y z, cmp x y ≤ 0 → cmp y z ≤ 0 → cmp x z ≤ 0

/-- `cmp` decides a total order. -/
structure TotalOrder (cmp : κ → κ → Int) : Prop extends TotalPreorder cmp where
  eq_of_zero : ∀ x y, cmp x y = 0 → x = y

namespace TotalPreorder

/-- The difference of two numbers compares them. -/
theorem sub (f : κ → Int) : TotalPreorder fun x y => f x - f y :=
  ⟨fun x y => by omega, fun x y z => by omega⟩

theorem self (h : TotalPreorder cmp) (x : κ) : cmp x x = 0 := by
  have := h.neg_iff x x
  omega

variable {x y : κ}

section

variable (h : TotalPreorder cmp) {z : κ}

include h

theorem zero_symm (hxy : cmp x y = 0) : cmp y x = 0 := by
  have h1 := h.neg_iff x y
  have h2 := h.neg_iff y x
  omega

theorem le_symm (hxy : 0 ≤ cmp x y) : cmp y x ≤ 0 := by
  have h1 := h.neg_iff x y
  omega

theorem lt_of_lt_of_le (hxy : cmp x y < 0) (hyz : cmp y z ≤ 0) : cmp x z < 0 := by
  by_contra hc
  have hzx : cmp z x ≤ 0 := h.le_symm (by omega)
  have hyx : cmp y x ≤ 0 := h.trans y z x hyz hzx
  have := h.neg_iff x y
  omega

theorem lt_of_le_of_lt (hxy : cmp x y ≤ 0) (hyz : cmp y z < 0) : cmp x z < 0 := by
  by_contra hc
  have hzx : cmp z x ≤ 0 := h.le_symm (by omega)
  have hzy : cmp z y ≤ 0 := h.trans z x y hzx hxy
  have := h.neg_iff y z
  omega

/-- The keys of an increasing pair, as seen from a third one. -/
theorem between (hyz : cmp y z < 0) :
    (cmp x y ≤ 0 → cmp x z < 0) ∧ (0 ≤ cmp x z → 0 < cmp x y) :=
  ⟨fun hxy => h.lt_of_le_of_lt hxy hyz,
    fun hxz => (h.neg_iff y x).mp (h.lt_of_lt_of_le hyz (h.le_symm hxz))⟩

/-- Equivalent keys compare alike with every other key. -/
theorem congr_neg (hxy : cmp x y = 0) (z : κ) : cmp x z < 0 ↔ cmp y z < 0 := by
  have hyx := h.zero_symm hxy
  exact ⟨fun hz => h.lt_of_le_of_lt (by omega) hz, fun hz => h.lt_of_le_of_lt (by omega) hz⟩

theorem congr_pos (hxy : cmp x y = 0) (z : κ) : 0 < cmp x z ↔ 0 < cmp y z := by
  rw [← h.neg_iff, ← h.neg_iff]
  have hyx := h.zero_symm hxy
  exact ⟨fun hz => h.lt_of_lt_of_le hz (by omega), fun hz => h.lt_of_lt_of_le hz (by omega)⟩

theorem congr_zero (hxy : cmp x y = 0) (z : κ) : cmp x z = 0 ↔ cmp y z = 0 := by
  have h1 := h.congr_neg hxy z
  have h2 := h.congr_pos hxy z
  omega

end

end TotalPreorder

/-! ## Lookup -/

/-- Strictly increasing keys. -/
def Sorted (cmp : κ → κ → Int) (xs : List (κ × α)) : Prop :=
  xs.Pairwise (fun a b => cmp a.1 b.1 < 0)

/-- The value bound to a key. -/
def lookup (cmp : κ → κ → Int) (k : κ) : List (κ × α) → Option α
  | [] => none
  | (v, d) :: xs => if cmp k v = 0 then some d else lookup cmp k xs

@[simp] theorem lookup_nil (k : κ) : lookup cmp k ([] : List (κ × α)) = none := rfl

theorem lookup_append (k : κ) (xs ys : List (κ × α)) :
    lookup cmp k (xs ++ ys) = (lookup cmp k xs).or (lookup cmp k ys) := by
  induction xs with
  | nil => simp
  | cons b xs ih =>
    simp only [cons_append, lookup]
    split
    · simp
    · exact ih

variable {xs : List (κ × α)} {k : κ} {b : κ × α}

theorem lookup_eq_none :
    lookup cmp k xs = none ↔ ∀ b ∈ xs, cmp k b.1 ≠ 0 := by
  induction xs with
  | nil => simp
  | cons b xs ih =>
    simp only [lookup, forall_mem_cons]
    split
    · next h => simp [h]
    · next h => simp [h, ih]

theorem mem_of_lookup {d : α} (h : lookup cmp k xs = some d) :
    ∃ v, cmp k v = 0 ∧ (v, d) ∈ xs := by
  induction xs with
  | nil => simp at h
  | cons b xs ih =>
    rw [lookup] at h
    split at h
    · next h0 => exact ⟨b.1, h0, by cases h; simp⟩
    · obtain ⟨v, hv, hmem⟩ := ih h
      exact ⟨v, hv, mem_cons_of_mem _ hmem⟩

theorem exists_of_lookup (h : (lookup cmp k xs).isSome) : ∃ b ∈ xs, cmp k b.1 = 0 := by
  obtain ⟨d, hd⟩ := Option.isSome_iff_exists.mp h
  obtain ⟨v, hv, hmem⟩ := mem_of_lookup hd
  exact ⟨_, hmem, hv⟩

/-- In a sorted list every binding is the one found at its key. -/
theorem lookup_of_mem (h : TotalPreorder cmp) (hs : Sorted cmp xs) (hb : b ∈ xs) :
    lookup cmp b.1 xs = some b.2 := by
  induction xs with
  | nil => simp at hb
  | cons a xs ih =>
    obtain ⟨hlt, hs⟩ := pairwise_cons.mp hs
    rw [lookup]
    rcases mem_cons.mp hb with rfl | hb
    · rw [if_pos (h.self _)]
    · have := hlt b hb
      have hne : cmp b.1 a.1 ≠ 0 := fun h0 => by
        have := h.zero_symm h0
        omega
      rw [if_neg hne]
      exact ih hs hb

theorem sorted_append {ys : List (κ × α)} :
    Sorted cmp (xs ++ ys) ↔ Sorted cmp xs ∧ Sorted cmp ys ∧
      ∀ a ∈ xs, ∀ b ∈ ys, cmp a.1 b.1 < 0 := pairwise_append

/-! ## Cuts -/

/-- `L`, `m` and `R` are the bindings of `xs` below, at and above the key `x`. -/
structure Cut (cmp : κ → κ → Int) (x : κ) (xs L : List (κ × α)) (m : Option (κ × α))
    (R : List (κ × α)) : Prop where
  eq : xs = L ++ m.toList ++ R
  left : ∀ b ∈ L, 0 < cmp x b.1
  mid : ∀ b ∈ m, cmp x b.1 = 0
  right : ∀ b ∈ R, cmp x b.1 < 0

namespace Cut

variable {x : κ} {xs ys L R : List (κ × α)} {m : Option (κ × α)}

/-- The cut of a sorted list at the key of one of its bindings. -/
theorem node (h : TotalPreorder cmp) (hx : cmp x b.1 = 0)
    (hs : Sorted cmp (L ++ b :: R)) : Cut cmp x (L ++ b :: R) L (some b) R := by
  obtain ⟨-, hR, hLR⟩ := sorted_append.mp hs
  refine ⟨by simp, fun a ha => ?_, by simpa using hx, fun a ha => ?_⟩
  · rw [h.congr_pos hx, ← h.neg_iff]
    exact hLR a ha b (by simp)
  · rw [h.congr_neg hx]
    exact (pairwise_cons.mp hR).1 a ha

/-- **Lookup along a cut.** The bindings on the other side of the cut do not matter. -/
theorem lookup_eq (h : TotalPreorder cmp) (hc : Cut cmp x xs L m R) (k : κ) :
    lookup cmp k xs = if cmp k x = 0 then m.map Prod.snd
      else if cmp k x < 0 then lookup cmp k L else lookup cmp k R := by
  have hL : 0 ≤ cmp k x → lookup cmp k L = none := by
    intro hk
    refine lookup_eq_none.mpr fun b hb => ?_
    have h1 : cmp b.1 x < 0 := (h.neg_iff _ _).mpr (hc.left b hb)
    have := (h.neg_iff _ _).mp (h.lt_of_lt_of_le h1 (h.le_symm hk))
    omega
  have hR : cmp k x ≤ 0 → lookup cmp k R = none := by
    intro hk
    refine lookup_eq_none.mpr fun b hb => ?_
    have := h.lt_of_le_of_lt hk (hc.right b hb)
    omega
  have hm : lookup cmp k m.toList = if cmp k x = 0 then m.map Prod.snd else none := by
    cases m with
    | none => simp
    | some b =>
      have hb := h.zero_symm (hc.mid b rfl)
      simp only [Option.toList, lookup, Option.map_some]
      by_cases h0 : cmp k x = 0
      · rw [if_pos h0, if_pos ((h.congr_zero h0 b.1).mpr (hc.mid b rfl))]
      · rw [if_neg h0, if_neg fun hk => h0 (h.zero_symm ((h.congr_zero hb k).mp
          (h.zero_symm hk)))]
  rw [hc.eq, lookup_append, lookup_append, hm]
  by_cases h0 : cmp k x = 0
  · rw [hL (by omega), hR (by omega)]
    simp [h0]
  · by_cases hneg : cmp k x < 0
    · rw [hR (by omega)]
      simp [h0, hneg]
    · rw [hL (by omega)]
      simp [h0, hneg]

theorem sorted_left (hc : Cut cmp x xs L m R) (hs : Sorted cmp xs) : Sorted cmp L := by
  rw [hc.eq, append_assoc] at hs
  exact (sorted_append.mp hs).1

theorem sorted_right (hc : Cut cmp x xs L m R) (hs : Sorted cmp xs) : Sorted cmp R := by
  rw [hc.eq] at hs
  exact (sorted_append.mp hs).2.1

/-- The parts of a cut are sorted together as soon as the two sides are. -/
theorem sorted (h : TotalPreorder cmp) (hc : Cut cmp x xs L m R) (hL : Sorted cmp L)
    (hR : Sorted cmp R) : Sorted cmp xs := by
  have hLx : ∀ a ∈ L, cmp a.1 x < 0 := fun a ha => (h.neg_iff _ _).mpr (hc.left a ha)
  rw [hc.eq, append_assoc]
  refine sorted_append.mpr ⟨hL, sorted_append.mpr ⟨?_, hR, ?_⟩, ?_⟩
  · cases m <;> simp [Sorted]
  · intro a ha b hb
    have ha0 := hc.mid a (by simpa using ha)
    exact (h.congr_neg ha0 b.1).mp (hc.right b hb)
  · intro a ha b hb
    rcases mem_append.mp hb with hb | hb
    · have hb0 := hc.mid b (by simpa using hb)
      exact h.lt_of_lt_of_le (hLx a ha) (by omega)
    · exact h.lt_of_lt_of_le (hLx a ha) (by have := hc.right b hb; omega)

end Cut

/-! ## Edits -/

/-- `ys` is `xs` with the value at `x` replaced by what `f` makes of it. -/
def Edit (cmp : κ → κ → Int) (x : κ) (f : Option α → Option α) (xs ys : List (κ × α)) : Prop :=
  ∃ L m R o, Cut cmp x xs L m R ∧ Cut cmp x ys L o R ∧ o.map Prod.snd = f (m.map Prod.snd)

namespace Edit

variable {x : κ} {f : Option α → Option α} {xs ys zs : List (κ × α)}

theorem sorted (h : TotalPreorder cmp) (he : Edit cmp x f xs ys) (hs : Sorted cmp xs) :
    Sorted cmp ys := by
  obtain ⟨L, m, R, o, hm, ho, -⟩ := he
  exact ho.sorted h (hm.sorted_left hs) (hm.sorted_right hs)

/-- **An edit changes the value of one key and of no other.** -/
theorem lookup_eq (h : TotalPreorder cmp) (he : Edit cmp x f xs ys) (k : κ) :
    lookup cmp k ys = if cmp k x = 0 then f (lookup cmp x xs) else lookup cmp k xs := by
  obtain ⟨L, m, R, o, hm, ho, hf⟩ := he
  rw [ho.lookup_eq h k, hm.lookup_eq h x, hm.lookup_eq h k, if_pos (h.self x), hf]
  split <;> rfl

end Edit

/-! ## Joint listings -/

/-- The two optional values of a key that occurs in at least one of two maps. -/
def zipVal : Option α → Option β → Option (Option α × Option β)
  | none, none => none
  | a, b => some (a, b)

theorem zipVal_eq_some {a : Option α} {b : Option β} {c : Option α × Option β} :
    zipVal a b = some c ↔ (a.isSome ∨ b.isSome) ∧ c = (a, b) := by
  cases a <;> cases b <;> simp [zipVal, eq_comm]

/-- `calls` lists every key of `xs` or `ys` once, in order, with its values in both. -/
structure IsZip (cmp : κ → κ → Int) (xs : List (κ × α)) (ys : List (κ × β))
    (calls : List (κ × (Option α × Option β))) : Prop where
  sorted : Sorted cmp calls
  values : ∀ k, lookup cmp k calls = zipVal (lookup cmp k xs) (lookup cmp k ys)

namespace IsZip

theorem nil : IsZip cmp ([] : List (κ × α)) ([] : List (κ × β)) [] where
  sorted := List.Pairwise.nil
  values := by simp [zipVal]

variable {xs : List (κ × α)} {ys : List (κ × β)}

/-- A listed key is equivalent to a key of one of the two maps. -/
theorem key_of_mem (h : TotalPreorder cmp) {calls : List (κ × (Option α × Option β))}
    (hz : IsZip cmp xs ys calls) {c : κ × (Option α × Option β)} (hc : c ∈ calls) :
    (∃ a ∈ xs, cmp c.1 a.1 = 0) ∨ ∃ b ∈ ys, cmp c.1 b.1 = 0 := by
  have hv := hz.values c.1
  rw [lookup_of_mem h hz.sorted hc] at hv
  exact (zipVal_eq_some.mp hv.symm).1.imp exists_of_lookup exists_of_lookup

/-- The listings on the two sides of a key make a listing with that key in between. -/
theorem node (h : TotalPreorder cmp) {x : κ} {L R : List (κ × α)} {L' R' : List (κ × β)}
    {m : Option (κ × α)} {m' : Option (κ × β)} {cl cr : List (κ × (Option α × Option β))}
    (hx : Cut cmp x xs L m R) (hy : Cut cmp x ys L' m' R') (hm : m.isSome ∨ m'.isSome)
    (hl : IsZip cmp L L' cl) (hr : IsZip cmp R R' cr) :
    IsZip cmp xs ys (cl ++ (x, (m.map Prod.snd, m'.map Prod.snd)) :: cr) := by
  have hcut : Cut cmp x (cl ++ (x, (m.map Prod.snd, m'.map Prod.snd)) :: cr) cl
      (some (x, (m.map Prod.snd, m'.map Prod.snd))) cr := by
    refine ⟨by simp, fun c hc => ?_, by simpa using h.self x, fun c hc => ?_⟩
    · rw [← h.neg_iff]
      rcases hl.key_of_mem h hc with ⟨a, ha, h0⟩ | ⟨b, hb, h0⟩
      · exact h.lt_of_le_of_lt (by omega) ((h.neg_iff _ _).mpr (hx.left a ha))
      · exact h.lt_of_le_of_lt (by omega) ((h.neg_iff _ _).mpr (hy.left b hb))
    · rcases hr.key_of_mem h hc with ⟨a, ha, h0⟩ | ⟨b, hb, h0⟩
      · exact h.lt_of_lt_of_le (hx.right a ha) (by have := h.zero_symm h0; omega)
      · exact h.lt_of_lt_of_le (hy.right b hb) (by have := h.zero_symm h0; omega)
  refine ⟨hcut.sorted h hl.sorted hr.sorted, fun k => ?_⟩
  rw [hcut.lookup_eq h k, hx.lookup_eq h k, hy.lookup_eq h k, hl.values, hr.values]
  by_cases h0 : cmp k x = 0
  · simp only [if_pos h0, Option.map_some]
    exact (zipVal_eq_some.mpr ⟨by simpa using hm, rfl⟩).symm
  · simp only [if_neg h0]
    split <;> rfl

theorem left (hs : Sorted cmp xs) :
    IsZip cmp xs ([] : List (κ × β)) (xs.map fun b => (b.1, (some b.2, none))) where
  sorted := pairwise_map.mpr hs
  values k := by
    clear hs
    induction xs with
    | nil => rfl
    | cons b xs ih =>
      simp only [map_cons, lookup]
      split
      · rfl
      · exact ih

theorem right (hs : Sorted cmp ys) :
    IsZip cmp ([] : List (κ × α)) ys (ys.map fun b => (b.1, (none, some b.2))) where
  sorted := pairwise_map.mpr hs
  values k := by
    clear hs
    induction ys with
    | nil => rfl
    | cons b xs ih =>
      simp only [map_cons, lookup]
      split
      · rfl
      · exact ih

end IsZip

/-! ## Mapping the values -/

/-- The bindings that `f` keeps, with the values it gives them. -/
def filterMapVal (f : κ → α → Option δ) (xs : List (κ × α)) : List (κ × δ) :=
  xs.filterMap fun b => (f b.1 b.2).map fun d => (b.1, d)

theorem sorted_filterMapVal {f : κ → α → Option δ} (hs : Sorted cmp xs) :
    Sorted cmp (filterMapVal f xs) := by
  refine List.Pairwise.filterMap _ ?_ hs
  intro a a' ha b hb b' hb'
  obtain ⟨d, -, rfl⟩ := Option.map_eq_some_iff.mp hb
  obtain ⟨d', -, rfl⟩ := Option.map_eq_some_iff.mp hb'
  exact ha

theorem lookup_filterMapVal (h : TotalOrder cmp) {f : κ → α → Option δ} (hs : Sorted cmp xs)
    (k : κ) :
    lookup cmp k (filterMapVal f xs) = (lookup cmp k xs).bind (f k) := by
  induction xs with
  | nil => rfl
  | cons b xs ih =>
    obtain ⟨hlt, hs'⟩ := pairwise_cons.mp hs
    have ih := ih hs'
    simp only [filterMapVal, filterMap_cons, lookup] at ih ⊢
    by_cases h0 : cmp k b.1 = 0
    · have hk : k = b.1 := h.eq_of_zero _ _ h0
      rw [if_pos h0, Option.bind_some, ← hk]
      cases hf : f k b.2 with
      | some d => simp [lookup, h.self]
      | none =>
        -- no later binding has the key, so nothing else is found
        have hnone : lookup cmp k xs = none := by
          refine lookup_eq_none.mpr fun a ha => ?_
          have := (h.congr_neg h0 a.1).mpr (hlt a ha)
          omega
        simpa [hnone] using ih
    · rw [if_neg h0]
      cases hf : f b.1 b.2 with
      | none => simpa using ih
      | some d => simpa [lookup, h0] using ih

end SortedAssoc
