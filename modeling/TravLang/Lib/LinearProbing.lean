import Mathlib.Algebra.Group.Nat.Defs
import Mathlib.Data.List.Perm.Basic
import Mathlib.Data.List.Nodup
import Mathlib.Data.Nat.Find

/-!
# Open addressing with linear probing

A table is a list of slots, each free or with a key and its value, the number of slots being a
power of two. A search starts at the hash of its key and goes round the table until it meets the
key or a free slot. A table holds a list of bindings when every binding is met by the search for
its key; this is kept when a binding is put into the free slot that its search ended at.
-/

namespace Probing

open List

variable {κ β : Type} {hash : κ → Nat} {slots : List (Option (κ × β))} {es : List (κ × β)} {k : κ}
  {v : β} {p : Nat}

/-- From slot `h` on, the first slot that the search stops at. -/
def probe (stop : Option (κ × β) → Bool) (mask : Nat) (slots : List (Option (κ × β))) :
    Nat → Nat → Option Nat
  | 0, _ => none
  | fuel + 1, h =>
    match slots[h]? with
    | none => none
    | some e => if stop e then some h else probe stop mask slots fuel ((h + 1) &&& mask)

/-- The search for a key stops there. -/
def stopsAt [BEq κ] (k : κ) : Option (κ × β) → Bool
  | none => true
  | some (k', _) => k' == k

/-- Puts the bindings of some slots into a table, one after the other, each into the first free
slot from its hash on. -/
def fill (hash : κ → Nat) (mask : Nat) (old slots : List (Option (κ × β))) :
    Option (List (Option (κ × β))) :=
  old.foldlM (fun slots e =>
    match e with
    | none => some slots
    | some (k, v) =>
      (probe Option.isNone mask slots slots.length (hash k)).map fun h => slots.set h (some (k, v)))
    slots

/-- A slot with a binding whose key is not `k`. -/
def Passes (k : κ) (slots : List (Option (κ × β))) (j : Nat) : Prop :=
  ∃ k' v', slots[j]? = some (some (k', v')) ∧ k' ≠ k

/-- The table has exactly these bindings, and each one is met by the search for its key. -/
structure Holds (hash : κ → Nat) (slots : List (Option (κ × β))) (es : List (κ × β)) : Prop where
  perm : (slots.filterMap id).Perm es
  nodup : (es.map Prod.fst).Nodup
  path : ∀ j k v, slots[j]? = some (some (k, v)) →
    ∃ d, d < slots.length ∧ j = (hash k + d) % slots.length ∧
      ∀ e < d, Passes k slots ((hash k + e) % slots.length)

/-! ## The search -/

theorem probe_eq {stop : Option (κ × β) → Bool} (hp : slots.length = 2 ^ p)
    {e : Option (κ × β)} (hstop : stop e = true) : ∀ (d fuel h : Nat), d < fuel →
    (∀ i < d, ∃ e', slots[(h + i) % slots.length]? = some e' ∧ stop e' = false) →
    slots[(h + d) % slots.length]? = some e →
    probe stop (slots.length - 1) slots fuel (h % slots.length) =
      some ((h + d) % slots.length) := by
  intro d
  induction d with
  | zero =>
    intro fuel h hfuel _ hend
    obtain ⟨fuel, rfl⟩ : ∃ f, fuel = f + 1 := ⟨fuel - 1, by omega⟩
    rw [Nat.add_zero] at hend
    simp only [probe, hend, hstop, if_true, Nat.add_zero]
  | succ d ih =>
    intro fuel h hfuel hpass hend
    obtain ⟨fuel, rfl⟩ : ∃ f, fuel = f + 1 := ⟨fuel - 1, by omega⟩
    obtain ⟨e', he', hne⟩ := hpass 0 (Nat.succ_pos d)
    rw [Nat.add_zero] at he'
    have hnext : (h % slots.length + 1) &&& (slots.length - 1) = (h + 1) % slots.length := by
      rw [hp, Nat.and_two_pow_sub_one_eq_mod, Nat.mod_add_mod]
    have hshift : ∀ i, h + 1 + i = h + (i + 1) := fun i => by omega
    simp only [probe, he', hne, hnext, Bool.false_eq_true, if_false]
    rw [ih fuel (h + 1) (by omega) (fun i hi => by
      rw [hshift]; exact hpass (i + 1) (by omega)) (by rw [hshift]; exact hend), hshift]

/-- A search that can stop does: at the nearest slot where it can. -/
theorem probe_stops (stop : Option (κ × β) → Bool) (hp : slots.length = 2 ^ p) {h : Nat}
    (hh : h < slots.length) (hex : ∃ (j : Nat) (e : _), slots[j]? = some e ∧ stop e = true) :
    ∃ d e, d < slots.length ∧
      probe stop (slots.length - 1) slots slots.length h = some ((h + d) % slots.length) ∧
      slots[(h + d) % slots.length]? = some e ∧ stop e = true ∧
      ∀ i < d, ∃ e', slots[(h + i) % slots.length]? = some e' ∧ stop e' = false := by
  classical
  obtain ⟨j, e, hj, he⟩ := hex
  have hjlt : j < slots.length := (List.getElem?_eq_some_iff.mp hj).1
  have hreach : ∃ d, ∃ e, slots[(h + d) % slots.length]? = some e ∧ stop e = true := by
    refine ⟨j + slots.length - h, e, ?_, he⟩
    rw [show h + (j + slots.length - h) = j + slots.length by omega, Nat.add_mod_right,
      Nat.mod_eq_of_lt hjlt]
    exact hj
  obtain ⟨e', hd, he'⟩ := Nat.find_spec hreach
  have hmin : ∀ i < Nat.find hreach,
      ∃ e', slots[(h + i) % slots.length]? = some e' ∧ stop e' = false := by
    intro i hi
    have hilt : (h + i) % slots.length < slots.length := Nat.mod_lt _ (by omega)
    refine ⟨_, List.getElem?_eq_getElem hilt, ?_⟩
    rw [Bool.eq_false_iff]
    exact fun hs => Nat.find_min hreach hi ⟨_, List.getElem?_eq_getElem hilt, hs⟩
  have hlt : Nat.find hreach < slots.length := by
    by_contra hge
    obtain ⟨e'', he'', hns⟩ := hmin (Nat.find hreach - slots.length) (by omega)
    rw [← Nat.add_mod_right,
      show h + (Nat.find hreach - slots.length) + slots.length = h + Nat.find hreach by omega,
      hd] at he''
    obtain rfl := Option.some.inj he''
    rw [he'] at hns
    cases hns
  refine ⟨_, e', hlt, ?_, hd, he', hmin⟩
  have hprobe := probe_eq hp he' _ slots.length h hlt hmin hd
  rwa [Nat.mod_eq_of_lt hh] at hprobe

/-! ## Bindings -/

theorem mem_filterMap_id {x : κ × β} :
    x ∈ slots.filterMap id ↔ ∃ j : Nat, slots[j]? = some (some x) := by
  rw [mem_filterMap]
  constructor
  · rintro ⟨e, he, rfl⟩
    obtain ⟨j, hj⟩ := mem_iff_getElem?.mp he
    exact ⟨j, hj⟩
  · rintro ⟨j, hj⟩
    exact ⟨some x, mem_iff_getElem?.mpr ⟨j, hj⟩, rfl⟩

theorem Holds.mem_iff (h : Holds hash slots es) {x : κ × β} :
    x ∈ es ↔ ∃ j : Nat, slots[j]? = some (some x) := by
  rw [← h.perm.mem_iff, mem_filterMap_id]

theorem exists_free (h : Holds hash slots es) (hlt : es.length < slots.length) :
    ∃ j : Nat, slots[j]? = some none := by
  by_contra hall
  have hsome : ∀ e ∈ slots, e.isSome := by
    intro e he
    obtain ⟨j, hj⟩ := mem_iff_getElem?.mp he
    cases e with
    | none => exact absurd ⟨j, hj⟩ hall
    | some x => rfl
  have hlen : (slots.filterMap id).length = slots.length := by
    rw [length_filterMap_eq_countP, countP_eq_length]
    exact hsome
  rw [h.perm.length_eq] at hlen
  omega

theorem perm_set {x : κ × β} : ∀ {slots : List (Option (κ × β))} {j : Nat},
    slots[j]? = some none → ((slots.set j (some x)).filterMap id).Perm (x :: slots.filterMap id)
  | [], j, h => by simp at h
  | e :: slots, 0, h => by
    rw [List.getElem?_cons_zero, Option.some.injEq] at h
    subst h
    exact List.Perm.refl _
  | e :: slots, j + 1, h => by
    rw [List.getElem?_cons_succ] at h
    have ih := perm_set (x := x) h
    cases e with
    | none => exact ih
    | some y => exact (ih.cons y).trans (List.Perm.swap x y _)

/-- A binding may be put into the first free slot from its hash on. -/
theorem Holds.insert (h : Holds hash slots es) {d : Nat} (hd : d < slots.length)
    (hfree : slots[(hash k + d) % slots.length]? = some none)
    (hpath : ∀ e < d, Passes k slots ((hash k + e) % slots.length))
    (hnew : k ∉ es.map Prod.fst) :
    Holds hash (slots.set ((hash k + d) % slots.length) (some (k, v))) (es ++ [(k, v)]) := by
  have hkeep : ∀ {j k'}, Passes k' slots j →
      Passes k' (slots.set ((hash k + d) % slots.length) (some (k, v))) j := by
    rintro j k' ⟨k₁, v₁, hj, hne⟩
    refine ⟨k₁, v₁, ?_, hne⟩
    rw [List.getElem?_set_ne, hj]
    rintro rfl
    rw [hfree] at hj
    cases hj
  refine ⟨(perm_set hfree).trans ?_, ?_, ?_⟩
  · exact (h.perm.cons _).trans (perm_append_singleton _ _).symm
  · rw [map_append, nodup_append]
    refine ⟨h.nodup, nodup_singleton _, ?_⟩
    rintro a ha b hb rfl
    rw [map_singleton, mem_singleton] at hb
    subst hb
    exact hnew ha
  · intro j k' v' hj
    rw [length_set]
    by_cases hjd : (hash k + d) % slots.length = j
    · rw [← hjd, List.getElem?_set_self (Nat.mod_lt _ (by omega))] at hj
      obtain ⟨rfl, rfl⟩ : k = k' ∧ v = v' := by simpa using hj
      exact ⟨d, hd, hjd.symm, fun e he => hkeep (hpath e he)⟩
    · rw [List.getElem?_set_ne hjd] at hj
      obtain ⟨d', hd', rfl, hpath'⟩ := h.path j k' v' hj
      exact ⟨d', hd', rfl, fun e he => hkeep (hpath' e he)⟩

/-- **The search for a key meets its binding, or ends where the binding may be put.** -/
theorem Holds.lookup [BEq κ] [LawfulBEq κ] (h : Holds hash slots es)
    (hp : slots.length = 2 ^ p) (hlt : es.length < slots.length) (hk : hash k < slots.length) :
    ∃ j, probe (stopsAt k) (slots.length - 1) slots slots.length (hash k) = some j ∧
      ((∃ v, slots[j]? = some (some (k, v)) ∧ (k, v) ∈ es) ∨
        (slots[j]? = some none ∧ k ∉ es.map Prod.fst ∧
          ∀ v, Holds hash (slots.set j (some (k, v))) (es ++ [(k, v)]))) := by
  obtain ⟨j, hj⟩ := exists_free h hlt
  obtain ⟨d, e, hd, hprobe, hend, hstop, hmin⟩ :=
    probe_stops (stopsAt k) hp hk ⟨j, none, hj, rfl⟩
  refine ⟨_, hprobe, ?_⟩
  have hpass : ∀ i < d, Passes k slots ((hash k + i) % slots.length) := by
    intro i hi
    obtain ⟨e', he', hns⟩ := hmin i hi
    rcases e' with _ | ⟨k', v'⟩
    · cases hns
    · exact ⟨k', v', he', by simpa [stopsAt] using hns⟩
  rcases e with _ | ⟨k', v'⟩
  · right
    have hnew : k ∉ es.map Prod.fst := by
      rintro hkey
      obtain ⟨⟨k', v'⟩, hmem, rfl⟩ := mem_map.mp hkey
      obtain ⟨j', hj'⟩ := h.mem_iff.mp hmem
      obtain ⟨d', hd', rfl, hpath⟩ := h.path j' _ _ hj'
      -- the key and the free slot are both the first stop
      rcases Nat.lt_trichotomy d d' with hlt | rfl | hlt
      · obtain ⟨_, _, hocc, _⟩ := hpath d hlt
        rw [hend] at hocc
        cases hocc
      · rw [hend] at hj'
        cases hj'
      · obtain ⟨_, _, hocc, hne⟩ := hpass d' hlt
        rw [hj'] at hocc
        cases hocc
        exact hne rfl
    exact ⟨hend, hnew, fun v => h.insert hd hend hpass hnew⟩
  · left
    obtain rfl : k' = k := by simpa [stopsAt] using hstop
    exact ⟨v', hend, h.mem_iff.mpr ⟨_, hend⟩⟩

theorem holds_replicate (hash : κ → Nat) (n : Nat) :
    Holds hash (List.replicate n (none : Option (κ × β))) [] := by
  refine ⟨by simp, nodup_nil, ?_⟩
  intro j k v hj
  have := mem_iff_getElem?.mpr ⟨j, hj⟩
  cases eq_of_mem_replicate this

/-- A table takes the bindings of another one. -/
theorem fill_spec (hhash : ∀ k, hash k < 2 ^ p) : ∀ (old slots : List (Option (κ × β)))
    (es : List (κ × β)), slots.length = 2 ^ p → Holds hash slots es →
    ((es ++ old.filterMap id).map Prod.fst).Nodup → (es ++ old.filterMap id).length < 2 ^ p →
    ∃ slots', fill hash (2 ^ p - 1) old slots = some slots' ∧ slots'.length = 2 ^ p ∧
      Holds hash slots' (es ++ old.filterMap id)
  | [], slots, es, hlen, h, _, _ => ⟨slots, rfl, hlen, by simpa using h⟩
  | none :: old, slots, es, hlen, h, hnodup, hlt => by
    obtain ⟨slots', hfill, hlen', h'⟩ := fill_spec hhash old slots es hlen h hnodup hlt
    exact ⟨slots', hfill, hlen', h'⟩
  | some (k, v) :: old, slots, es, hlen, h, hnodup, hlt => by
    have hes : es ++ List.filterMap id (some (k, v) :: old) =
        (es ++ [(k, v)]) ++ old.filterMap id := by simp
    rw [hes] at hnodup hlt ⊢
    have hnew : k ∉ es.map Prod.fst := by
      rw [map_append, map_append] at hnodup
      have := (nodup_append.mp (nodup_append.mp hnodup).1).2.2
      exact fun hk => this k hk k (by simp) rfl
    have hfew : es.length < slots.length := by
      simp only [length_append, length_singleton] at hlt
      omega
    obtain ⟨j, hj⟩ := exists_free h hfew
    obtain ⟨d, e, hd, hprobe, hend, hstop, hmin⟩ :=
      probe_stops Option.isNone hlen (hlen ▸ hhash k) ⟨j, none, hj, rfl⟩
    obtain rfl : e = none := Option.isNone_iff_eq_none.mp hstop
    have hpass : ∀ i < d, Passes k slots ((hash k + i) % slots.length) := by
      intro i hi
      obtain ⟨e', he', hsome⟩ := hmin i hi
      rcases e' with _ | ⟨k', v'⟩
      · cases hsome
      · refine ⟨k', v', he', ?_⟩
        rintro rfl
        exact hnew (mem_map_of_mem (h.mem_iff.mpr ⟨_, he'⟩))
    obtain ⟨slots', hfill, hlen', h'⟩ := fill_spec hhash old _ (es ++ [(k, v)])
      (by rw [length_set, hlen]) (h.insert (v := v) hd hend hpass hnew) hnodup hlt
    refine ⟨slots', ?_, hlen', h'⟩
    rw [fill, foldlM_cons]
    simp only [← hlen, hprobe, Option.map_some, Option.bind_eq_bind, Option.bind_some]
    rw [← hlen] at hfill
    exact hfill

end Probing
