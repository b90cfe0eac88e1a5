import TravLang.Stdlib.Map.WellFormed

/-!
# `Map.Make` refines finite maps

`find_opt` reads a well-formed tree as a finite map, and `bindings` as its sorted association
list. Each operation is compared with the finite-map operation it stands for, and each way of
traversing a map with the list of its bindings.
-/

namespace TravLang.Map

open SortedAssoc List Enumeration

variable {κ α β γ : Type} {cmp : κ → κ → Int} {m m1 : T κ α}

/-! ## Two readings of a tree -/

/-- In a search tree, going down by comparisons finds what the list of bindings says. -/
theorem findOpt_eq_lookup (ho : TotalPreorder cmp) (k : κ) : ∀ {m : T κ α},
    Sorted cmp m.toList → findOpt cmp k m = lookup cmp k m.toList
  | .empty, _ => rfl
  | .node l (v, d) r h, hs => by
    obtain ⟨hl, hr, -, -⟩ := sorted_node hs
    have hcut := Cut.node (b := (v, d)) ho (ho.self v) hs
    rw [Avl.Tree.toList, hcut.lookup_eq ho k, findOpt, findOpt_eq_lookup ho k hl,
      findOpt_eq_lookup ho k hr]
    rfl

/-- `find` is `find_opt` with an exception for `None`. -/
theorem find_eq_findOpt (k : κ) : ∀ (m : T κ α),
    find cmp k m = match findOpt cmp k m with
      | some d => .ok d
      | none => .error .notFound
  | .empty => rfl
  | .node l (v, d) r h => by
    rw [find, findOpt, find_eq_findOpt k l, find_eq_findOpt k r]
    split_ifs <;> rfl

theorem bindingsAux_eq (m : T κ α) : ∀ (accu : List (κ × α)),
    bindingsAux accu m = m.toList ++ accu := by
  induction m with
  | empty => intro accu; rfl
  | node l b r h ihl ihr =>
    intro accu
    rw [bindingsAux, ihl, ihr]
    simp [Avl.Tree.toList]

theorem bindings_eq (m : T κ α) : bindings m = m.toList := by
  rw [bindings, bindingsAux_eq, append_nil]

/-- **`bindings` is the sorted association list of the map.** -/
theorem bindings_spec (ho : TotalOrder cmp) (hm : WellFormed cmp m) :
    Sorted cmp (bindings m) ∧ ∀ k d, (k, d) ∈ bindings m ↔ findOpt cmp k m = some d := by
  have hp := ho.toTotalPreorder
  rw [bindings_eq]
  refine ⟨hm.sorted, fun k d => ?_⟩
  rw [findOpt_eq_lookup hp k hm.sorted]
  constructor
  · intro hmem
    exact lookup_of_mem hp hm.sorted hmem
  · intro hl
    obtain ⟨v, hv, hmem⟩ := mem_of_lookup hl
    rw [ho.eq_of_zero _ _ hv]
    exact hmem

/-! ## Updates -/

section

variable (ho : TotalOrder cmp) (hm : WellFormed cmp m) (phys : PhysEq) (x : κ)

include ho hm phys x

theorem update_findOpt (f : Option α → Option α) :
    ∃ m', update cmp phys x f m = .ok m' ∧ WellFormed cmp m' ∧
      findOpt cmp x m' = f (findOpt cmp x m) ∧
      ∀ k, k ≠ x → findOpt cmp k m' = findOpt cmp k m := by
  have hp := ho.toTotalPreorder
  obtain ⟨m', h, hw⟩ := update_wellFormed hp hm phys x f
  have hl := (update_edit hp hm.sorted h).lookup_eq hp
  refine ⟨m', h, hw, ?_, fun k hk => ?_⟩
  · rw [findOpt_eq_lookup hp x hw.sorted, findOpt_eq_lookup hp x hm.sorted, hl x,
      if_pos (hp.self x)]
  · rw [findOpt_eq_lookup hp k hw.sorted, findOpt_eq_lookup hp k hm.sorted, hl k,
      if_neg fun h0 => hk (ho.eq_of_zero _ _ h0)]

theorem add_findOpt (d : α) :
    ∃ m', add cmp phys x d m = .ok m' ∧ WellFormed cmp m' ∧ findOpt cmp x m' = some d ∧
      ∀ k, k ≠ x → findOpt cmp k m' = findOpt cmp k m := by
  rw [add_eq_update]
  exact update_findOpt ho hm phys x _

theorem remove_findOpt :
    ∃ m', remove cmp phys x m = .ok m' ∧ WellFormed cmp m' ∧ findOpt cmp x m' = none ∧
      ∀ k, k ≠ x → findOpt cmp k m' = findOpt cmp k m := by
  rw [remove_eq_update]
  exact update_findOpt ho hm phys x _

end

/-! ## Splitting and filtering -/

section

variable (ho : TotalOrder cmp) (hm : WellFormed cmp m)

include ho hm

theorem split_findOpt (x : κ) :
    ∃ l r, split cmp x m = .ok (l, findOpt cmp x m, r) ∧ WellFormed cmp l ∧ WellFormed cmp r ∧
      (∀ k, findOpt cmp k l = if cmp k x < 0 then findOpt cmp k m else none) ∧
      ∀ k, findOpt cmp k r = if 0 < cmp k x then findOpt cmp k m else none := by
  have hp := ho.toTotalPreorder
  obtain ⟨l, mid, r, h, hwl, hwr, hcut⟩ := split_wellFormed hp hm x
  have hmid : findOpt cmp x m = mid.map Prod.snd := by
    rw [findOpt_eq_lookup hp x hm.sorted, hcut.lookup_eq hp x, if_pos (hp.self x)]
  refine ⟨l, r, by rw [hmid]; exact h, hwl, hwr, fun k => ?_, fun k => ?_⟩
  · rw [findOpt_eq_lookup hp k hwl.sorted, findOpt_eq_lookup hp k hm.sorted,
      hcut.lookup_eq hp k]
    by_cases hneg : cmp k x < 0
    · rw [if_pos hneg, if_neg (by omega)]
      simp [hneg]
    · rw [if_neg hneg]
      refine lookup_eq_none.mpr fun b hb h0 => ?_
      have hbx : cmp b.1 x < 0 := (hp.neg_iff _ _).mpr (hcut.left b hb)
      exact hneg ((hp.congr_neg h0 x).mpr hbx)
  · rw [findOpt_eq_lookup hp k hwr.sorted, findOpt_eq_lookup hp k hm.sorted,
      hcut.lookup_eq hp k]
    by_cases hpos : 0 < cmp k x
    · rw [if_pos hpos, if_neg (by omega), if_neg (by omega)]
    · rw [if_neg hpos]
      refine lookup_eq_none.mpr fun b hb h0 => ?_
      have hxb : 0 < cmp b.1 x := (hp.neg_iff _ _).mp (hcut.right b hb)
      exact hpos ((hp.congr_pos h0 x).mpr hxb)

theorem filterMap_findOpt (f : κ → α → Option β) :
    ∃ m', filterMap f m = .ok m' ∧ WellFormed cmp m' ∧
      ∀ k, findOpt cmp k m' = (findOpt cmp k m).bind (f k) := by
  have hp := ho.toTotalPreorder
  obtain ⟨m', h, hw, hlist⟩ := filterMap_wellFormed hm f
  refine ⟨m', h, hw, fun k => ?_⟩
  rw [findOpt_eq_lookup hp k hw.sorted, findOpt_eq_lookup hp k hm.sorted, hlist,
    lookup_filterMapVal ho hm.sorted]

theorem filter_findOpt (phys : PhysEq) (p : κ → α → Bool) :
    ∃ m', filter phys p m = .ok m' ∧ WellFormed cmp m' ∧
      ∀ k, findOpt cmp k m' = (findOpt cmp k m).filter (p k) := by
  have hp := ho.toTotalPreorder
  obtain ⟨m', h, hw, hlist⟩ := filter_wellFormed hm phys p
  refine ⟨m', h, hw, fun k => ?_⟩
  rw [findOpt_eq_lookup hp k hw.sorted, findOpt_eq_lookup hp k hm.sorted, hlist,
    lookup_filterMapVal ho hm.sorted]
  cases lookup cmp k m.toList with
  | none => rfl
  | some d => simp [keepIf, Option.filter]

end

/-! ## Combining two maps -/

/-- A pure function that writes down the calls made of it. -/
def logged (g : κ → Option α → Option β → Option γ) (k : κ) (a : Option α) (b : Option β)
    (log : List (κ × (Option α × Option β))) :
    Option γ × List (κ × (Option α × Option β)) := (g k a b, (k, (a, b)) :: log)

theorem runCalls_logged (g : κ → Option α → Option β → Option γ) :
    ∀ (calls log : List (κ × (Option α × Option β))),
      runCalls (logged g) calls log = (filterMapVal (fun k c => g k c.1 c.2) calls, calls ++ log)
  | [], log => rfl
  | (k, (a, b)) :: calls, log => by
    rw [runCalls, runCalls_logged g calls log]
    simp only [logged, filterMapVal, filterMap_cons, cons_append]
    cases g k a b <;> simp

/-- The joint listing of two maps, read with `find_opt`. -/
theorem isZip_mem (ho : TotalOrder cmp) {m2 : T κ β} (hm1 : WellFormed cmp m1)
    (hm2 : WellFormed cmp m2) {calls : List (κ × (Option α × Option β))}
    (hz : IsZip cmp m1.toList m2.toList calls) (k : κ) (a : Option α) (b : Option β) :
    (k, (a, b)) ∈ calls ↔ (a.isSome ∨ b.isSome) ∧ a = findOpt cmp k m1 ∧
      b = findOpt cmp k m2 := by
  have hp := ho.toTotalPreorder
  have hv := hz.values k
  rw [← findOpt_eq_lookup hp k hm1.sorted, ← findOpt_eq_lookup hp k hm2.sorted] at hv
  constructor
  · intro hmem
    rw [lookup_of_mem hp hz.sorted hmem] at hv
    obtain ⟨hsome, heq⟩ := zipVal_eq_some.mp hv.symm
    cases heq
    exact ⟨hsome, rfl, rfl⟩
  · rintro ⟨hsome, rfl, rfl⟩
    rw [zipVal_eq_some.mpr ⟨hsome, rfl⟩] at hv
    obtain ⟨v, hv0, hmem⟩ := mem_of_lookup hv
    obtain rfl := ho.eq_of_zero _ _ hv0
    exact hmem

theorem merge_findOpt (ho : TotalOrder cmp) {m2 : T κ β} (hm1 : WellFormed cmp m1)
    (hm2 : WellFormed cmp m2) (g : κ → Option α → Option β → Option γ) :
    ∃ m calls, merge cmp (logged g) m1 m2 [] = .ok (m, calls) ∧ WellFormed cmp m ∧
      Sorted cmp calls ∧
      (∀ k a b, (k, (a, b)) ∈ calls ↔ (a.isSome ∨ b.isSome) ∧ a = findOpt cmp k m1 ∧
        b = findOpt cmp k m2) ∧
      ∀ k, findOpt cmp k m = if (findOpt cmp k m1).isSome ∨ (findOpt cmp k m2).isSome
        then g k (findOpt cmp k m1) (findOpt cmp k m2) else none := by
  have hp := ho.toTotalPreorder
  obtain ⟨m, calls, h, hw, hz, hl⟩ := merge_wellFormed hp hm1 hm2 (logged g) []
  rw [runCalls_logged] at h hl
  rw [append_nil] at h
  refine ⟨m, calls, h, hw, hz.sorted, isZip_mem ho hm1 hm2 hz, fun k => ?_⟩
  rw [findOpt_eq_lookup hp k hw.sorted, hl, lookup_filterMapVal ho hz.sorted, hz.values k,
    ← findOpt_eq_lookup hp k hm1.sorted, ← findOpt_eq_lookup hp k hm2.sorted]
  cases findOpt cmp k m1 <;> cases findOpt cmp k m2 <;> simp [zipVal]

theorem union_findOpt (ho : TotalOrder cmp) {m2 : T κ α} (hm1 : WellFormed cmp m1)
    (hm2 : WellFormed cmp m2) (f : κ → α → α → Option α) :
    ∃ m, union cmp f m1 m2 = .ok m ∧ WellFormed cmp m ∧
      ∀ k, findOpt cmp k m = match findOpt cmp k m1, findOpt cmp k m2 with
        | some d1, some d2 => f k d1 d2
        | some d1, none => some d1
        | none, d2 => d2 := by
  have hp := ho.toTotalPreorder
  obtain ⟨m, calls, h, hw, hz, hl⟩ := union_wellFormed hp hm1 hm2 f
  refine ⟨m, h, hw, fun k => ?_⟩
  rw [findOpt_eq_lookup hp k hw.sorted, hl, lookup_filterMapVal ho hz.sorted, hz.values k,
    ← findOpt_eq_lookup hp k hm1.sorted, ← findOpt_eq_lookup hp k hm2.sorted]
  cases findOpt cmp k m1 <;> cases findOpt cmp k m2 <;> simp [zipVal, unionVal]

/-! ## Traversals -/

namespace Enumeration

/-- The bindings still to come, in the order of the traversal to the right. -/
def toList : Enumeration κ α → List (κ × α)
  | done => []
  | more v d t e => (v, d) :: (t.toList ++ e.toList)

/-- The bindings still to come, in the order of the traversal to the left. -/
def toRevList : Enumeration κ α → List (κ × α)
  | done => []
  | more v d t e => (v, d) :: (t.toList.reverse ++ e.toRevList)

end Enumeration

theorem toList_consEnum : ∀ (m : T κ α) (e : Enumeration κ α),
    (consEnum m e).toList = m.toList ++ e.toList
  | .empty, e => rfl
  | .node l (v, d) r h, e => by
    rw [consEnum, toList_consEnum l]
    simp [toList, Avl.Tree.toList]

theorem toRevList_snocEnum : ∀ (m : T κ α) (e : Enumeration κ α),
    (snocEnum m e).toRevList = m.toList.reverse ++ e.toRevList
  | .empty, e => rfl
  | .node l (v, d) r h, e => by
    rw [snocEnum, toRevList_snocEnum r]
    simp [toRevList, Avl.Tree.toList]

/-- Forcing a sequence `n` times yields the first `n` bindings of its enumeration. -/
theorem seqTake_eq : ∀ (n : Nat) (c : Enumeration κ α),
    seqTake seqOfEnum n c = c.toList.take n
  | 0, c => by simp [seqTake]
  | n + 1, .done => rfl
  | n + 1, .more v d t e => by
    simp [seqTake, seqOfEnum, seqTake_eq n, toList_consEnum, toList]

theorem revSeqTake_eq : ∀ (n : Nat) (c : Enumeration κ α),
    seqTake revSeqOfEnum n c = c.toRevList.take n
  | 0, c => by simp [seqTake]
  | n + 1, .done => rfl
  | n + 1, .more v d t e => by
    simp [seqTake, revSeqOfEnum, revSeqTake_eq n, toRevList_snocEnum, toRevList]

theorem toSeq_take (m : T κ α) (n : Nat) :
    seqTake seqOfEnum n (toSeq m) = (bindings m).take n := by
  rw [seqTake_eq, toSeq, toList_consEnum, bindings_eq]
  simp [toList]

theorem toRevSeq_take (m : T κ α) (n : Nat) :
    seqTake revSeqOfEnum n (toRevSeq m) = (bindings m).reverse.take n := by
  rw [revSeqTake_eq, toRevSeq, toRevList_snocEnum, bindings_eq]
  simp [toRevList]

theorem toList_toSeqFromAux (ho : TotalPreorder cmp) (low : κ) : ∀ (m : T κ α)
    (c : Enumeration κ α), Sorted cmp m.toList →
      (toSeqFromAux cmp low m c).toList
        = (m.toList.filter fun b => decide (0 ≤ cmp b.1 low)) ++ c.toList
  | .empty, c, _ => rfl
  | .node l (v, d) r h, c, hs => by
    obtain ⟨hl, hr, hlv, hvr⟩ := sorted_node hs
    -- when the root is not below `low`, neither is anything to its right
    have habove : 0 ≤ cmp v low → r.toList.filter (fun b => decide (0 ≤ cmp b.1 low)) =
        r.toList := by
      intro hv
      refine filter_eq_self.mpr fun b hb => ?_
      have h1 := ho.lt_of_le_of_lt (ho.le_symm hv) (hvr b hb)
      have h2 := (ho.neg_iff _ _).mp h1
      simp only [decide_eq_true_eq]
      omega
    -- when it is not above `low`, everything to its left is below
    have hbelow : cmp v low ≤ 0 → l.toList.filter (fun b => decide (0 ≤ cmp b.1 low)) = [] := by
      intro hv
      refine filter_eq_nil_iff.mpr fun b hb => ?_
      have := ho.lt_of_lt_of_le (hlv b hb) hv
      simp only [decide_eq_true_eq]
      omega
    simp only [toSeqFromAux, Avl.Tree.toList, filter_append, filter_cons]
    by_cases h0 : cmp v low = 0
    · rw [if_pos h0, hbelow (by omega), habove (by omega), if_pos (by simp [h0])]
      simp [toList]
    · rw [if_neg h0]
      by_cases hneg : cmp v low < 0
      · rw [if_pos hneg, toList_toSeqFromAux ho low r c hr, hbelow (by omega),
          if_neg (by simpa using hneg)]
        simp
      · rw [if_neg hneg, toList_toSeqFromAux ho low l _ hl, habove (by omega),
          if_pos (by simp only [decide_eq_true_eq]; omega)]
        simp [toList]

theorem toSeqFrom_take (ho : TotalPreorder cmp) (low : κ) (hm : WellFormed cmp m) (n : Nat) :
    seqTake seqOfEnum n (toSeqFrom cmp low m)
      = ((bindings m).filter fun b => decide (0 ≤ cmp b.1 low)).take n := by
  rw [seqTake_eq, toSeqFrom, toList_toSeqFromAux ho low m _ hm.sorted, bindings_eq]
  simp [toList]

/-! ## Comparisons -/

/-- The lexicographic comparison of two association lists. -/
def compareBindings (cmp : κ → κ → Int) (cmpd : α → α → Int) :
    List (κ × α) → List (κ × α) → Int
  | [], [] => 0
  | [], _ :: _ => -1
  | _ :: _, [] => 1
  | (v1, d1) :: xs, (v2, d2) :: ys =>
    if cmp v1 v2 ≠ 0 then cmp v1 v2
    else if cmpd d1 d2 ≠ 0 then cmpd d1 d2
    else compareBindings cmp cmpd xs ys

theorem compareAux_eq (cmpd : α → α → Int) : ∀ (e1 e2 : Enumeration κ α),
    compareAux cmp cmpd e1 e2 = compareBindings cmp cmpd e1.toList e2.toList
  | .done, .done => by simp [compareAux, toList, compareBindings]
  | .done, .more v2 d2 r2 e2 => by simp [compareAux, toList, compareBindings]
  | .more v1 d1 r1 e1, .done => by simp [compareAux, toList, compareBindings]
  | .more v1 d1 r1 e1, .more v2 d2 r2 e2 => by
    rw [compareAux, compareAux_eq cmpd (consEnum r1 e1) (consEnum r2 e2), toList_consEnum,
      toList_consEnum]
    rfl
termination_by e1 => e1.size
decreasing_by simp only [size_consEnum, size]; omega

theorem compare_eq (cmpd : α → α → Int) (m1 m2 : T κ α) :
    compare cmp cmpd m1 m2 = compareBindings cmp cmpd (bindings m1) (bindings m2) := by
  rw [compare, compareAux_eq, toList_consEnum, toList_consEnum, bindings_eq, bindings_eq]
  simp [toList]

theorem equalAux_iff (eqd : α → α → Bool) : ∀ (e1 e2 : Enumeration κ α),
    equalAux cmp eqd e1 e2 = true ↔
      List.Forall₂ (fun a b => cmp a.1 b.1 = 0 ∧ eqd a.2 b.2 = true) e1.toList e2.toList
  | .done, .done => by simp [equalAux, toList]
  | .done, .more v2 d2 r2 e2 => ⟨fun h => by simp [equalAux] at h, fun h => by cases h⟩
  | .more v1 d1 r1 e1, .done => ⟨fun h => by simp [equalAux] at h, fun h => by cases h⟩
  | .more v1 d1 r1 e1, .more v2 d2 r2 e2 => by
    rw [equalAux, Bool.and_eq_true, equalAux_iff eqd (consEnum r1 e1) (consEnum r2 e2),
      toList_consEnum, toList_consEnum]
    simp [toList]
termination_by e1 => e1.size
decreasing_by simp only [size_consEnum, size]; omega

theorem equal_iff (ho : TotalOrder cmp) (eqd : α → α → Bool) (m1 m2 : T κ α) :
    equal cmp eqd m1 m2 = true ↔
      List.Forall₂ (fun a b => a.1 = b.1 ∧ eqd a.2 b.2 = true) (bindings m1) (bindings m2) := by
  have hkey : ∀ a b : κ × α, (cmp a.1 b.1 = 0 ∧ eqd a.2 b.2 = true) ↔
      (a.1 = b.1 ∧ eqd a.2 b.2 = true) := by
    intro a b
    constructor
    · rintro ⟨h0, he⟩
      exact ⟨ho.eq_of_zero _ _ h0, he⟩
    · rintro ⟨hk, he⟩
      exact ⟨by rw [hk]; exact ho.self _, he⟩
  rw [equal, equalAux_iff, toList_consEnum, toList_consEnum, bindings_eq, bindings_eq]
  simp only [toList, append_nil, hkey]

/--
**`Map.Make` refines finite maps.** On well-formed maps every operation succeeds and returns the
map of the finite-map operation; `merge` calls its function once for each key of either map; the
traversals, `compare` and `equal` are those of the sorted association list.
-/
theorem refines_finite_map (ho : TotalOrder cmp) :
    (∀ {α : Type} {m : T κ α}, WellFormed cmp m → ∀ (phys : PhysEq) (x : κ) (d : α),
      ∃ m', add cmp phys x d m = .ok m' ∧ WellFormed cmp m' ∧ findOpt cmp x m' = some d ∧
        ∀ k, k ≠ x → findOpt cmp k m' = findOpt cmp k m) ∧
    (∀ {α : Type} {m : T κ α}, WellFormed cmp m →
      ∀ (phys : PhysEq) (x : κ) (f : Option α → Option α),
      ∃ m', update cmp phys x f m = .ok m' ∧ WellFormed cmp m' ∧
        findOpt cmp x m' = f (findOpt cmp x m) ∧
        ∀ k, k ≠ x → findOpt cmp k m' = findOpt cmp k m) ∧
    (∀ {α : Type} {m : T κ α}, WellFormed cmp m → ∀ (phys : PhysEq) (x : κ),
      ∃ m', remove cmp phys x m = .ok m' ∧ WellFormed cmp m' ∧ findOpt cmp x m' = none ∧
        ∀ k, k ≠ x → findOpt cmp k m' = findOpt cmp k m) ∧
    (∀ {α β γ : Type} {m1 : T κ α} {m2 : T κ β}, WellFormed cmp m1 → WellFormed cmp m2 →
      ∀ (g : κ → Option α → Option β → Option γ),
      ∃ m calls, merge cmp (logged g) m1 m2 [] = .ok (m, calls) ∧ WellFormed cmp m ∧
        Sorted cmp calls ∧
        (∀ k a b, (k, (a, b)) ∈ calls ↔ (a.isSome ∨ b.isSome) ∧ a = findOpt cmp k m1 ∧
          b = findOpt cmp k m2) ∧
        ∀ k, findOpt cmp k m = if (findOpt cmp k m1).isSome ∨ (findOpt cmp k m2).isSome
          then g k (findOpt cmp k m1) (findOpt cmp k m2) else none) ∧
    (∀ {α : Type} {m1 m2 : T κ α}, WellFormed cmp m1 → WellFormed cmp m2 →
      ∀ (f : κ → α → α → Option α),
      ∃ m, union cmp f m1 m2 = .ok m ∧ WellFormed cmp m ∧
        ∀ k, findOpt cmp k m = match findOpt cmp k m1, findOpt cmp k m2 with
          | some d1, some d2 => f k d1 d2
          | some d1, none => some d1
          | none, d2 => d2) ∧
    (∀ {α : Type} {m : T κ α}, WellFormed cmp m → ∀ (phys : PhysEq) (p : κ → α → Bool),
      ∃ m', filter phys p m = .ok m' ∧ WellFormed cmp m' ∧
        ∀ k, findOpt cmp k m' = (findOpt cmp k m).filter (p k)) ∧
    (∀ {α β : Type} {m : T κ α}, WellFormed cmp m → ∀ (f : κ → α → Option β),
      ∃ m', filterMap f m = .ok m' ∧ WellFormed cmp m' ∧
        ∀ k, findOpt cmp k m' = (findOpt cmp k m).bind (f k)) ∧
    (∀ {α : Type} {m : T κ α}, WellFormed cmp m → ∀ (x : κ),
      ∃ l r, split cmp x m = .ok (l, findOpt cmp x m, r) ∧ WellFormed cmp l ∧ WellFormed cmp r ∧
        (∀ k, findOpt cmp k l = if cmp k x < 0 then findOpt cmp k m else none) ∧
        ∀ k, findOpt cmp k r = if 0 < cmp k x then findOpt cmp k m else none) ∧
    (∀ {α : Type} {m : T κ α}, WellFormed cmp m →
      Sorted cmp (bindings m) ∧ (∀ k d, (k, d) ∈ bindings m ↔ findOpt cmp k m = some d) ∧
      (∀ n, seqTake seqOfEnum n (toSeq m) = (bindings m).take n) ∧
      (∀ n, seqTake revSeqOfEnum n (toRevSeq m) = (bindings m).reverse.take n) ∧
      ∀ low n, seqTake seqOfEnum n (toSeqFrom cmp low m)
        = ((bindings m).filter fun b => decide (0 ≤ cmp b.1 low)).take n) ∧
    (∀ {α : Type} {m1 m2 : T κ α}, WellFormed cmp m1 → WellFormed cmp m2 →
      (∀ cmpd, compare cmp cmpd m1 m2
        = compareBindings cmp cmpd (bindings m1) (bindings m2)) ∧
      ∀ eqd, equal cmp eqd m1 m2 = true ↔
        List.Forall₂ (fun a b => a.1 = b.1 ∧ eqd a.2 b.2 = true) (bindings m1)
          (bindings m2)) := by
  refine ⟨add_findOpt ho, update_findOpt ho, remove_findOpt ho, merge_findOpt ho,
    union_findOpt ho, filter_findOpt ho, filterMap_findOpt ho, split_findOpt ho, ?_, ?_⟩
  · intro α m hm
    obtain ⟨hs, hmem⟩ := bindings_spec ho hm
    exact ⟨hs, hmem, toSeq_take m, toRevSeq_take m, fun low n =>
      toSeqFrom_take ho.toTotalPreorder low hm n⟩
  · intro α m1 m2 _ _
    exact ⟨fun cmpd => compare_eq cmpd m1 m2, fun eqd => equal_iff ho eqd m1 m2⟩

theorem refines_finite_map_int :
    ∃ m', add intCompare .never 3 "c" (singleton 1 "a") = .ok m' ∧
      findOpt intCompare 3 m' = some "c" ∧ findOpt intCompare 1 m' = some "a" := by
  obtain ⟨hadd, -⟩ := refines_finite_map totalOrder_intCompare
  obtain ⟨m', h, -, hx, hk⟩ := hadd (wellFormed_singleton 1 "a") .never 3 "c"
  exact ⟨m', h, hx, by rw [hk 1 (by decide)]; rfl⟩

end TravLang.Map
