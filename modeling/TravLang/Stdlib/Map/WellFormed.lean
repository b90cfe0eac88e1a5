import TravLang.Stdlib.Map.Basic
import TravLang.Lib.SortedAssoc

/-!
# The representation invariant of `Map.Make`

A map is well formed when its keys strictly increase from left to right, every node stores its
real height, and the heights of two siblings differ by at most two.

Every function of the module keeps this, and on well-formed arguments none of them raises. The
two halves are proved separately: balance does not depend on the keys (`*_grows`,
`*_balanced`), and the order of the keys follows from what the functions do to the list of
bindings (`*_edit`, `*_toList`), which `Stdlib/Map/Refinement.lean` uses again.
-/

namespace TravLang.Map

open List Avl.Tree Result
open Avl (Grows)
open SortedAssoc

variable {κ α β γ σ : Type} {cmp : κ → κ → Int} {h h1 h2 : Nat} {l r m m' l1 r1 s1 : T κ α}
  {b : κ × α} {f : Option α → Option α} {x v v1 v2 : κ} {phys : PhysEq} {d d1 : α}
  {s2 l2 r2 : T κ β}

/-- The invariant of the representation. -/
structure WellFormed (cmp : κ → κ → Int) (m : T κ α) : Prop where
  sorted : Sorted cmp m.toList
  balanced : m.Balanced

theorem wellFormed_empty : WellFormed cmp (.empty : T κ α) := ⟨List.Pairwise.nil, trivial⟩

/-- `Int.compare`. -/
def intCompare (x y : Int) : Int := if x < y then -1 else if x > y then 1 else 0

theorem totalOrder_intCompare : TotalOrder intCompare where
  neg_iff x y := by unfold intCompare; split_ifs <;> omega
  trans x y z := by unfold intCompare; split_ifs <;> omega
  eq_of_zero x y h := by unfold intCompare at h; split_ifs at h <;> omega

/-- What a sorted node says about its subtrees and about its key. -/
theorem sorted_node (hs : Sorted cmp (node l b r h).toList) :
    Sorted cmp l.toList ∧ Sorted cmp r.toList ∧ (∀ a ∈ l.toList, cmp a.1 b.1 < 0) ∧
      ∀ a ∈ r.toList, cmp b.1 a.1 < 0 := by
  obtain ⟨hl, hbr, hlr⟩ := sorted_append.mp hs
  obtain ⟨hb, hr⟩ := pairwise_cons.mp hbr
  exact ⟨hl, hr, fun a ha => hlr a ha b mem_cons_self, hb⟩

theorem WellFormed.node (hm : WellFormed cmp (.node l b r h)) :
    WellFormed cmp l ∧ WellFormed cmp r := by
  obtain ⟨hl, hr, -, -⟩ := sorted_node hm.sorted
  obtain ⟨hbl, hbr, -⟩ := balanced_node.mp hm.balanced
  exact ⟨⟨hl, hbl⟩, ⟨hr, hbr⟩⟩

/-! ## The bindings after an update

`add`, `remove` and `update` go down to one key and rebuild the path to it. On the list of
bindings this is an edit at that key.
-/

section

variable {β ε : Type} {e : Avl.Errors ε} {phys : PhysEq} {k : Nat} {l r l' r' t : Avl.Tree β}
  {b : β}

/-- A node whose subtree has come back: it is kept if nothing has changed. -/
theorem rebuilt_left (h : (if phys.same 0 l l' then (return .node l b r k : Except ε (Avl.Tree β))
    else Avl.bal e l' b r) = .ok t) : t.toList = l'.toList ++ b :: r.toList := by
  split at h
  · next hsame =>
    cases h
    rw [← PhysEq.eq_of_same hsame, toList]
  · exact Avl.bal_toList h

theorem rebuilt_right (h : (if phys.same 0 r r' then (return .node l b r k : Except ε (Avl.Tree β))
    else Avl.bal e l b r') = .ok t) : t.toList = l.toList ++ b :: r'.toList := by
  split at h
  · next hsame =>
    cases h
    rw [← PhysEq.eq_of_same hsame, toList]
  · exact Avl.bal_toList h

/-- `f` goes down by the signs of `c`, and rebuilds the nodes that it has passed. -/
def Descends (e : Avl.Errors ε) (c : β → Int) (f : PhysEq → Avl.Tree β → Except ε (Avl.Tree β)) :
    Prop :=
  ∀ phys l b r h, c b ≠ 0 → f phys (.node l b r h) =
    if c b < 0 then do
      let ll ← f (phys.sub 0) l
      if phys.same 0 l ll then return .node l b r h else Avl.bal e ll b r
    else do
      let rr ← f (phys.sub 1) r
      if phys.same 0 r rr then return .node l b r h else Avl.bal e l b rr

/-- `ys` is `xs` with a list instead of the element at the place of `c`. -/
def Edited (c : β → Int) (Q : Option β → List β → Prop) (xs ys : List β) : Prop :=
  ∃ L m R o, xs = L ++ m.toList ++ R ∧ ys = L ++ o ++ R ∧ (∀ b ∈ m, c b = 0) ∧ Q m o ∧
    (Avl.Ordered c xs → (∀ b ∈ L, 0 < c b) ∧ ∀ b ∈ R, c b < 0)

variable {c : β → Int} {f : PhysEq → Avl.Tree β → Except ε (Avl.Tree β)}
  {Q : Option β → List β → Prop}

theorem Descends.edited (hf : Descends e c f)
    (hempty : ∀ {phys t}, f phys .empty = .ok t → Q none t.toList)
    (hroot : ∀ {phys l b r h t}, c b = 0 → f phys (.node l b r h) = .ok t →
      ∃ o, t.toList = l.toList ++ o ++ r.toList ∧ Q (some b) o) :
    ∀ {phys : PhysEq} {t t' : Avl.Tree β}, f phys t = .ok t' → Edited c Q t.toList t'.toList
  | phys, .empty, t', h => ⟨[], none, [], t'.toList, rfl, by simp, by simp, hempty h, by simp⟩
  | phys, .node l b r k, t', h => by
    by_cases h0 : c b = 0
    · obtain ⟨o, ho, hQ⟩ := hroot h0 h
      refine ⟨_, some b, _, o, by simp [toList], ho, by simpa using h0, hQ, fun hs => ?_⟩
      obtain ⟨-, -, hlow, hhigh⟩ := Avl.Ordered.node hs
      exact ⟨hlow (by omega), hhigh (by omega)⟩
    · rw [hf _ _ _ _ _ h0] at h
      split at h
      · next hneg =>
        obtain ⟨ll, hll, h⟩ := bind_eq_ok.mp h
        obtain ⟨L, m, R, o, hl, hl', hm, hQ, hs⟩ := hf.edited hempty hroot hll
        refine ⟨L, m, R ++ b :: r.toList, o, by simp [toList, hl], by simp [rebuilt_left h, hl'],
          hm,
          hQ, fun hs' => ?_⟩
        obtain ⟨hsl, -, -, hhigh⟩ := Avl.Ordered.node hs'
        rw [forall_mem_append, forall_mem_cons]
        exact ⟨(hs hsl).1, (hs hsl).2, hneg, hhigh (by omega)⟩
      · next hneg =>
        obtain ⟨rr, hrr, h⟩ := bind_eq_ok.mp h
        obtain ⟨L, m, R, o, hr, hr', hm, hQ, hs⟩ := hf.edited hempty hroot hrr
        refine ⟨l.toList ++ b :: L, m, R, o, by simp [toList, hr], by simp [rebuilt_right h, hr'],
          hm,
          hQ, fun hs' => ?_⟩
        obtain ⟨-, hsr, hlow, -⟩ := Avl.Ordered.node hs'
        rw [forall_mem_append, forall_mem_cons]
        exact ⟨⟨hlow (by omega), by omega, (hs hsr).1⟩, (hs hsr).2⟩

theorem Descends.grows (hf : Descends e c f) (hempty : ∀ phys, Grows (f phys .empty) 0 1)
    (hroot : ∀ phys l b r h, c b = 0 → (node l b r h).Balanced →
      Grows (f phys (.node l b r h)) (h - 1) (h + 1)) :
    ∀ (phys : PhysEq) {t : Avl.Tree β}, t.Balanced → Grows (f phys t) (t.height - 1) (t.height + 1)
  | phys, .empty, _ => hempty phys
  | phys, .node l b r h, hb => by
    obtain ⟨hl, hr, hk, h1, h2⟩ := balanced_node.mp hb
    have hself : Grows (.ok (.node l b r h) : Except ε (Avl.Tree β)) (h - 1) (h + 1) :=
      ⟨_, rfl, hb, by simp, by simp⟩
    rw [height_node]
    by_cases h0 : c b = 0
    · exact hroot phys l b r h h0 hb
    · rw [hf _ _ _ _ _ h0]
      split
      · refine (hf.grows hempty hroot (phys.sub 0) hl).bind fun ll hbl hlo hhi => ?_
        split
        · exact hself
        · exact Avl.bal_grows hbl hr (by omega)
      · refine (hf.grows hempty hroot (phys.sub 1) hr).bind fun rr hbr hlo hhi => ?_
        split
        · exact hself
        · exact Avl.bal_grows hl hbr (by omega)

end

theorem descends_update :
    Descends errors (fun b => cmp x b.1) fun phys => update cmp phys x f := by
  intro phys l b r h h0
  dsimp only
  rw [update, if_neg h0]
  rfl

/-- The binding at the key after an update, which need not be for an order. -/
theorem update_edited (h : update cmp phys x f m = .ok m') :
    Edited (fun b => cmp x b.1) (fun a o => ∃ a' : Option (κ × α), o = a'.toList ∧
      a'.map Prod.snd = f (a.map Prod.snd) ∧ ∀ b ∈ a', b.1 = x ∨ b ∈ a) m.toList m'.toList := by
  refine descends_update.edited (fun {phys t} h => ?_) (fun {phys l b r k t} h0 h => ?_) h
  · rw [update] at h
    cases hf : f none with
    | none =>
      rw [hf] at h
      cases h
      exact ⟨none, rfl, hf.symm, by simp⟩
    | some data =>
      rw [hf] at h
      cases h
      exact ⟨some (x, data), rfl, hf.symm, by simp⟩
  · rw [update, if_pos h0] at h
    cases hf : f (some b.2) with
    | none =>
      rw [hf] at h
      exact ⟨[], by simp [Avl.glue_toList h], none, rfl, hf.symm, by simp⟩
    | some data =>
      simp only [hf] at h
      split at h
      · next hsame =>
        cases h
        obtain rfl := PhysEq.eq_of_same hsame
        exact ⟨[b], by simp [toList], some b, rfl, hf.symm, by simp⟩
      · cases h
        exact ⟨[(x, data)], by simp [toList], some (x, data), rfl, hf.symm, by simp⟩

theorem ordered_of_sorted {xs : List (κ × α)} (ho : TotalPreorder cmp) (hs : Sorted cmp xs)
    (x : κ) :
    Avl.Ordered (fun b => cmp x b.1) xs :=
  hs.imp fun hab => ho.between hab

theorem update_edit (ho : TotalPreorder cmp) (hs : Sorted cmp m.toList)
    (h : update cmp phys x f m = .ok m') : Edit cmp x f m.toList m'.toList := by
  obtain ⟨L, a, R, _, hm, hm', ha, ⟨a', rfl, hf, ha'⟩, hsides⟩ := update_edited h
  obtain ⟨hL, hR⟩ := hsides (ordered_of_sorted ho hs x)
  refine ⟨L, a, R, a', ⟨hm, hL, ha, hR⟩, ⟨hm', hL, fun b hb => ?_, hR⟩, hf⟩
  rcases ha' b hb with hx | hb
  · rw [hx]
    exact ho.self x
  · exact ha b hb

/-- `add` is the update that ignores the old value. -/
theorem add_eq_update (x : κ) (data : α) : ∀ (m : T κ α) (phys : PhysEq),
    add cmp phys x data m = update cmp phys x (fun _ => some data) m
  | .empty, phys => rfl
  | .node l (v, d) r h, phys => by
    rw [add, update, add_eq_update x data l, add_eq_update x data r]

/-- `remove` is the update that leaves no value. -/
theorem remove_eq_update (x : κ) : ∀ (m : T κ α) (phys : PhysEq),
    remove cmp phys x m = update cmp phys x (fun _ => none) m
  | .empty, phys => rfl
  | .node l (v, d) r h, phys => by
    rw [remove, update, remove_eq_update x l, remove_eq_update x r]

/-! ## Balance after an update -/

theorem update_grows (cmp : κ → κ → Int) (x : κ) (f : Option α → Option α) (phys : PhysEq)
    (hm : m.Balanced) : Grows (update cmp phys x f m) (m.height - 1) (m.height + 1) := by
  refine descends_update.grows (fun phys => ?_) (fun phys l b r h h0 hb => ?_) phys hm
  · rw [update]
    cases f none with
    | none => exact ⟨_, rfl, trivial, by simp, by simp⟩
    | some data => exact ⟨_, rfl, Avl.balanced_singleton (x, data), by simp, by simp⟩
  · obtain ⟨hl, hr, hk, h1, h2⟩ := balanced_node.mp hb
    rw [update, if_pos h0]
    cases f (some b.2) with
    | none => exact (Avl.glue_grows hl hr h1 h2).mono (by omega) (by omega)
    | some data =>
      simp only
      split
      · exact ⟨_, rfl, hb, by simp, by simp⟩
      · exact ⟨_, rfl, balanced_node.mpr ⟨hl, hr, hk, h1, h2⟩, by simp, by simp⟩

/-- **`update` keeps the invariant and does not raise.** -/
theorem update_wellFormed (ho : TotalPreorder cmp) (hm : WellFormed cmp m) (phys : PhysEq) (x : κ)
    (f : Option α → Option α) :
    ∃ m', update cmp phys x f m = .ok m' ∧ WellFormed cmp m' := by
  obtain ⟨m', h, hb, -⟩ := update_grows cmp x f phys hm.balanced
  exact ⟨m', h, (update_edit ho hm.sorted h).sorted ho hm.sorted, hb⟩

/-! ## Comparisons that are not orders -/

/-- What `find` returns belongs to a key that compares equal. -/
theorem mem_of_find : ∀ {m : T κ α}, find cmp x m = .ok d →
    ∃ k, (k, d) ∈ m.toList ∧ cmp x k = 0
  | .empty, h => nomatch h
  | .node l (v, d') r _, h => by
    rw [find] at h
    simp only [toList, mem_append, mem_cons]
    split at h
    · next h0 =>
      cases h
      exact ⟨v, .inr (.inl rfl), h0⟩
    · split at h
      · obtain ⟨k, hk, h0⟩ := mem_of_find h
        exact ⟨k, .inl hk, h0⟩
      · obtain ⟨k, hk, h0⟩ := mem_of_find h
        exact ⟨k, .inr (.inr hk), h0⟩

theorem error_of_find {e : Exn} : ∀ {m : T κ α}, find cmp x m = .error e → e = .notFound
  | .empty, h => by
    cases h
    rfl
  | .node l (v, d') r _, h => by
    rw [find] at h
    split at h
    · cases h
    · split at h
      · exact error_of_find h
      · exact error_of_find h

/-- `add` makes no binding but its own. -/
theorem mem_of_mem_add {data : α} (phys : PhysEq) (h : add cmp phys x data m = .ok m') :
    ∀ b ∈ m'.toList, b = (x, data) ∨ b ∈ m.toList := by
  rw [add_eq_update] at h
  obtain ⟨L, a, R, _, hm, hm', -, ⟨a', rfl, hdata, ha'⟩, -⟩ := update_edited h
  obtain ⟨c, rfl, rfl⟩ := Option.map_eq_some_iff.mp hdata
  have hc : c = (x, c.2) ∨ c ∈ a := (ha' c rfl).imp_left fun hx => Prod.ext hx rfl
  intro b hb
  simp only [hm, hm', mem_append, Option.mem_toList, Option.some.injEq, Option.mem_def] at hb hc ⊢
  grind

theorem add_balanced (cmp : κ → κ → Int) (phys : PhysEq) (x : κ) (data : α) (hm : m.Balanced) :
    ∃ m', add cmp phys x data m = .ok m' ∧ m'.Balanced := by
  obtain ⟨m', h, hb, -⟩ := update_grows cmp x (fun _ => some data) phys hm
  exact ⟨m', by rw [add_eq_update, h], hb⟩

/-! ## Cuts -/

/-- Splitting a search tree cuts its bindings. -/
theorem split_cut (ho : TotalPreorder cmp) {mid : Option (κ × α)}
    (hs : Sorted cmp m.toList) (h : Avl.split errors (fun b => cmp x b.1) m = .ok (l, mid, r)) :
    Cut cmp x m.toList l.toList mid r.toList := by
  obtain ⟨hl, hmid, hr⟩ := Avl.split_sides (ordered_of_sorted ho hs x) h
  exact ⟨Avl.split_toList h, hl, hmid, hr⟩

/-- **`split` returns the bindings below, at and above the key, as well-formed maps.** -/
theorem split_wellFormed (ho : TotalPreorder cmp) (hm : WellFormed cmp m) (x : κ) :
    ∃ l mid r, split cmp x m = .ok (l, mid.map Prod.snd, r) ∧ WellFormed cmp l ∧
      WellFormed cmp r ∧ Cut cmp x m.toList l.toList mid r.toList := by
  obtain ⟨l, mid, r, h, hbl, hbr⟩ := Avl.split_balanced (e := errors) (c := fun b => cmp x b.1)
    hm.balanced
  have hcut := split_cut ho hm.sorted h
  refine ⟨l, mid, r, ?_, ⟨hcut.sorted_left hm.sorted, hbl⟩, ⟨hcut.sorted_right hm.sorted, hbr⟩,
    hcut⟩
  simp [split, h]

/-! ## Maps over the values -/

theorem mapi_toList (f : κ → α → β) : ∀ (m : T κ α),
    (mapi f m).toList = m.toList.map fun b => (b.1, f b.1 b.2)
  | .empty => rfl
  | .node l (v, d) r h => by
    simp [mapi, toList, mapi_toList f l, mapi_toList f r]

theorem map_eq_mapi (f : α → β) : ∀ (m : T κ α), map f m = mapi (fun _ => f) m
  | .empty => rfl
  | .node l (v, d) r h => by rw [map, mapi, map_eq_mapi f l, map_eq_mapi f r]

theorem depth_mapi (f : κ → α → β) : ∀ (m : T κ α), (mapi f m).depth = m.depth
  | .empty => rfl
  | .node l (v, d) r h => by simp [mapi, depth, depth_mapi f l, depth_mapi f r]

theorem balanced_mapi (f : κ → α → β) : ∀ {m : T κ α}, m.Balanced → (mapi f m).Balanced
  | .empty, _ => trivial
  | .node l (v, d) r h, hb => by
    obtain ⟨hl, hr, hk⟩ := hb
    refine ⟨balanced_mapi f hl, balanced_mapi f hr, ?_⟩
    rw [depth_mapi, depth_mapi]
    exact hk

theorem mapi_wellFormed (hm : WellFormed cmp m) (f : κ → α → β) :
    WellFormed cmp (mapi f m) := by
  refine ⟨?_, balanced_mapi f hm.balanced⟩
  rw [mapi_toList]
  exact pairwise_map.mpr hm.sorted

/-! ## Filters -/

theorem concatOrJoin_toList {t1 t2 t : T κ α} {d : Option α} (h : concatOrJoin t1 v d t2 = .ok t) :
    t.toList = t1.toList ++ (d.map fun d => (v, d)).toList ++ t2.toList := by
  cases d with
  | none =>
    rw [Avl.concat_toList h]
    simp
  | some d =>
    rw [Avl.join_toList h]
    simp

theorem concatOrJoin_balanced {t1 t2 : T κ α} (h1 : t1.Balanced) (h2 : t2.Balanced) (v : κ)
    (d : Option α) : ∃ t, concatOrJoin t1 v d t2 = .ok t ∧ t.Balanced := by
  cases d with
  | none => exact Avl.concat_balanced h1 h2
  | some d =>
    obtain ⟨t, ht, hb, -⟩ := Avl.join_grows (e := errors) (x := (v, d)) h1 h2
    exact ⟨t, ht, hb⟩

theorem filterMap_eq {f : κ → α → Option β} :
    filterMap f (.node l (v, d) r h)
      = filterMap f l >>= fun l' => filterMap f r >>= fun r' => concatOrJoin l' v (f v d) r' := by
  rw [filterMap]
  cases f v d <;> rfl

theorem filterMap_spec (f : κ → α → Option β) : ∀ {m : T κ α}, m.Balanced →
    ∃ m', filterMap f m = .ok m' ∧ m'.Balanced ∧ m'.toList = filterMapVal f m.toList
  | .empty, _ => ⟨_, rfl, trivial, rfl⟩
  | .node l (v, d) r h, hb => by
    obtain ⟨hl, hr, -⟩ := balanced_node.mp hb
    obtain ⟨l', hl', hbl, hll⟩ := filterMap_spec f hl
    obtain ⟨r', hr', hbr, hrl⟩ := filterMap_spec f hr
    obtain ⟨t, ht, hbt⟩ := concatOrJoin_balanced hbl hbr v (f v d)
    refine ⟨t, by rw [filterMap_eq]; simp [hl', hr', ht], hbt, ?_⟩
    rw [concatOrJoin_toList ht, hll, hrl]
    simp only [filterMapVal, toList, filterMap_append, filterMap_cons]
    cases f v d <;> simp

theorem filterMap_wellFormed (hm : WellFormed cmp m) (f : κ → α → Option β) :
    ∃ m', filterMap f m = .ok m' ∧ WellFormed cmp m' ∧ m'.toList = filterMapVal f m.toList := by
  obtain ⟨m', h, hb, hlist⟩ := filterMap_spec f hm.balanced
  exact ⟨m', h, ⟨by rw [hlist]; exact sorted_filterMapVal hm.sorted, hb⟩, hlist⟩

/-- The bindings that satisfy a predicate, as an optional value for each binding. -/
def keepIf (p : κ → α → Bool) (k : κ) (d : α) : Option α := if p k d then some d else none

theorem filter_spec (p : κ → α → Bool) : ∀ (phys : PhysEq) {m : T κ α}, m.Balanced →
    ∃ m', filter phys p m = .ok m' ∧ m'.Balanced ∧ m'.toList = filterMapVal (keepIf p) m.toList
  | _, .empty, _ => ⟨_, rfl, trivial, rfl⟩
  | phys, .node l (v, d) r h, hb => by
    obtain ⟨hl, hr, -⟩ := balanced_node.mp hb
    obtain ⟨l', hl', hbl, hll⟩ := filter_spec p (phys.sub 0) hl
    obtain ⟨r', hr', hbr, hrl⟩ := filter_spec p (phys.sub 1) hr
    have hlist : filterMapVal (keepIf p) (node l (v, d) r h).toList =
        if p v d then l'.toList ++ (v, d) :: r'.toList else l'.toList ++ r'.toList := by
      rw [hll, hrl]
      simp only [filterMapVal, toList, filterMap_append, filterMap_cons, keepIf]
      cases p v d <;> rfl
    simp only [filter, hl', hr', ok_bind, hlist]
    split
    · split
      · next hsame =>
        obtain ⟨h1, h2⟩ := Bool.and_eq_true_iff.mp hsame
        exact ⟨_, rfl, hb, by rw [← PhysEq.eq_of_same h1, ← PhysEq.eq_of_same h2, toList]⟩
      · obtain ⟨t, ht, hbt, -⟩ := Avl.join_grows (e := errors) (x := (v, d)) hbl hbr
        exact ⟨t, ht, hbt, Avl.join_toList ht⟩
    · obtain ⟨t, ht, hbt⟩ := Avl.concat_balanced (e := errors) hbl hbr
      exact ⟨t, ht, hbt, Avl.concat_toList ht⟩

theorem filter_wellFormed (hm : WellFormed cmp m) (phys : PhysEq) (p : κ → α → Bool) :
    ∃ m', filter phys p m = .ok m' ∧ WellFormed cmp m' ∧
      m'.toList = filterMapVal (keepIf p) m.toList := by
  obtain ⟨m', h, hb, hlist⟩ := filter_spec p phys hm.balanced
  exact ⟨m', h, ⟨by rw [hlist]; exact sorted_filterMapVal hm.sorted, hb⟩, hlist⟩

/-- `partition` builds the trees of the two complementary `filter_map`s. -/
theorem partition_eq (p : κ → α → Bool) : ∀ {m : T κ α}, m.Balanced →
    ∃ t f, partition p m = .ok (t, f) ∧ filterMap (keepIf p) m = .ok t ∧
      filterMap (keepIf fun k d => !p k d) m = .ok f
  | .empty, _ => ⟨_, _, rfl, rfl, rfl⟩
  | .node l (v, d) r h, hb => by
    obtain ⟨hl, hr, -⟩ := balanced_node.mp hb
    obtain ⟨lt, lf, hpl, hlt, hlf⟩ := partition_eq p hl
    obtain ⟨rt, rf, hpr, hrt, hrf⟩ := partition_eq p hr
    obtain ⟨t, ht, -⟩ := filterMap_spec (keepIf p) hb
    obtain ⟨f, hf, -⟩ := filterMap_spec (keepIf fun k d => !p k d) hb
    refine ⟨t, f, ?_, ht, hf⟩
    simp only [filterMap_eq, hlt, hrt, hlf, hrf, ok_bind] at ht hf
    simp only [partition, hpl, hpr, ok_bind]
    by_cases hp : p v d = true
    · simp only [keepIf, hp, if_true, concatOrJoin, Bool.not_true, Bool.false_eq_true,
        if_false] at ht hf
      simp [hp, ht, hf]
    · simp only [keepIf, hp, if_false, concatOrJoin, Bool.not_false, if_true,
        Bool.false_eq_true] at ht hf
      simp [hp, ht, hf]

theorem partition_wellFormed (hm : WellFormed cmp m) (p : κ → α → Bool) :
    ∃ t f, partition p m = .ok (t, f) ∧ WellFormed cmp t ∧ WellFormed cmp f := by
  obtain ⟨t, f, h, ht, hf⟩ := partition_eq p hm.balanced
  obtain ⟨t', ht', hwt, -⟩ := filterMap_wellFormed hm (keepIf p)
  obtain ⟨f', hf', hwf, -⟩ := filterMap_wellFormed hm (keepIf fun k d => !p k d)
  cases ht.symm.trans ht'
  cases hf.symm.trans hf'
  exact ⟨t, f, h, hwt, hwf⟩

/-! ## `merge`

The calls of `f` made by `merge` are the joint listing of the keys of the two maps, made from the
greatest key down to the smallest.
-/

/-- The bindings made by the calls of `f`, and the state they leave. -/
def runCalls (f : κ → Option α → Option β → σ → Option γ × σ) :
    List (κ × (Option α × Option β)) → σ → List (κ × γ) × σ
  | [], st => ([], st)
  | (k, (a, b)) :: calls, st =>
    let (rest, st) := runCalls f calls st
    let (d, st) := f k a b st
    ((d.map fun d => (k, d)).toList ++ rest, st)

variable {f : κ → Option α → Option β → σ → Option γ × σ}

theorem runCalls_append :
    ∀ (xs ys : List (κ × (Option α × Option β))) (st : σ),
      runCalls f (xs ++ ys) st =
        ((runCalls f xs (runCalls f ys st).2).1 ++ (runCalls f ys st).1,
          (runCalls f xs (runCalls f ys st).2).2)
  | [], ys, st => by simp [runCalls]
  | (k, (a, b)) :: xs, ys, st => by
    simp [runCalls, runCalls_append xs ys st]

theorem runCalls_keys :
    ∀ (calls : List (κ × (Option α × Option β))) (st : σ),
      List.Sublist ((runCalls f calls st).1.map Prod.fst) (calls.map Prod.fst)
  | [], _ => List.Sublist.refl _
  | (k, (a, b)) :: calls, st => by
    have ih := runCalls_keys calls st
    simp only [runCalls, map_append, map_cons]
    cases (f k a b (runCalls f calls st).2).1 with
    | none => exact ih.cons k
    | some d => exact ih.cons_cons k

theorem sorted_runCalls
    {calls : List (κ × (Option α × Option β))} (hs : Sorted cmp calls) (st : σ) :
    Sorted cmp (runCalls f calls st).1 := by
  have hkeys : (calls.map Prod.fst).Pairwise (fun a b => cmp a b < 0) := pairwise_map.mpr hs
  exact pairwise_map.mp (hkeys.sublist (runCalls_keys calls st))

/-- What `merge` owes on `s1` and `s2`. -/
def MergeOk (cmp : κ → κ → Int) (f : κ → Option α → Option β → σ → Option γ × σ)
    (s1 : T κ α) (s2 : T κ β) : Prop :=
  ∀ st, ∃ t calls, merge cmp f s1 s2 st = .ok (t, (runCalls f calls st).2) ∧ t.Balanced ∧
    IsZip cmp s1.toList s2.toList calls ∧ t.toList = (runCalls f calls st).1

/-- One step of `merge`: the two sides of a key, and the call for the key itself. -/
theorem merge_step (ho : TotalPreorder cmp)
    {s1 l1 r1 : T κ α} {s2 l2 r2 : T κ β} {m1 : Option (κ × α)} {m2 : Option (κ × β)}
    (h1 : Cut cmp v s1.toList l1.toList m1 r1.toList)
    (h2 : Cut cmp v s2.toList l2.toList m2 r2.toList) (hm : m1.isSome ∨ m2.isSome)
    (hl : MergeOk cmp f l1 l2) (hr : MergeOk cmp f r1 r2)
    (heq : ∀ st, merge cmp f s1 s2 st = (do
      let (r, st) ← merge cmp f r1 r2 st
      let (d, st) := f v (m1.map Prod.snd) (m2.map Prod.snd) st
      let (l, st) ← merge cmp f l1 l2 st
      let t ← concatOrJoin l v d r
      return (t, st))) :
    MergeOk cmp f s1 s2 := by
  intro st
  obtain ⟨r, cr, hr, hbr, hzr, hrl⟩ := hr st
  generalize hst1 : (runCalls f cr st).2 = st1 at hr
  obtain ⟨⟨d, st2⟩, hd⟩ : ∃ p, f v (m1.map Prod.snd) (m2.map Prod.snd) st1 = p := ⟨_, rfl⟩
  obtain ⟨l, cl, hl, hbl, hzl, hll⟩ := hl st2
  obtain ⟨t, ht, hbt⟩ := concatOrJoin_balanced hbl hbr v d
  have hrun : runCalls f (cl ++ (v, (m1.map Prod.snd, m2.map Prod.snd)) :: cr) st
      = (t.toList, (runCalls f cl st2).2) := by
    rw [runCalls_append]
    simp only [runCalls, hst1, hd]
    rw [← hrl, ← hll, concatOrJoin_toList ht]
    simp
  refine ⟨t, _, ?_, hbt, hzl.node ho h1 h2 hm hzr, by rw [hrun]⟩
  rw [heq, hrun]
  simp [hr, hd, hl, ht]

/-- `merge` when the first tree leads. -/
theorem merge_left {d2 : Option β}
    (hlead : leads (.node l1 (v1, d1) r1 h1) s2 = true) (hsp : split cmp v1 s2 = .ok (l2, d2, r2))
    (st : σ) :
    merge cmp f (.node l1 (v1, d1) r1 h1) s2 st = (do
      let (r, st) ← merge cmp f r1 r2 st
      let (d, st) := f v1 (some d1) d2 st
      let (l, st) ← merge cmp f l1 l2 st
      let t ← concatOrJoin l v1 d r
      return (t, st)) := by
  rw [merge.eq_def]
  simp only [if_pos hlead]
  split
  · next he => cases hsp.symm.trans he
  · next he =>
    cases hsp.symm.trans he
    rfl

/-- `merge` when the second tree leads. -/
theorem merge_right {d2 : β}
    {d1 : Option α} (hlead : leads s1 (.node l2 (v2, d2) r2 h2) = false)
    (hsp : split cmp v2 s1 = .ok (l1, d1, r1)) (st : σ) :
    merge cmp f s1 (.node l2 (v2, d2) r2 h2) st = (do
      let (r, st) ← merge cmp f r1 r2 st
      let (d, st) := f v2 d1 (some d2) st
      let (l, st) ← merge cmp f l1 l2 st
      let t ← concatOrJoin l v2 d r
      return (t, st)) := by
  rw [merge.eq_def]
  have hneg : ¬ leads s1 (.node l2 (v2, d2) r2 h2) = true := by simp [hlead]
  cases s1 <;> simp only [if_neg hneg]
  all_goals
    split
    · next he => cases hsp.symm.trans he
    · next he =>
      cases hsp.symm.trans he
      rfl

theorem leads_of_nonempty (h : leads s1 s2 = false) (hne : s1 ≠ .empty ∨ s2 ≠ .empty) :
    ∃ l b r h2, s2 = .node l b r h2 := by
  cases s2 with
  | node l b r h2 => exact ⟨l, b, r, h2, rfl⟩
  | empty =>
    cases s1 with
    | empty => simp at hne
    | node l b r h1 => simp [leads] at h

theorem merge_ok (ho : TotalPreorder cmp) (f : κ → Option α → Option β → σ → Option γ × σ)
    (s1 : T κ α) (s2 : T κ β) (hw1 : WellFormed cmp s1) (hw2 : WellFormed cmp s2) :
    MergeOk cmp f s1 s2 := by
  induction hn : s1.size + s2.size using Nat.strongRecOn generalizing s1 s2 with
  | _ n ih =>
    by_cases hemp : s1 = .empty ∧ s2 = .empty
    · obtain ⟨rfl, rfl⟩ := hemp
      intro st
      exact ⟨.empty, [], by simp [merge, runCalls], trivial, IsZip.nil, rfl⟩
    · by_cases hlead : leads s1 s2 = true
      · cases s1 with
        | empty => simp [leads] at hlead
        | node l1 b1 r1 h1 =>
          obtain ⟨hl1, hr1⟩ := hw1.node
          obtain ⟨l2, m2, r2, hsp, hwl2, hwr2, hcut⟩ := split_wellFormed ho hw2 b1.1
          have hsize := split_size hsp
          refine merge_step ho (Cut.node ho (ho.self b1.1) hw1.sorted) hcut (Or.inl rfl)
            (ih _ ?_ l1 l2 hl1 hwl2 rfl) (ih _ ?_ r1 r2 hr1 hwr2 rfl) ?_
          · rw [← hn, size]; omega
          · rw [← hn, size]; omega
          · exact merge_left hlead hsp
      · obtain ⟨l2, b2, r2, h2, rfl⟩ := leads_of_nonempty (by simpa using hlead)
          (not_and_or.mp hemp)
        obtain ⟨hl2, hr2⟩ := hw2.node
        obtain ⟨l1, m1, r1, hsp, hwl1, hwr1, hcut⟩ := split_wellFormed ho hw1 b2.1
        have hsize := split_size hsp
        refine merge_step ho hcut (Cut.node ho (ho.self b2.1) hw2.sorted) (Or.inr rfl)
          (ih _ ?_ l1 l2 hwl1 hl2 rfl) (ih _ ?_ r1 r2 hwr1 hr2 rfl) ?_
        · rw [← hn, size]; omega
        · rw [← hn, size]; omega
        · exact merge_right (by simpa using hlead) hsp

/-- **`merge` builds a well-formed map from one call of `f` for each key.** -/
theorem merge_wellFormed (ho : TotalPreorder cmp) (hw1 : WellFormed cmp s1)
    (hw2 : WellFormed cmp s2) (f : κ → Option α → Option β → σ → Option γ × σ) (st : σ) :
    ∃ t calls, merge cmp f s1 s2 st = .ok (t, (runCalls f calls st).2) ∧ WellFormed cmp t ∧
      IsZip cmp s1.toList s2.toList calls ∧ t.toList = (runCalls f calls st).1 := by
  obtain ⟨t, calls, ht, hb, hz, hl⟩ := merge_ok ho f s1 s2 hw1 hw2 st
  refine ⟨t, calls, ht, ⟨?_, hb⟩, hz, hl⟩
  rw [hl]
  exact sorted_runCalls hz.sorted st

/-! ## `union` -/

/-- What `union` binds to a key, from its two optional values. -/
def unionVal (f : κ → α → α → Option α) (k : κ) : Option α × Option α → Option α
  | (some d1, some d2) => f k d1 d2
  | (some d1, none) => some d1
  | (none, d2) => d2

theorem filterMapVal_map_self {f : κ → β → Option α} {g : α → β} (hf : ∀ k d, f k (g d) = some d)
    (xs : List (κ × α)) : filterMapVal f (xs.map fun b => (b.1, g b.2)) = xs := by
  induction xs with
  | nil => rfl
  | cons b xs ih =>
    simp only [filterMapVal, map_cons, filterMap_cons, hf, Option.map_some] at ih ⊢
    rw [ih]

/-- What `union` owes on `s1` and `s2`. -/
def UnionOk (cmp : κ → κ → Int) (f : κ → α → α → Option α) (s1 s2 : T κ α) : Prop :=
  ∃ t calls, union cmp f s1 s2 = .ok t ∧ t.Balanced ∧ IsZip cmp s1.toList s2.toList calls ∧
    t.toList = filterMapVal (unionVal f) calls

variable {f : κ → α → α → Option α} {d2 : α}

/-- One step of `union`: the two sides of a key, and the value of the key itself. -/
theorem union_step (ho : TotalPreorder cmp)
    {s1 l1 r1 s2 l2 r2 : T κ α} {m1 m2 : Option (κ × α)}
    (h1 : Cut cmp v s1.toList l1.toList m1 r1.toList)
    (h2 : Cut cmp v s2.toList l2.toList m2 r2.toList) (hm : m1.isSome ∨ m2.isSome)
    (hl : UnionOk cmp f l1 l2) (hr : UnionOk cmp f r1 r2)
    (heq : union cmp f s1 s2 = (do
      let r ← union cmp f r1 r2
      let l ← union cmp f l1 l2
      concatOrJoin l v (unionVal f v (m1.map Prod.snd, m2.map Prod.snd)) r)) :
    UnionOk cmp f s1 s2 := by
  obtain ⟨r, cr, hr, hbr, hzr, hrl⟩ := hr
  obtain ⟨l, cl, hl, hbl, hzl, hll⟩ := hl
  obtain ⟨t, ht, hbt⟩ := concatOrJoin_balanced hbl hbr v
    (unionVal f v (m1.map Prod.snd, m2.map Prod.snd))
  refine ⟨t, _, by rw [heq]; simp [hr, hl, ht], hbt, hzl.node ho h1 h2 hm hzr, ?_⟩
  rw [concatOrJoin_toList ht, hll, hrl]
  simp only [filterMapVal, filterMap_append, filterMap_cons]
  cases unionVal f v (m1.map Prod.snd, m2.map Prod.snd) <;> simp

/-- `union` when the first tree is not the lower one. -/
theorem union_left {l2 r2 l2' r2' : T κ α} {m2 : Option α}
    (hge : h1 ≥ h2) (hsp : split cmp v1 (.node l2 (v2, d2) r2 h2) = .ok (l2', m2, r2')) :
    union cmp f (.node l1 (v1, d1) r1 h1) (.node l2 (v2, d2) r2 h2) = (do
      let r ← union cmp f r1 r2'
      let l ← union cmp f l1 l2'
      concatOrJoin l v1 (unionVal f v1 (some d1, m2)) r) := by
  rw [union, if_pos hge]
  split
  · next he => cases hsp.symm.trans he
  · next he =>
    cases hsp.symm.trans he
    cases m2 <;> rfl

/-- `union` when the second tree is the higher one. -/
theorem union_right {l2 r2 l1' r1' : T κ α} {m1 : Option α}
    (hlt : ¬ h1 ≥ h2) (hsp : split cmp v2 (.node l1 (v1, d1) r1 h1) = .ok (l1', m1, r1')) :
    union cmp f (.node l1 (v1, d1) r1 h1) (.node l2 (v2, d2) r2 h2) = (do
      let r ← union cmp f r1' r2
      let l ← union cmp f l1' l2
      concatOrJoin l v2 (unionVal f v2 (m1, some d2)) r) := by
  rw [union, if_neg hlt]
  split
  · next he => cases hsp.symm.trans he
  · next he =>
    cases hsp.symm.trans he
    cases m1 <;> rfl

theorem union_ok (ho : TotalPreorder cmp) (f : κ → α → α → Option α) (s1 s2 : T κ α)
    (hw1 : WellFormed cmp s1) (hw2 : WellFormed cmp s2) : UnionOk cmp f s1 s2 := by
  induction hn : s1.size + s2.size using Nat.strongRecOn generalizing s1 s2 with
  | _ n ih =>
    cases s1 with
    | empty =>
      exact ⟨s2, _, by simp [union], hw2.balanced, IsZip.right hw2.sorted,
        (filterMapVal_map_self (f := unionVal f) (g := fun d => (none, some d))
          (fun _ _ => rfl) _).symm⟩
    | node l1 b1 r1 h1 =>
      cases s2 with
      | empty =>
        exact ⟨_, _, by simp [union], hw1.balanced, IsZip.left hw1.sorted,
          (filterMapVal_map_self (f := unionVal f) (g := fun d => (some d, none)) (fun _ _ => rfl)
            _).symm⟩
      | node l2 b2 r2 h2 =>
        obtain ⟨hl1, hr1⟩ := hw1.node
        obtain ⟨hl2, hr2⟩ := hw2.node
        by_cases hge : h1 ≥ h2
        · obtain ⟨l2', m2, r2', hsp, hwl2, hwr2, hcut⟩ := split_wellFormed ho hw2 b1.1
          have hsize := split_size hsp
          refine union_step ho (Cut.node ho (ho.self b1.1) hw1.sorted) hcut (Or.inl rfl)
            (ih _ ?_ l1 l2' hl1 hwl2 rfl) (ih _ ?_ r1 r2' hr1 hwr2 rfl) ?_
          · simp only [size] at hn hsize; omega
          · simp only [size] at hn hsize; omega
          · exact union_left hge hsp
        · obtain ⟨l1', m1, r1', hsp, hwl1, hwr1, hcut⟩ := split_wellFormed ho hw1 b2.1
          have hsize := split_size hsp
          refine union_step ho hcut (Cut.node ho (ho.self b2.1) hw2.sorted) (Or.inr rfl)
            (ih _ ?_ l1' l2 hwl1 hl2 rfl) (ih _ ?_ r1' r2 hwr1 hr2 rfl) ?_
          · simp only [size] at hn hsize; omega
          · simp only [size] at hn hsize; omega
          · exact union_right hge hsp

theorem union_wellFormed (ho : TotalPreorder cmp) {s2 : T κ α} (hw1 : WellFormed cmp s1)
    (hw2 : WellFormed cmp s2) (f : κ → α → α → Option α) :
    ∃ t calls, union cmp f s1 s2 = .ok t ∧ WellFormed cmp t ∧
      IsZip cmp s1.toList s2.toList calls ∧ t.toList = filterMapVal (unionVal f) calls := by
  obtain ⟨t, calls, ht, hb, hz, hl⟩ := union_ok ho f s1 s2 hw1 hw2
  refine ⟨t, calls, ht, ⟨?_, hb⟩, hz, hl⟩
  rw [hl]
  exact sorted_filterMapVal hz.sorted

/-! ## Whole runs -/

theorem addSeq_wellFormed (ho : TotalPreorder cmp) : ∀ (i : List (κ × α)) (phys : Nat → PhysEq)
    {m : T κ α}, WellFormed cmp m → ∃ m', addSeq cmp phys i m = .ok m' ∧ WellFormed cmp m'
  | [], _, m, hm => ⟨m, rfl, hm⟩
  | (k, v) :: i, phys, m, hm => by
    obtain ⟨m1, h1, hw1⟩ := update_wellFormed ho hm (phys 0) k fun _ => some v
    obtain ⟨m2, h2, hw2⟩ := addSeq_wellFormed ho i (fun n => phys (n + 1)) hw1
    exact ⟨m2, by rw [addSeq, add_eq_update, h1]; exact h2, hw2⟩

/--
The outcomes of the calls that a program can make, starting from `empty`: the arguments of a call
are maps that earlier calls have returned.
-/
inductive Outcome (cmp : κ → κ → Int) : {α : Type} → Except Exn (T κ α) → Prop where
  | empty {α : Type} : Outcome cmp (.ok (Map.empty : T κ α))
  | singleton {α : Type} (x : κ) (d : α) : Outcome cmp (.ok (Map.singleton x d))
  | add {α : Type} {m : T κ α} (phys : PhysEq) (x : κ) (d : α) :
      Outcome cmp (.ok m) → Outcome cmp (add cmp phys x d m)
  | addToList {α : Type} {m : T κ (List α)} (phys : PhysEq) (x : κ) (d : α) :
      Outcome cmp (.ok m) → Outcome cmp (addToList cmp phys x d m)
  | update {α : Type} {m : T κ α} (phys : PhysEq) (x : κ) (f : Option α → Option α) :
      Outcome cmp (.ok m) → Outcome cmp (update cmp phys x f m)
  | remove {α : Type} {m : T κ α} (phys : PhysEq) (x : κ) :
      Outcome cmp (.ok m) → Outcome cmp (remove cmp phys x m)
  | map {α β : Type} {m : T κ α} (f : α → β) :
      Outcome cmp (.ok m) → Outcome cmp (.ok (map f m))
  | mapi {α β : Type} {m : T κ α} (f : κ → α → β) :
      Outcome cmp (.ok m) → Outcome cmp (.ok (mapi f m))
  | splitLeft {α : Type} {m : T κ α} (x : κ) :
      Outcome cmp (.ok m) → Outcome cmp ((split cmp x m).map fun res => res.1)
  | splitRight {α : Type} {m : T κ α} (x : κ) :
      Outcome cmp (.ok m) → Outcome cmp ((split cmp x m).map fun res => res.2.2)
  | merge {α β γ σ : Type} {m1 : T κ α} {m2 : T κ β}
      (f : κ → Option α → Option β → σ → Option γ × σ) (st : σ) :
      Outcome cmp (.ok m1) → Outcome cmp (.ok m2) →
      Outcome cmp ((merge cmp f m1 m2 st).map Prod.fst)
  | union {α : Type} {m1 m2 : T κ α} (f : κ → α → α → Option α) :
      Outcome cmp (.ok m1) → Outcome cmp (.ok m2) → Outcome cmp (union cmp f m1 m2)
  | filter {α : Type} {m : T κ α} (phys : PhysEq) (p : κ → α → Bool) :
      Outcome cmp (.ok m) → Outcome cmp (filter phys p m)
  | filterMap {α β : Type} {m : T κ α} (f : κ → α → Option β) :
      Outcome cmp (.ok m) → Outcome cmp (filterMap f m)
  | partitionTrue {α : Type} {m : T κ α} (p : κ → α → Bool) :
      Outcome cmp (.ok m) → Outcome cmp ((partition p m).map Prod.fst)
  | partitionFalse {α : Type} {m : T κ α} (p : κ → α → Bool) :
      Outcome cmp (.ok m) → Outcome cmp ((partition p m).map Prod.snd)
  | ofList {α : Type} (phys : Nat → PhysEq) (bs : List (κ × α)) :
      Outcome cmp (ofList cmp phys bs)
  | ofSeq {α : Type} (phys : Nat → PhysEq) (i : List (κ × α)) :
      Outcome cmp (ofSeq cmp phys i)

theorem wellFormed_singleton (x : κ) (d : α) : WellFormed cmp (Map.singleton x d) :=
  ⟨pairwise_singleton _ _, Avl.balanced_singleton _⟩

theorem wellFormed_of_ok (h : ∃ m', (.ok m : Except Exn (T κ α)) = .ok m' ∧ WellFormed cmp m') :
    WellFormed cmp m := by
  obtain ⟨m', hm, hw⟩ := h
  cases hm
  exact hw

/-- **No call raises, and every map that a call returns is well formed.** -/
theorem outcome_wellFormed (ho : TotalPreorder cmp) {α : Type} {res : Except Exn (T κ α)}
    (h : Outcome cmp res) : ∃ m, res = .ok m ∧ WellFormed cmp m := by
  induction h with
  | empty => exact ⟨_, rfl, wellFormed_empty⟩
  | singleton x d => exact ⟨_, rfl, wellFormed_singleton x d⟩
  | add phys x d _ ih =>
    rw [add_eq_update]
    exact update_wellFormed ho (wellFormed_of_ok ih) phys x _
  | addToList phys x d _ ih =>
    exact update_wellFormed ho (wellFormed_of_ok ih) phys x _
  | update phys x f _ ih =>
    exact update_wellFormed ho (wellFormed_of_ok ih) phys x f
  | remove phys x _ ih =>
    rw [remove_eq_update]
    exact update_wellFormed ho (wellFormed_of_ok ih) phys x _
  | map f _ ih =>
    rw [map_eq_mapi]
    exact ⟨_, rfl, mapi_wellFormed (wellFormed_of_ok ih) _⟩
  | mapi f _ ih =>
    exact ⟨_, rfl, mapi_wellFormed (wellFormed_of_ok ih) f⟩
  | splitLeft x _ ih =>
    have hw := wellFormed_of_ok ih
    obtain ⟨l, mid, r, hs, hl, -, -⟩ := split_wellFormed ho hw x
    exact ⟨l, by rw [hs]; rfl, hl⟩
  | splitRight x _ ih =>
    have hw := wellFormed_of_ok ih
    obtain ⟨l, mid, r, hs, -, hr, -⟩ := split_wellFormed ho hw x
    exact ⟨r, by rw [hs]; rfl, hr⟩
  | merge f st _ _ ih1 ih2 =>
    have hw1 := wellFormed_of_ok ih1
    have hw2 := wellFormed_of_ok ih2
    obtain ⟨t, calls, ht, hw, -⟩ := merge_wellFormed ho hw1 hw2 f st
    exact ⟨t, by rw [ht]; rfl, hw⟩
  | union f _ _ ih1 ih2 =>
    have hw1 := wellFormed_of_ok ih1
    have hw2 := wellFormed_of_ok ih2
    obtain ⟨t, calls, ht, hw, -⟩ := union_wellFormed ho hw1 hw2 f
    exact ⟨t, ht, hw⟩
  | filter phys p _ ih =>
    obtain ⟨m', h, hw, -⟩ := filter_wellFormed (wellFormed_of_ok ih) phys p
    exact ⟨m', h, hw⟩
  | filterMap f _ ih =>
    obtain ⟨m', h, hw, -⟩ := filterMap_wellFormed (wellFormed_of_ok ih) f
    exact ⟨m', h, hw⟩
  | partitionTrue p _ ih =>
    obtain ⟨t, f, hp, ht, -⟩ := partition_wellFormed (wellFormed_of_ok ih) p
    exact ⟨t, by rw [hp]; rfl, ht⟩
  | partitionFalse p _ ih =>
    obtain ⟨t, f, hp, -, hf⟩ := partition_wellFormed (wellFormed_of_ok ih) p
    exact ⟨f, by rw [hp]; rfl, hf⟩
  | ofList phys bs => exact addSeq_wellFormed ho bs phys wellFormed_empty
  | ofSeq phys i => exact addSeq_wellFormed ho i phys wellFormed_empty

theorem outcome_wellFormed_union :
    ∃ m, union intCompare (fun _ d _ => some d) (Map.singleton 1 "a") (Map.singleton 2 "b")
        = .ok m ∧ WellFormed intCompare m :=
  outcome_wellFormed totalOrder_intCompare.toTotalPreorder
    (.union _ (.singleton 1 "a") (.singleton 2 "b"))

end TravLang.Map