import Mathlib.Data.List.Nodup
import Mathlib.Data.List.Perm.Subperm

/-!
# `Hashtbl.filter_map_inplace` (`stdlib/hashtbl.ml`)

A bucket is a chain of mutable cells: a `bucketlist` is the address of a cell, or nothing for
`Empty`. The function that is applied to the bindings may keep a state of its own, and may raise an
exception at any call; it does not touch the table. The result is absent only where a pointer has no
cell or where the number of calls exceeds a bound.
-/

namespace TravLang.Hashtbl

open List Function

variable {κ α σ ε : Type}

structure Cell (κ α : Type) where
  key : κ
  data : α
  next : Option Nat
  deriving DecidableEq, Repr

/-- The type `t`, with the cells that its buckets are made of. -/
structure Table (κ α : Type) where
  size : Int
  data : List (Option Nat)
  initialSize : Int
  cells : List (Cell κ α)
  deriving DecidableEq, Repr

def Table.ongoingTraversal (h : Table κ α) : Bool := h.initialSize < 0

def Table.flipOngoingTraversal (h : Table κ α) : Table κ α :=
  { h with initialSize := -h.initialSize }

/-- The slot comes after `prec`, or at the start of bucket `i`. -/
def Table.link (h : Table κ α) (i : Nat) (prec slot : Option Nat) : Table κ α :=
  match prec with
  | none => { h with data := h.data.set i slot }
  | some b => { h with cells := h.cells.modify b fun c => { c with next := slot } }

def Table.setData (h : Table κ α) (a : Nat) (data : α) : Table κ α :=
  { h with cells := h.cells.modify a fun c => { c with data := data } }

/-- The first number bounds the length of the chain. -/
def filterMapInplaceBucket (f : σ → κ → α → σ × Except ε (Option α)) (i : Nat) :
    Nat → σ → Table κ α → Option Nat → Option Nat → Option (σ × Table κ α × Except ε Unit)
  | 0, _, _, _, _ => none
  | _ + 1, s, h, prec, none => some (s, h.link i prec none, .ok ())
  | fuel + 1, s, h, prec, some a =>
    match h.cells[a]? with
    | none => none
    | some c =>
      match f s c.key c.data with
      | (s, .error e) => some (s, h, .error e)
      | (s, .ok none) =>
        filterMapInplaceBucket f i fuel s { h with size := h.size - 1 } prec c.next
      | (s, .ok (some data)) =>
        filterMapInplaceBucket f i fuel s ((h.link i prec (some a)).setData a data) (some a) c.next

/-- The loop over the buckets. -/
def filterMapInplaceBuckets (f : σ → κ → α → σ × Except ε (Option α)) (fuel : Nat) :
    List Nat → σ → Table κ α → Option (σ × Table κ α × Except ε Unit)
  | [], s, h => some (s, h, .ok ())
  | i :: is, s, h =>
    match h.data[i]? with
    | none => none
    | some slot =>
      match filterMapInplaceBucket f i fuel s h none slot with
      | some (s, h, .ok ()) => filterMapInplaceBuckets f fuel is s h
      | r => r

/-- Unless there is a traversal around this one, the mark is put before the loop, and removed at its
end or when an exception is caught. A chain has no more cells than there are. -/
def filterMapInplace (f : σ → κ → α → σ × Except ε (Option α)) (s : σ) (h : Table κ α) :
    Option (σ × Table κ α × Except ε Unit) :=
  let loop := filterMapInplaceBuckets f (h.cells.length + 1) (List.range h.data.length) s
  if h.ongoingTraversal then loop h
  else
    (loop h.flipOngoingTraversal).map fun r => (r.1, r.2.1.flipOngoingTraversal, r.2.2)

/-! ## Chains -/

/-- From pointer `p` one meets the cells at the addresses `l`, and then the pointer `q`. -/
def Seg (cells : List (Cell κ α)) : Option Nat → List Nat → Option Nat → Prop
  | p, [], q => p = q
  | p, a :: l, q => p = some a ∧ ∃ c, cells[a]? = some c ∧ Seg cells c.next l q

theorem seg_append {cells : List (Cell κ α)} {q : Option Nat} :
    ∀ {p : Option Nat} {l l' : List Nat},
    Seg cells p (l ++ l') q ↔ ∃ m, Seg cells p l m ∧ Seg cells m l' q
  | p, [], l' => by simp [Seg]
  | p, a :: l, l' => by
    simp only [cons_append, Seg]
    constructor
    · rintro ⟨hp, c, hc, hseg⟩
      obtain ⟨m, hl, hl'⟩ := seg_append.mp hseg
      exact ⟨m, ⟨hp, c, hc, hl⟩, hl'⟩
    · rintro ⟨m, ⟨hp, c, hc, hl⟩, hl'⟩
      exact ⟨hp, c, hc, seg_append.mpr ⟨m, hl, hl'⟩⟩

/-- Only where the cells of a segment point to matters. -/
theorem Seg.congr {cells cells' : List (Cell κ α)} {q : Option Nat} :
    ∀ {p : Option Nat} {l : List Nat}, Seg cells p l q →
      (∀ a ∈ l, cells'[a]?.map Cell.next = cells[a]?.map Cell.next) → Seg cells' p l q
  | _, [], h, _ => h
  | _, a :: l, ⟨hp, c, hc, hseg⟩, hsame => by
    have ha := hsame a mem_cons_self
    rw [hc, Option.map_some, Option.map_eq_some_iff] at ha
    obtain ⟨c', hc', hnext⟩ := ha
    exact ⟨hp, c', hc', hnext ▸ hseg.congr fun b hb => hsame b (mem_cons_of_mem _ hb)⟩

variable {cells : List (Cell κ α)} {l : List Nat} {b : Nat} {p q : Option Nat}

theorem Seg.modify_of_not_mem (h : Seg cells p l q) (hb : b ∉ l) (g : Cell κ α → Cell κ α) :
    Seg (cells.modify b g) p l q := by
  refine h.congr fun a ha => ?_
  have hne : b ≠ a := by
    rintro rfl
    exact hb ha
  simp [hne]

/-- The last cell of a segment is given another successor. -/
theorem Seg.set_last {r : Option Nat} (h : Seg cells p (l ++ [b]) q) (hb : b ∉ l) :
    Seg (cells.modify b fun c => { c with next := r }) p (l ++ [b]) r := by
  obtain ⟨m, hl, hm, c, hc, -⟩ := seg_append.mp h
  refine seg_append.mpr ⟨m, hl.modify_of_not_mem hb _, hm, { c with next := r }, ?_, rfl⟩
  simp [hc]

theorem Seg.lt_length : ∀ {p : Option Nat} {l : List Nat},
    Seg cells p l q → ∀ a ∈ l, a < cells.length
  | _, b :: l, ⟨_, c, hc, hseg⟩, a, ha => by
    rcases mem_cons.mp ha with rfl | ha
    · exact (List.getElem?_eq_some_iff.mp hc).1
    · exact hseg.lt_length a ha

theorem Seg.unique : ∀ {p : Option Nat} {l l' : List Nat}, Seg cells p l none →
    Seg cells p l' none → l = l'
  | _, [], [], _, _ => rfl
  | _, [], _ :: _, h, ⟨h', _⟩ => nomatch h.symm.trans h'
  | _, _ :: _, [], ⟨h, _⟩, h' => nomatch h'.symm.trans h
  | _, a :: l, a' :: l', ⟨h, c, hc, hl⟩, ⟨h', c', hc', hl'⟩ => by
    obtain rfl := Option.some.inj (h.symm.trans h')
    obtain rfl := Option.some.inj (hc.symm.trans hc')
    rw [hl.unique hl']

/-! ## Tables -/

/-- The cells reachable from the buckets: bucket `j` is the chain of the cells `chains j`, and no
cell is met twice. -/
structure Reaches (h : Table κ α) (chains : Nat → List Nat) : Prop where
  chain : ∀ j p, h.data[j]? = some p → Seg h.cells p (chains j) none
  nodup : ∀ j, (chains j).Nodup
  disjoint : ∀ j j', j ≠ j' → ∀ a ∈ chains j, a ∉ chains j'

/-- The number of bindings in the first `n` buckets. -/
def count (chains : Nat → List Nat) : Nat → Nat
  | 0 => 0
  | n + 1 => count chains n + (chains n).length

/-- The size field is the number of bindings that are reachable from the buckets. -/
def Sized (h : Table κ α) : Prop := ∃ chains, Reaches h chains ∧ h.size = count chains h.data.length

theorem count_update (chains : Nat → List Nat) {i : Nat} (l : List Nat) : ∀ {n : Nat},
    (n ≤ i → count (update chains i l) n = count chains n) ∧
    (i < n → count (update chains i l) n + (chains i).length = count chains n + l.length)
  | 0 => ⟨fun _ => rfl, fun h => absurd h (by omega)⟩
  | n + 1 => by
    obtain ⟨hbelow, habove⟩ := count_update chains (i := i) l (n := n)
    constructor
    · intro h
      simp [count, hbelow (by omega), update_of_ne (show n ≠ i by omega)]
    · intro h
      rcases Nat.lt_or_ge i n with hlt | hge
      · have := habove hlt
        simp only [count, update_of_ne (show n ≠ i by omega)]
        omega
      · obtain rfl : i = n := by omega
        simp only [count, hbelow (by omega), update_self]
        omega

section Steps

variable {h : Table κ α} {chains : Nat → List Nat} {i : Nat} {prec : Option Nat}

/-- **The cells between the last one that is kept and the slot are cut out.** -/
theorem Reaches.link {ks ps rs : List Nat} {slot : Option Nat} (hr : Reaches h chains)
    (hi : i < h.data.length) (hchain : chains i = ks ++ (ps ++ rs)) (hprec : prec = ks.getLast?)
    (hslot : Seg h.cells slot rs none) :
    Reaches (h.link i prec slot) (update chains i (ks ++ rs)) := by
  have hnodup := hchain ▸ hr.nodup i
  have hsub : (ks ++ rs).Sublist (ks ++ (ps ++ rs)) :=
    (List.Sublist.refl ks).append (sublist_append_right ps rs)
  have hmem : ∀ {j a}, a ∈ update chains i (ks ++ rs) j → a ∈ chains j := by
    intro j a ha
    by_cases hj : j = i
    · subst hj
      rw [update_self] at ha
      exact hchain ▸ hsub.subset ha
    · rwa [update_of_ne hj] at ha
  refine ⟨?_, ?_, fun j j' hne a ha ha' => hr.disjoint j j' hne a (hmem ha) (hmem ha')⟩
  · intro j p hp
    subst hprec
    rcases eq_nil_or_concat ks with rfl | ⟨ks', b, rfl⟩
    · -- the slot becomes the start of the bucket
      simp only [Table.link, List.getLast?_nil] at hp ⊢
      by_cases hj : j = i
      · subst hj
        rw [List.getElem?_set_self hi, Option.some.injEq] at hp
        rw [update_self, nil_append, ← hp]
        exact hslot
      · rw [List.getElem?_set_ne (Ne.symm hj)] at hp
        rw [update_of_ne hj]
        exact hr.chain j p hp
    · rw [concat_eq_append] at *
      simp only [Table.link, List.getLast?_append_of_ne_nil _ (cons_ne_nil b []),
        List.getLast?_singleton] at hp ⊢
      have hb : b ∈ chains i := by rw [hchain]; simp
      by_cases hj : j = i
      · subst hj
        rw [update_self]
        have hbefore : b ∉ ks' := by
          rw [append_assoc] at hnodup
          exact fun hmem => (nodup_append.mp hnodup).2.2 b hmem b (by simp) rfl
        have hafter : b ∉ rs := fun hmem =>
          (nodup_append.mp hnodup).2.2 b (by simp) b (mem_append_right _ hmem) rfl
        have hseg := hr.chain j p hp
        rw [hchain] at hseg
        obtain ⟨m, hkept, -⟩ := seg_append.mp hseg
        exact seg_append.mpr ⟨slot, hkept.set_last hbefore, hslot.modify_of_not_mem hafter _⟩
      · rw [update_of_ne hj]
        exact (hr.chain j p hp).modify_of_not_mem (hr.disjoint i j (Ne.symm hj) b hb) _
  · intro j
    by_cases hj : j = i
    · subst hj
      rw [update_self]
      exact hsub.nodup hnodup
    · rw [update_of_ne hj]
      exact hr.nodup j

theorem Seg.link {p q slot : Option Nat} (hseg : Seg h.cells p l q)
    (hprec : ∀ b, prec = some b → b ∉ l) : Seg (h.link i prec slot).cells p l q := by
  cases prec with
  | none => exact hseg
  | some b => exact hseg.modify_of_not_mem (hprec b rfl) _

theorem Seg.setData (hseg : Seg h.cells p l q) (a : Nat) (d : α) :
    Seg (h.setData a d).cells p l q := by
  refine hseg.congr fun b _ => ?_
  rw [Table.setData, List.getElem?_modify]
  cases h.cells[b]? with
  | none => rfl
  | some c =>
    simp only [Option.map_some]
    split <;> rfl

theorem Reaches.setData (hr : Reaches h chains) (a : Nat) (d : α) :
    Reaches (h.setData a d) chains :=
  ⟨fun j p hp => Seg.setData (hr.chain j p hp) a d, hr.nodup, hr.disjoint⟩

@[simp] theorem length_link (h : Table κ α) (i : Nat) (prec slot : Option Nat) :
    (h.link i prec slot).data.length = h.data.length ∧
      (h.link i prec slot).cells.length = h.cells.length ∧
      (h.link i prec slot).size = h.size ∧ (h.link i prec slot).initialSize = h.initialSize := by
  unfold Table.link
  split <;> simp

end Steps

/-! ## Runs -/

/-- The keys and the data of cells. -/
def contents (cells : List (Cell κ α)) (l : List Nat) : List (κ × α) :=
  l.filterMap fun a => cells[a]?.map fun c => (c.key, c.data)

/-- The calls for the bindings of a bucket: the state after them, or, if one of them raises an
exception, whether the one before it has dropped a binding. -/
def callBucket (f : σ → κ → α → σ × Except ε (Option α)) : σ → Bool → List (κ × α) → σ ⊕ Bool
  | s, _, [] => .inl s
  | s, dropped, (k, d) :: bindings =>
    match f s k d with
    | (_, .error _) => .inr dropped
    | (s, .ok answer) => callBucket f s answer.isNone bindings

/-- Whether an exception is raised right after a binding of the same bucket was dropped. -/
def raisesAfterDrop (f : σ → κ → α → σ × Except ε (Option α)) : σ → List (List (κ × α)) → Bool
  | _, [] => false
  | s, bucket :: buckets =>
    match callBucket f s false bucket with
    | .inl s => raisesAfterDrop f s buckets
    | .inr late => late

theorem contents_congr {cells' : List (Cell κ α)} {l : List Nat}
    (h : ∀ a ∈ l, cells'[a]?.map (fun c => (c.key, c.data)) =
      cells[a]?.map fun c => (c.key, c.data)) : contents cells' l = contents cells l :=
  filterMap_congr h

/-- What is left of a table, apart from its bucket `i`, where there are the cells `l` now. -/
structure Leaves (i : Nat) (l : List Nat) (h h' : Table κ α) (chains : Nat → List Nat) : Prop where
  initialSize : h'.initialSize = h.initialSize
  buckets : h'.data.length = h.data.length
  cells : h'.cells.length = h.cells.length
  reaches : Reaches h' (update chains i l)
  contents : ∀ l, (∀ a ∈ l, a ∉ chains i) → contents h'.cells l = contents h.cells l

theorem contents_link (h : Table κ α) (i : Nat) (prec slot : Option Nat) (l : List Nat) :
    contents (h.link i prec slot).cells l = contents h.cells l := by
  refine contents_congr fun a _ => ?_
  cases prec with
  | none => rfl
  | some b =>
    simp only [Table.link, List.getElem?_modify]
    cases h.cells[a]? with
    | none => rfl
    | some c => by_cases hb : b = a <;> simp [hb]

theorem contents_setData (h : Table κ α) {a : Nat} (d : α) {l : List Nat} (ha : a ∉ l) :
    contents (h.setData a d).cells l = contents h.cells l := by
  refine contents_congr fun b hb => ?_
  have hne : a ≠ b := fun heq => ha (heq ▸ hb)
  simp [Table.setData, hne]

/-- **The loop over a bucket.** The cells `ks` have been kept and the cells `ps` dropped since; the
dropped ones are no longer counted, but are still there until the next one is kept. -/
theorem filterMapInplaceBucket_spec (f : σ → κ → α → σ × Except ε (Option α)) {i : Nat} :
    ∀ (rs ks ps : List Nat) (fuel : Nat) (s : σ) (h : Table κ α) (slot : Option Nat)
      (chains : Nat → List Nat), rs.length < fuel → Reaches h chains → i < h.data.length →
      chains i = ks ++ (ps ++ rs) → Seg h.cells slot rs none →
      h.size + ps.length = count chains h.data.length →
      ∃ s' h' r l, filterMapInplaceBucket f i fuel s h ks.getLast? slot = some (s', h', r) ∧
        Leaves i l h h' chains ∧
        match r, callBucket f s (!ps.isEmpty) (contents h.cells rs) with
        | .ok (), .inl s₁ => s₁ = s' ∧ h'.size = count (update chains i l) h'.data.length
        | .error _, .inr late =>
          h'.size = count (update chains i l) h'.data.length ↔ late = false
        | _, _ => False
  | [], ks, ps, fuel + 1, s, h, slot, chains, _, hr, hi, hchain, hslot, hsize => by
    obtain rfl : slot = none := hslot
    have hlen := length_link h i ks.getLast? none
    refine ⟨s, _, _, ks ++ [], rfl, ⟨hlen.2.2.2, hlen.1, hlen.2.1, hr.link hi hchain rfl rfl,
      fun l _ => contents_link h i _ _ l⟩, rfl, ?_⟩
    have hcount := (count_update chains (ks ++ []) (n := h.data.length)).2 hi
    rw [hchain] at hcount
    simp only [length_append, append_nil] at hcount
    rw [hlen.1, hlen.2.2.1, append_nil]
    omega
  | a :: rs, ks, ps, fuel + 1, s, h, slot, chains, hfuel, hr, hi, hchain, hslot, hsize => by
    obtain ⟨rfl, c, hc, hrest⟩ := hslot
    have hslot : Seg h.cells (some a) (a :: rs) none := ⟨rfl, c, hc, hrest⟩
    have hfuel' : rs.length < fuel := by simpa using hfuel
    have hnodup := hchain ▸ hr.nodup i
    have hcontents : contents h.cells (a :: rs) = (c.key, c.data) :: contents h.cells rs := by
      simp [contents, hc]
    rw [filterMapInplaceBucket, hc, hcontents]
    simp only [callBucket]
    cases hf : f s c.key c.data with
    | mk s' answer =>
    match answer, hf with
    | .error e, hf =>
      refine ⟨s', h, .error e, chains i, rfl, ⟨rfl, rfl, rfl, by rwa [update_eq_self],
        fun _ _ => rfl⟩, ?_⟩
      rw [update_eq_self, ← hsize]
      cases ps with
      | nil => simp
      | cons p ps =>
        simp
        omega
    | .ok none, hf =>
      obtain ⟨s'', h', r, l, hrun, hleaves, hend⟩ := filterMapInplaceBucket_spec f rs ks (ps ++ [a])
        fuel s' { h with size := h.size - 1 } c.next chains hfuel'
        ⟨hr.chain, hr.nodup, hr.disjoint⟩ hi (by simp [hchain]) hrest (by simp; omega)
      refine ⟨s'', h', r, l, hrun, ⟨hleaves.initialSize, hleaves.buckets, hleaves.cells,
        hleaves.reaches, hleaves.contents⟩, ?_⟩
      rwa [show (!(ps ++ [a]).isEmpty) = true by simp] at hend
    | .ok (some d), hf =>
      have hlen := length_link h i ks.getLast? (some a)
      have hlinked := (hr.link hi hchain rfl hslot).setData a d
      have hcount := (count_update chains (ks ++ a :: rs) (n := h.data.length)).2 hi
      rw [hchain] at hcount
      simp only [length_append] at hcount
      have hnext : Seg ((h.link i ks.getLast? (some a)).setData a d).cells c.next rs none := by
        refine Seg.setData (hrest.link fun b hb => ?_) a d
        have hmem : b ∈ ks := List.mem_of_getLast? hb
        exact fun hb' => (nodup_append.mp hnodup).2.2 b hmem b (by simp [hb']) rfl
      have ha : a ∉ rs := by
        have := (nodup_append.mp (nodup_append.mp hnodup).2.1).2.1
        exact (nodup_cons.mp this).1
      obtain ⟨s'', h', r, l, hrun, hleaves, hend⟩ := filterMapInplaceBucket_spec f rs (ks ++ [a]) []
        fuel s' ((h.link i ks.getLast? (some a)).setData a d) c.next _ hfuel' hlinked
        (by simpa [Table.setData, hlen.1] using hi) (by simp) hnext
        (by simp only [Table.setData, hlen.1, hlen.2.2.1, length_nil]; omega)
      rw [List.getLast?_append_of_ne_nil _ (cons_ne_nil a []), List.getLast?_singleton] at hrun
      rw [update_idem, contents_setData _ d ha, contents_link] at hend
      refine ⟨s'', h', r, l, hrun, ⟨by rw [hleaves.initialSize]; exact hlen.2.2.2,
        by rw [hleaves.buckets]; exact hlen.1,
        by rw [hleaves.cells]; simp [Table.setData, hlen.2.1],
        update_idem (f := chains) _ _ ▸ hleaves.reaches, fun l' hl' => ?_⟩, hend⟩
      rw [hleaves.contents l' fun b hb hb' => hl' b hb (by rw [update_self] at hb'; grind),
        contents_setData _ d fun hb => hl' a hb (by simp [hchain]), contents_link]

/-- The loop over some buckets. -/
theorem filterMapInplaceBuckets_spec (f : σ → κ → α → σ × Except ε (Option α)) {fuel : Nat} :
    ∀ (is : List Nat) (s : σ) (h : Table κ α) (chains : Nat → List Nat), h.cells.length < fuel →
      is.Nodup → (∀ i ∈ is, i < h.data.length) → Reaches h chains →
      h.size = count chains h.data.length →
      ∃ s' h' r chains', filterMapInplaceBuckets f fuel is s h = some (s', h', r) ∧
        h'.initialSize = h.initialSize ∧ Reaches h' chains' ∧
        (h'.size = count chains' h'.data.length ↔
          raisesAfterDrop f s (is.map fun i => contents h.cells (chains i)) = false)
  | [], s, h, chains, _, _, _, hr, hsize =>
    ⟨s, h, .ok (), chains, rfl, rfl, hr, iff_of_true hsize rfl⟩
  | i :: is, s, h, chains, hfuel, hnodup, his, hr, hsize => by
    obtain ⟨hi, his⟩ := forall_mem_cons.mp his
    obtain ⟨hnew, hnodup⟩ := nodup_cons.mp hnodup
    have hseg := hr.chain i _ (List.getElem?_eq_getElem hi)
    have hshort : (chains i).length < fuel := by
      have hsub : chains i ⊆ List.range h.cells.length := fun a ha =>
        mem_range.mpr (hseg.lt_length a ha)
      have := ((hr.nodup i).subperm hsub).length_le
      rw [length_range] at this
      omega
    obtain ⟨s₁, h₁, r₁, l, hrun, hleaves, hend⟩ := filterMapInplaceBucket_spec f (chains i) [] []
      fuel s h h.data[i] chains hshort hr hi rfl hseg (by simpa using hsize)
    rw [List.getLast?_nil] at hrun
    rw [filterMapInplaceBuckets, List.getElem?_eq_getElem hi, map_cons, raisesAfterDrop]
    simp only [hrun]
    simp only [isEmpty_nil, Bool.not_true] at hend
    match r₁, callBucket f s false (contents h.cells (chains i)), hend with
    | .error e, .inr late, hend =>
      exact ⟨s₁, h₁, .error e, _, rfl, hleaves.initialSize, hleaves.reaches, hend⟩
    | .ok (), .inl s₂, ⟨hs, hsize₁⟩ =>
      subst hs
      obtain ⟨s', h', r, chains', hrun', hmark, hr', hiff⟩ :=
        filterMapInplaceBuckets_spec f is s₂ h₁
        _ (by rw [hleaves.cells]; exact hfuel) hnodup (by rw [hleaves.buckets]; exact his)
        hleaves.reaches hsize₁
      refine ⟨s', h', r, chains', hrun', hmark.trans hleaves.initialSize, hr', hiff.trans ?_⟩
      -- the other buckets are as they were
      have hothers : (is.map fun j => contents h₁.cells (update chains i l j)) =
          is.map fun j => contents h.cells (chains j) := by
        refine map_congr_left fun j hj => ?_
        have hne : j ≠ i := fun heq => hnew (heq ▸ hj)
        rw [update_of_ne hne]
        exact hleaves.contents _ (hr.disjoint j i hne)
      rw [hothers]

/-- A table reaches its cells in one way. -/
theorem Reaches.size_iff {h : Table κ α} {chains : Nat → List Nat} (hr : Reaches h chains) :
    Sized h ↔ h.size = count chains h.data.length := by
  refine ⟨?_, fun hsize => ⟨chains, hr, hsize⟩⟩
  rintro ⟨chains', hr', hsize⟩
  have hcount : ∀ n ≤ h.data.length, count chains' n = count chains n := by
    intro n hn
    induction n with
    | zero => rfl
    | succ n ih =>
      have hslot := List.getElem?_eq_getElem (show n < h.data.length by omega)
      rw [count, count, ih (by omega), (hr'.chain n _ hslot).unique (hr.chain n _ hslot)]
  rw [hsize, hcount _ (Nat.le_refl _)]

/-- **The mark is always put back, and the size is right when the traversal ends or is left by an
exception**, exactly if none is raised right after a binding of the same bucket was dropped. -/
theorem filterMapInplace_safe (f : σ → κ → α → σ × Except ε (Option α)) (s : σ) {h : Table κ α}
    {chains : Nat → List Nat} (hr : Reaches h chains)
    (hsize : h.size = count chains h.data.length) :
    ∃ s' h' r, filterMapInplace f s h = some (s', h', r) ∧
      h'.ongoingTraversal = h.ongoingTraversal ∧
      (Sized h' ↔ raisesAfterDrop f s
        ((List.range h.data.length).map fun i => contents h.cells (chains i)) = false) := by
  unfold filterMapInplace
  split
  · obtain ⟨s', h', r, chains', hrun, hmark, hr', hiff⟩ := filterMapInplaceBuckets_spec f
      (List.range h.data.length) s h chains (Nat.lt_succ_self _) nodup_range
      (fun i hi => mem_range.mp hi) hr hsize
    exact ⟨s', h', r, hrun, by rw [Table.ongoingTraversal, hmark]; rfl, hr'.size_iff.trans hiff⟩
  · obtain ⟨s', h', r, chains', hrun, hmark, hr', hiff⟩ := filterMapInplaceBuckets_spec f
      (List.range h.data.length) s h.flipOngoingTraversal chains
      (show h.cells.length < h.cells.length + 1 from Nat.lt_succ_self _) nodup_range
      (fun i hi => mem_range.mp hi) ⟨hr.chain, hr.nodup, hr.disjoint⟩ hsize
    have hflip : Reaches h'.flipOngoingTraversal chains' := ⟨hr'.chain, hr'.nodup, hr'.disjoint⟩
    refine ⟨s', h'.flipOngoingTraversal, r, by simp only [hrun, Option.map_some], ?_,
      hflip.size_iff.trans hiff⟩
    have hback : h'.flipOngoingTraversal.initialSize = h.initialSize := by
      simp [Table.flipOngoingTraversal, hmark]
    rw [Table.ongoingTraversal, hback]
    rfl

/-- Two bindings in one bucket. -/
def pairTable : Table Nat Nat where
  size := 2
  data := [some 0]
  initialSize := 16
  cells := [⟨1, 10, some 1⟩, ⟨2, 20, none⟩]

theorem reaches_pair {h : Table Nat Nat} {c d : Nat} (hdata : h.data = [some 0])
    (hcells : h.cells = [⟨1, c, some 1⟩, ⟨2, d, none⟩]) :
    Reaches h fun j => if j = 0 then [0, 1] else [] := by
  refine ⟨?_, ?_, ?_⟩
  · intro j p hp
    rw [hdata] at hp
    rw [hcells]
    match j with
    | 0 =>
      cases hp
      exact ⟨rfl, _, rfl, rfl, _, rfl, rfl⟩
  · intro j
    by_cases hj : j = 0 <;> simp [hj]
  · intro j j' hne a ha
    by_cases hj : j = 0
    · subst hj
      simp [Ne.symm hne]
    · simp [hj] at ha

/-- The second binding is dropped, and the first one is kept. -/
theorem filterMapInplace_safe_pair : ∃ s' h' r,
    filterMapInplace (σ := Unit) (ε := Unit)
      (fun s k d => (s, .ok (if k = 1 then some d else none))) () pairTable = some (s', h', r) ∧
      h'.ongoingTraversal = pairTable.ongoingTraversal ∧ Sized h' := by
  obtain ⟨s', h', r, hrun, hmark, hiff⟩ := filterMapInplace_safe (σ := Unit) (ε := Unit)
    (fun s k d => (s, .ok (if k = 1 then some d else none))) () (h := pairTable)
    (reaches_pair rfl rfl) rfl
  exact ⟨s', h', r, hrun, hmark, hiff.mpr (by decide)⟩

/-- The first binding is dropped, and an exception is raised for the second one: both are still
reachable, but only one of them is counted. -/
theorem filterMapInplace_miscounts : Sized pairTable ∧ ∃ h',
    filterMapInplace (σ := Unit) (ε := Unit)
      (fun s k _ => (s, if k = 1 then .ok none else .error ())) () pairTable =
        some ((), h', .error ()) ∧
      h'.size = 1 ∧ ∃ chains, Reaches h' chains ∧ count chains h'.data.length = 2 :=
  ⟨⟨_, reaches_pair rfl rfl, rfl⟩, _, rfl, rfl, _, reaches_pair rfl rfl, rfl⟩

end TravLang.Hashtbl
