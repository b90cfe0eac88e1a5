import TravLang.Lambda.Switch.Basic
import TravLang.Lib.Segmentation
import Mathlib.Tactic.Linarith

/-!
# Clusters of cases

`comp_clusters` is a dynamic program: it fills two arrays with the least number of clusters of each
initial part of the cases, and with the first case of the last cluster. Here the test of density is
any function on ranges of cases that holds of single cases. `make_clusters` walks back along the
second array.
-/

namespace TravLang.Switch

open Result Segmentation List

/-! ## Integers and arrays -/

theorem wrap_of_range {W : Nat} (hW : 0 < W) {z : Int} (h1 : minInt W ≤ z)
    (h2 : z ≤ maxInt W) : wrap W z = z := by
  have hpow : 2 ^ (W - 1) * 2 = 2 ^ W := Nat.two_pow_pred_mul_two hW
  have hpos : 0 < 2 ^ (W - 1) := Nat.two_pow_pos _
  have hcast : ((2 ^ (W - 1) : Nat) : Int) = 2 ^ (W - 1) := by push_cast; rfl
  unfold minInt at h1
  unfold maxInt at h2
  refine Int.bmod_eq_of_le_mul_two ?_ ?_ <;> omega

section

variable {α : Type} {a : List α} {x : α}

theorem set_natCast {i : Nat} (h : i < a.length) :
    set a (i : Int) x = .ok (a.set i x) := by
  simp [set, h]

theorem get_set_self {i : Int} (h0 : 0 ≤ i) (hi : i < a.length) :
    get (a.set i.toNat x) i = .ok x := by
  rw [get, if_pos h0, List.getElem?_set_self (by omega)]

theorem get_set_ne {i : Nat} {j : Int} (h : j ≠ i) : get (a.set i x) j = get a j := by
  unfold get
  split
  · rw [List.getElem?_set_ne (by omega)]
  · rfl

theorem set_eq {i : Int} (h0 : 0 ≤ i) (hi : i < a.length) : set a i x = .ok (a.set i.toNat x) := by
  rw [set, if_pos ⟨h0, by omega⟩]

end

variable {β : Type} {I : Int → β → Prop} {f : β → Int → Except Exn β} {n t i u : Int} {l : List Nat}
  {W len : Nat} {dense : Int → Int → Bool} {c : Clustering}

/-- A loop `for i = low to high`. `I i` holds before the round of `i`. -/
theorem forRange_rule (low high : Int) {b : β} (hle : low ≤ high + 1) (h0 : I low b)
    (hstep : ∀ i b, low ≤ i → i ≤ high → I i b → ∃ b', f b i = .ok b' ∧ I (i + 1) b') :
    ∃ b', (forRange low high).foldlM f b = .ok b' ∧ I (high + 1) b' := by
  obtain ⟨b', hrun, hb'⟩ := foldlM_range' (f := fun b (k : Nat) => f b (low + k))
    (I := fun k b => I (low + k) b) 0 (high + 1 - low).toNat (b := b) (by simpa using h0)
    fun k b _ hk hb => by
      obtain ⟨b', hf, hb'⟩ := hstep (low + k) b (by omega) (by omega) hb
      exact ⟨b', hf, by rwa [Nat.cast_succ, ← add_assoc]⟩
  refine ⟨b', by rw [forRange, foldlM_map, List.range_eq_range', hrun], ?_⟩
  rwa [show low + ((0 + (high + 1 - low).toNat : Nat) : Int) = high + 1 by omega] at hb'

theorem forRange_succ (n : Nat) : forRange 0 n = forRange 0 ((n : Int) - 1) ++ [(n : Int)] := by
  unfold forRange
  rw [show ((n : Int) + 1 - 0).toNat = n + 1 by omega,
    show ((n : Int) - 1 + 1 - 0).toNat = n by omega, range_succ, map_append]
  simp

/-- A loop `for i = n - 1 downto 0`. `I (i + 1)` holds before the round of `i`. -/
theorem forRange_reverse_rule :
    ∀ (n : Nat) {b : β}, I n b →
    (∀ (i : Int) b, 0 ≤ i → i < n → I (i + 1) b → ∃ b', f b i = .ok b' ∧ I i b') →
    ∃ b', (forRange 0 ((n : Int) - 1)).reverse.foldlM f b = .ok b' ∧ I 0 b'
  | 0, b, h0, _ => ⟨b, rfl, h0⟩
  | n + 1, b, h0, hstep => by
    obtain ⟨b', hf, hb'⟩ := hstep n b (by omega) (by omega) (by exact_mod_cast h0)
    obtain ⟨b'', hrun, hb''⟩ := forRange_reverse_rule n hb' fun i b hi hlt =>
      hstep i b hi (by omega)
    refine ⟨b'', ?_, hb''⟩
    rw [show ((n + 1 : Nat) : Int) - 1 = n by omega, forRange_succ, reverse_append,
      reverse_singleton, singleton_append, foldlM_cons, hf, ok_bind, hrun]

/-! ## The arrays of `comp_clusters` -/

/-- The number of clusters of the first `n` cases that an array gives -/
def cost (minClusters : List Nat) (n : Int) : Nat :=
  if n ≤ 0 then 0 else minClusters.getD (n - 1).toNat 0

theorem getMin_eq (hn : n ≤ l.length) :
    getMin l (n - 1) = .ok (cost l n) := by
  unfold getMin cost
  by_cases h0 : n ≤ 0
  · rw [if_pos (by omega), if_pos h0]
  · have hlt : (n - 1).toNat < l.length := by omega
    rw [if_neg (by omega), if_neg h0, get, if_pos (by omega), List.getD_eq_getElem?_getD,
      List.getElem?_eq_getElem hlt, Option.getD_some]

theorem get_eq_cost {i : Int} (h0 : 0 ≤ i) (hi : i < l.length) :
    get l i = .ok (cost l (i + 1)) := by
  have h := getMin_eq (l := l) (n := i + 1) (by omega)
  rwa [Int.add_sub_cancel, getMin, if_neg (by omega)] at h

theorem cost_set {i : Nat} (hi : i < l.length) (v : Nat) (n : Int) :
    cost (l.set i v) n = if n = i + 1 then v else cost l n := by
  unfold cost
  by_cases hn : n = i + 1
  · subst hn
    rw [if_neg (by omega), if_pos rfl, Int.add_sub_cancel, Int.toNat_natCast,
      List.getD_eq_getElem?_getD, List.getElem?_set_self hi, Option.getD_some]
  · rw [if_neg hn]
    split
    · rfl
    · rw [List.getD_eq_getElem?_getD, List.getElem?_set_ne (by omega), ← List.getD_eq_getElem?_getD]

theorem cost_replicate {len v : Nat} (h0 : 0 < n) (hn : n ≤ len) :
    cost (List.replicate len v) n = v := by
  rw [cost, if_neg (by omega), List.getD_eq_getElem?_getD,
    List.getElem?_replicate_of_lt (by omega), Option.getD_some]

section

variable (W : Nat) (dense : Int → Int → Bool) (len : Nat)

/-- The arrays are right for the first `t` cases. -/
structure Filled (t : Int) (c : Clustering) : Prop where
  lengthMin : c.minClusters.length = len
  lengthK : c.k.length = len
  least : ∀ n, 0 ≤ n → n ≤ t → IsLeastCut (fun i j => dense i j) n (cost c.minClusters n)
  back : ∀ j, 0 ≤ j → j < t → ∃ i, get c.k j = .ok i ∧ 0 ≤ i ∧ i ≤ j ∧ dense i j ∧
    cost c.minClusters (j + 1) = cost c.minClusters i + 1

/-- While the last cluster that ends at `i` is searched for, among those that start before `u` -/
structure Searching (i u : Int) (c : Clustering) : Prop extends Filled dense len i c where
  best : (cost c.minClusters (i + 1) = maxInt W ∧ ∀ j, 0 ≤ j → j < u → dense j i = false) ∨
    ∃ j, get c.k i = .ok j ∧ 0 ≤ j ∧ j < u ∧ dense j i ∧
      cost c.minClusters (i + 1) = cost c.minClusters j + 1 ∧
      ∀ j', 0 ≤ j' → j' < u → dense j' i → cost c.minClusters j ≤ cost c.minClusters j'
  rest : ∀ n, i + 1 < n → n ≤ len → cost c.minClusters n = maxInt W

end

/-- A new entry in the row of `i` -/
theorem Filled.set (h : Filled dense len i c) (h0 : 0 ≤ i) (hi : i < len) (v : Nat) (j : Int) :
    Filled dense len i ⟨c.minClusters.set i.toNat v, c.k.set i.toNat j⟩ := by
  have hcost : ∀ n ≤ i, cost (c.minClusters.set i.toNat v) n = cost c.minClusters n := by
    intro n hn
    rw [cost_set (by rw [h.lengthMin]; omega), if_neg (by omega)]
  refine ⟨by rw [length_set, h.lengthMin], by rw [length_set, h.lengthK], ?_, ?_⟩
  · intro n hn0 hn
    rw [hcost n hn]
    exact h.least n hn0 hn
  · intro j' hj0 hj
    obtain ⟨i', hget, hi0, hij, hd, hback⟩ := h.back j' hj0 hj
    refine ⟨i', ?_, hi0, hij, hd, by rw [hcost _ (by omega), hcost _ (by omega), hback]⟩
    rw [get_set_ne (by omega), hget]

section

variable (hone : ∀ i : Int, 0 ≤ i → i < len → dense i i = true)

include hone

theorem Filled.cost_le (h : Filled dense len i c) (hi : i < len) (hn0 : 0 ≤ n)
    (hn : n ≤ i) : (cost c.minClusters n : Int) ≤ n := by
  have hleast := h.least n hn0 hn
  obtain ⟨n, rfl⟩ := Int.eq_ofNat_of_zero_le hn0
  exact Int.ofNat_le.mpr (hleast.le_self fun j hj0 hj => hone j hj0 (by omega))

/-- One round of the inner loop -/
theorem clusterStep_searching (hlen : len < maxInt W) (hi : i < len) (hu0 : 0 ≤ u) (hu : u ≤ i)
    (h : Searching W dense len i u c) :
    ∃ c', clusterStep (m := Except Exn) (fun i j => .ok (dense i j)) i c u = .ok c' ∧
      Searching W dense len i (u + 1) c' := by
  have hmin : getMin c.minClusters (u - 1) = .ok (cost c.minClusters u) :=
    getMin_eq (by rw [h.lengthMin]; omega)
  have hrow : get c.minClusters i = .ok (cost c.minClusters (i + 1)) :=
    get_eq_cost (by omega) (by rw [h.lengthMin]; omega)
  have hle := h.cost_le hone hi hu0 hu
  have hrun : clusterStep (m := Except Exn) (fun i j => .ok (dense i j)) i c u =
      if dense u i then
        if cost c.minClusters u + 1 < cost c.minClusters (i + 1) then
          .ok ⟨c.minClusters.set i.toNat (cost c.minClusters u + 1), c.k.set i.toNat u⟩
        else .ok c
      else .ok c := by
    have hset1 : set c.minClusters i (cost c.minClusters u + 1) = .ok _ :=
      set_eq (by omega) (by rw [h.lengthMin]; omega)
    have hset2 : set c.k i u = .ok _ := set_eq (by omega) (by rw [h.lengthK]; omega)
    unfold clusterStep
    rw [ok_bind, hmin, hrow]
    cases dense u i with
    | false => rfl
    | true =>
      show (if cost c.minClusters u + 1 < cost c.minClusters (i + 1) then _ else _) = _
      split
      · rw [hset1, hset2]
        rfl
      · rfl
  rw [hrun]
  split
  · next hd =>
    split
    · next hlt =>
      have hcost : ∀ n, cost (c.minClusters.set i.toNat (cost c.minClusters u + 1)) n =
          if n = i + 1 then cost c.minClusters u + 1 else cost c.minClusters n := by
        intro n
        rw [cost_set (by rw [h.lengthMin]; omega), Int.toNat_of_nonneg (by omega)]
      refine ⟨_, rfl, { h.toFilled.set (by omega) hi _ u with best := .inr ?_, rest := ?_ }⟩
      · refine ⟨u, get_set_self (by omega) (by rw [h.lengthK]; omega), hu0, by omega, hd, ?_, ?_⟩
        · rw [hcost, hcost, if_pos rfl, if_neg (by omega)]
        · intro j hj0 hj hdj
          rw [hcost, hcost, if_neg (by omega), if_neg (by omega)]
          by_cases hju : j = u
          · rw [hju]
          · rcases h.best with ⟨_, hnone⟩ | ⟨j₀, _, _, _, _, heq, hbest⟩
            · rw [hnone j hj0 (by omega)] at hdj
              cases hdj
            · have := hbest j hj0 (by omega) hdj
              omega
      · intro n hn hnlen
        rw [hcost, if_neg (by omega), h.rest n hn hnlen]
    · next hge =>
      refine ⟨_, rfl, { h with best := ?_ }⟩
      rcases h.best with ⟨hmax, _⟩ | ⟨j₀, hget, hj₀, hlt, hd₀, heq, hbest⟩
      · omega
      · refine .inr ⟨j₀, hget, hj₀, by omega, hd₀, heq, fun j hj0 hj hdj => ?_⟩
        by_cases hju : j = u
        · subst hju
          omega
        · exact hbest j hj0 (by omega) hdj
  · next hd =>
    have hne : ∀ j, dense j i = true → j ≠ u := fun j hdj hju => hd (hju ▸ hdj)
    refine ⟨_, rfl, { h with best := ?_ }⟩
    rcases h.best with ⟨hmax, hnone⟩ | ⟨j₀, hget, hj₀, hlt, hd₀, heq, hbest⟩
    · refine .inl ⟨hmax, fun j hj0 hj => ?_⟩
      by_cases hju : j = u
      · rw [hju]
        exact Bool.eq_false_iff.mpr hd
      · exact hnone j hj0 (by omega)
    · refine .inr ⟨j₀, hget, hj₀, by omega, hd₀, heq, fun j hj0 hj hdj => ?_⟩
      have := hne j hdj
      exact hbest j hj0 (by omega) hdj

/-- The row of `i` is right when all clusters that end there have been tried. -/
theorem Searching.filled (h : Searching W dense len i (i + 1) c) (h0 : 0 ≤ i) (hi : i < len) :
    Filled dense len (i + 1) c := by
  rcases h.best with ⟨_, hnone⟩ | ⟨j, hget, hj0, hji, hd, hcost, hbest⟩
  · exact absurd (hone i h0 hi) (by rw [hnone i h0 (by omega)]; exact Bool.false_ne_true)
  · refine { h with least := fun n hn0 hn => ?_, back := fun j' hj0' hj' => ?_ }
    · by_cases hni : n = i + 1
      · rw [hni, hcost]
        exact isLeastCut_succ h.least hj0 (by omega) hd fun j' hj0' hj' => hbest j' hj0' (by omega)
      · exact h.least n hn0 (by omega)
    · by_cases hji' : j' = i
      · subst hji'
        exact ⟨j, hget, hj0, by omega, hd, hcost⟩
      · exact h.back j' hj0' (by omega)

/-- **The rows of the arrays, one after the other** -/
theorem compClusters_filled (hlen0 : 0 < len) (hlen : len < maxInt W) :
    ∃ c, compClusters W (m := Except Exn) (fun i j => .ok (dense i j)) len =
      .ok (cost c.minClusters len, c.k) ∧ Filled dense len len c := by
  have hrows := forRange_rule 0 ((len : Int) - 1)
    (f := fun c i => (forRange 0 i).foldlM
      (clusterStep (m := Except Exn) (fun i j => .ok (dense i j)) i) c)
    (b := ⟨List.replicate len (maxInt W), List.replicate len 0⟩)
    (I := fun t c => Filled dense len t c ∧
      ∀ n, t < n → n ≤ len → cost c.minClusters n = maxInt W) (by omega) ?_ ?_
  · obtain ⟨c, hrun, hfilled, _⟩ := hrows
    rw [Int.sub_add_cancel] at hfilled
    refine ⟨c, ?_, hfilled⟩
    have hget : get c.minClusters ((len : Int) - 1) = .ok (cost c.minClusters len) := by
      rw [get_eq_cost (by omega) (by rw [hfilled.lengthMin]; omega), Int.sub_add_cancel]
    unfold compClusters
    rw [hrun, ok_bind, hget]
    rfl
  · refine ⟨⟨length_replicate, length_replicate, fun n hn0 hn => ?_,
      fun j hj0 hj => by omega⟩, fun n hn hnlen => cost_replicate hn hnlen⟩
    obtain rfl : n = 0 := by omega
    exact isLeastCut_zero
  · intro i c hi0 hi ⟨hfilled, hrest⟩
    obtain ⟨c', hrun, hsearch⟩ := forRange_rule 0 i
      (f := clusterStep (m := Except Exn) (fun i j => .ok (dense i j)) i)
      (I := fun u c => Searching W dense len i u c) (b := c) (by omega)
      { hfilled with
        best := .inl ⟨hrest _ (by omega) (by omega), fun j hj0 hj => by omega⟩
        rest := fun n hn hnlen => hrest n (by omega) hnlen }
      fun u c hu0 hu h => clusterStep_searching hone hlen (by omega) hu0 hu h
    exact ⟨c', hrun, hsearch.filled hone hi0 (by omega), hsearch.rest⟩

end

/-! ## Following the array `k` -/

/-- The ranges that are found from the case `j` back to the first one; the depth bounds the
recursion. -/
def ranges (k : List Int) : Nat → Int → Except Exn (List (Int × Int))
  | 0, _ => .error .depthBound
  | depth + 1, j => do
    let i ← get k j
    if i > 0 then return (i, j) :: (← ranges k depth (i - 1)) else return [(i, j)]

theorem Filled.ranges (h : Filled dense len t c) : ∀ (depth : Nat) (j : Int), 0 ≤ j → j < t →
    j < depth → ∃ p, ranges c.k depth j = .ok p ∧ Cut (fun i j => dense i j) (j + 1) p ∧
      p.length = cost c.minClusters (j + 1)
  | 0, j, hj0, _, hdepth => by omega
  | depth + 1, j, hj0, hj, hdepth => by
    obtain ⟨i, hget, hi0, hij, hd, hcost⟩ := h.back j hj0 hj
    rw [Switch.ranges, hget, ok_bind, hcost]
    by_cases hi : i > 0
    · obtain ⟨p, hp, hcut, hlen⟩ := Filled.ranges h depth (i - 1) (by omega) (by omega) (by omega)
      rw [Int.sub_add_cancel] at hcut hlen
      rw [if_pos hi, hp]
      exact ⟨(i, j) :: p, rfl, .cons hij hd hcut, by rw [length_cons, hlen]⟩
    · obtain rfl : i = 0 := by omega
      rw [if_neg hi]
      exact ⟨[(0, j)], rfl, .cons hij hd .nil, rfl⟩

section

variable {A : S} {loc : A.Loc} {s : Inter A.Act} {k : List Int} {b : Building A}
  {p : List (Int × Int)}

/-- `make_clusters` fills one slot for each of these ranges, in this order and downwards. -/
theorem makeClustersFrom_eq_foldlM (W : Nat) (loc : A.Loc) (s : Inter A.Act) (ir : Int) :
    ∀ (depth : Nat) (j : Int) (p : List (Int × Int)) (n : Nat) (b : Building A),
    ranges k depth j = .ok p →
    makeClustersFrom W loc s k depth j (ir - n) b =
      (p.zipIdx n).foldlM (fun b x => addCluster W loc s x.1.1 x.1.2 (ir - x.2) b) b
  | 0, _, _, _, _, h => nomatch h
  | depth + 1, j, p, n, b, h => by
    rw [ranges] at h
    obtain ⟨i, hget, hp⟩ := bind_eq_ok.mp h
    rw [makeClustersFrom, hget, ok_bind]
    by_cases hi : i > 0
    · rw [if_pos hi] at hp
      obtain ⟨p', hp', heq⟩ := bind_eq_ok.mp hp
      obtain rfl : (i, j) :: p' = p := Except.ok.inj heq
      rw [zipIdx_cons, foldlM_cons]
      refine bind_congr fun b' => ?_
      rw [if_pos hi, ← makeClustersFrom_eq_foldlM W loc s ir depth (i - 1) p' (n + 1) b' hp']
      congr 1
      omega
    · rw [if_neg hi] at hp
      obtain rfl : [(i, j)] = p := Except.ok.inj hp
      rw [zipIdx_cons, foldlM_cons]
      refine bind_congr fun b' => ?_
      rw [if_neg hi]
      rfl

/-- The indices of the actions are below `index`. -/
def Indexed (b : Building A) : Prop := ∀ p ∈ b.t, p.2.1 < b.index

theorem getIndex_spec (actions : List A.Act) (hb : Indexed b) (act : Nat) :
    (b.getIndex actions act).2.r = b.r ∧ Indexed (b.getIndex actions act).2 := by
  unfold Building.getIndex
  split
  · exact ⟨rfl, hb⟩
  · refine ⟨rfl, forall_mem_cons.mpr ⟨Nat.lt_succ_self _, fun p hp => ?_⟩⟩
    exact Nat.lt_succ_of_lt (hb p hp)

theorem addIndex_spec (hb : Indexed b) (act : Ctx A → M A.Act) :
    (b.addIndex act).2.r = b.r ∧ Indexed (b.addIndex act).2 :=
  ⟨rfl, forall_mem_cons.mpr ⟨Nat.lt_succ_self _, fun p hp => Nat.lt_succ_of_lt (hb p hp)⟩⟩

theorem exists_get {α : Type} {a : List α} (h0 : 0 ≤ i) (hi : i < a.length) :
    ∃ x, get a i = .ok x := by
  rw [get, if_pos h0, List.getElem?_eq_getElem (by omega)]
  exact ⟨_, rfl⟩

/-- One cluster goes into its slot. -/
theorem addCluster_ok {i j : Int} {ir : Nat} (hi : 0 ≤ i ∧ i < s.cases.length)
    (hj : 0 ≤ j ∧ j < s.cases.length) (htable : i ≠ j → ∃ f, makeSwitch W loc s i j = .ok f)
    (hir : ir < b.r.length) (hb : Indexed b) :
    ∃ l h a b', addCluster W loc s i j ir b = .ok b' ∧ getLow s.cases i = .ok l ∧
      getHigh s.cases j = .ok h ∧ b'.r = b.r.set ir (l, h, a) ∧ Indexed b' := by
  obtain ⟨⟨l, hl, act⟩, hgeti⟩ := exists_get hi.1 hi.2
  obtain ⟨⟨lh, h, acth⟩, hgetj⟩ := exists_get hj.1 hj.2
  have hlow : getLow s.cases i = .ok l := by rw [getLow, hgeti]; rfl
  have hhigh : getHigh s.cases j = .ok h := by rw [getHigh, hgetj]; rfl
  by_cases hij : i = j
  · subst hij
    obtain rfl : hl = h := by cases hgeti.symm.trans hgetj; rfl
    obtain ⟨hr, hindexed⟩ := getIndex_spec s.actions hb act
    refine ⟨l, hl, (b.getIndex s.actions act).1, { (b.getIndex s.actions act).2 with
      r := b.r.set ir (l, hl, (b.getIndex s.actions act).1) }, ?_, hlow, hhigh, rfl, hindexed⟩
    rw [addCluster, if_pos rfl, hgeti, ok_bind]
    simp only [hr]
    rw [set_natCast hir]
    rfl
  · obtain ⟨f, hf⟩ := htable hij
    obtain ⟨hr, hindexed⟩ := addIndex_spec hb f
    refine ⟨l, h, (b.addIndex f).1, { (b.addIndex f).2 with
      r := b.r.set ir (l, h, (b.addIndex f).1) }, ?_, hlow, hhigh, rfl, hindexed⟩
    rw [addCluster, if_neg hij, hlow, ok_bind, hhigh, ok_bind, hf, ok_bind]
    simp only [hr]
    rw [set_natCast hir]
    rfl

/-- The slot of a range holds its bounds; `x.2` counts the slots from the last one on. -/
def SlotFilled (s : Inter A.Act) (r : Cases) (x : (Int × Int) × Nat) : Prop :=
  ∃ l h a, r[r.length - 1 - x.2]? = some (l, h, a) ∧ getLow s.cases x.1.1 = .ok l ∧
    getHigh s.cases x.1.2 = .ok h

theorem addClusters_ok (hbounds : ∀ r ∈ p, 0 ≤ r.1 ∧ r.1 ≤ r.2 ∧ r.2 < s.cases.length)
    (htables : ∀ r ∈ p, r.1 ≠ r.2 → ∃ f, makeSwitch W loc s r.1 r.2 = .ok f)
    (hlen : b.r.length = p.length) (hb : Indexed b) :
    ∃ b', p.zipIdx.foldlM
        (fun b x => addCluster W loc s x.1.1 x.1.2 ((p.length : Int) - 1 - x.2) b) b = .ok b' ∧
      b'.r.length = p.length ∧ Indexed b' ∧ ∀ x ∈ p.zipIdx, SlotFilled s b'.r x := by
  refine foldlM_rule (I := fun done b => b.r.length = p.length ∧ Indexed b ∧
    ∀ x ∈ done, SlotFilled s b.r x) ?_ ⟨hlen, hb, nofun⟩
  rintro done ⟨r, n⟩ rest b hl ⟨hlenb, hindexed, hdone⟩
  have hmem : (r, n) ∈ p.zipIdx := hl ▸ mem_append_right done mem_cons_self
  obtain ⟨hn, hr⟩ := List.mem_zipIdx' hmem
  obtain ⟨h0, hle, hlt⟩ := hbounds r (fst_mem_of_mem_zipIdx hmem)
  have hslot : ((p.length : Int) - 1 - n) = ((p.length - 1 - n : Nat) : Int) := by omega
  -- the slots that are already filled lie above this one
  have habove : ∀ x ∈ done, x.2 < n := by
    have hpairs : p.zipIdx.Pairwise fun x y => x.2 < y.2 := by
      rw [← pairwise_map, zipIdx_map_snd]
      exact List.pairwise_lt_range'
    rw [hl] at hpairs
    exact fun x hx => (pairwise_append.mp hpairs).2.2 x hx (r, n) mem_cons_self
  obtain ⟨l, h, a, b', hrun, hlow, hhigh, hset, hindexed'⟩ :=
    addCluster_ok ⟨h0, by omega⟩ ⟨by omega, hlt⟩ (htables r (fst_mem_of_mem_zipIdx hmem))
      (show p.length - 1 - n < b.r.length by omega) hindexed
  have hlen' : b'.r.length = b.r.length := by rw [hset, length_set]
  refine ⟨b', by rw [hslot]; exact hrun, by rw [hlen', hlenb], hindexed', ?_⟩
  intro x hx
  rcases mem_append.mp hx with hx | hx
  · obtain ⟨l', h', a', hget, hlow', hhigh'⟩ := hdone x hx
    refine ⟨l', h', a', ?_, hlow', hhigh'⟩
    have := habove x hx
    rw [hlen', hset, List.getElem?_set_ne (by omega), hget]
  · obtain rfl := mem_singleton.mp hx
    refine ⟨l, h, a, ?_, hlow, hhigh⟩
    rw [hlen', hset, hlenb, List.getElem?_set_self (by omega)]

/-- `make_clusters` succeeds if the jump tables can be built. -/
theorem makeClusters_ok (hp : ranges k s.cases.length ((s.cases.length : Int) - 1) = .ok p)
    (hbounds : ∀ r ∈ p, 0 ≤ r.1 ∧ r.1 ≤ r.2 ∧ r.2 < s.cases.length)
    (htables : ∀ r ∈ p, r.1 ≠ r.2 → ∃ f, makeSwitch W loc s r.1 r.2 = .ok f) :
    ∃ clusters, makeClusters W loc s p.length k = .ok clusters ∧
      clusters.cases.length = p.length ∧ ∀ x ∈ p.zipIdx, SlotFilled s clusters.cases x := by
  obtain ⟨b, hrun, hlen, hindexed, hslots⟩ := addClusters_ok
    (b := ⟨List.replicate p.length (0, 0, 0), [], 0, s.actions.length⟩) hbounds htables
    length_replicate nofun
  have hfrom := makeClustersFrom_eq_foldlM W loc s ((p.length : Int) - 1)
    s.cases.length ((s.cases.length : Int) - 1) p 0
    ⟨List.replicate p.length (0, 0, 0), [], 0, s.actions.length⟩ hp
  rw [hrun, Nat.cast_zero, Int.sub_zero] at hfrom
  obtain ⟨acts, hacts, _⟩ := foldlM_inv (l := b.t)
    (f := fun acts p => set acts (p.2.1 : Int) p.2.2)
    (I := fun (acts : List (Ctx A → M A.Act)) => acts.length = b.index)
    (b := List.replicate b.index fun _ => throw .assertFailure)
    (fun q hq acts hlen => ⟨_, set_natCast (by rw [hlen]; exact hindexed q hq),
      by rw [length_set, hlen]⟩) length_replicate
  refine ⟨⟨b.r, acts⟩, ?_, hlen, hslots⟩
  unfold makeClusters
  simp only [make]
  rw [if_pos (by omega), ok_bind, Int.toNat_natCast, hfrom, ok_bind, if_pos (by omega), ok_bind,
    Int.toNat_natCast, hacts]
  rfl

end

end TravLang.Switch
