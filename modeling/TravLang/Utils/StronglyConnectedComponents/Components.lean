import TravLang.Stdlib.Map.Refinement
import TravLang.Utils.StronglyConnectedComponents.Kosaraju

/-!
# The component graph

`component_graph` numbers the nodes of a map, runs Kosaraju's algorithm on the numbers and names
the components again.
-/

namespace TravLang.StronglyConnectedComponents

open List
open DepthFirst (Reach Mutual)

/-! ## Arrays -/

variable {β κ : Type} {a : List β} {i n : Nat} {cmp : κ → κ → Int} {graph : DirectedGraph κ}
  {num : Numbering κ}

theorem get_natCast {b : β} (h : a[i]? = some b) :
    get a (i : Int) = .ok b := by
  simp [get, h]

theorem set_natCast (h : i < a.length) (b : β) :
    set a (i : Int) b = .ok (a.set i b) := by
  simp [set, h]

theorem arrayInit_ok {f : Fin n → Except Exn (List β)} {h : Fin n → List β}
    (hf : ∀ i, f i = .ok (h i)) : arrayInit f = .ok h := by
  have hstep : ∀ (a : Fin n → List β) (i : Fin n),
      (do return Function.update a i (← f i)) =
        (Except.ok (Function.update a i (h i)) : Except Exn (Fin n → List β)) := by
    intro a i
    rw [hf]
    rfl
  rw [arrayInit, Result.foldlM_eq_ok hstep]
  congr 1
  have hfold : ∀ (l : List (Fin n)) (a : Fin n → List β) (i : Fin n),
      l.foldl (fun a i => Function.update a i (h i)) a i = if i ∈ l then h i else a i := by
    intro l
    induction l with
    | nil => simp
    | cons j l ih =>
      intro a i
      rw [foldl_cons, ih]
      by_cases hij : i = j
      · simp [hij]
      · simp [hij]
  funext i
  rw [hfold, if_pos (mem_finRange i)]

/-! ## Collecting the components -/

namespace Kosaraju

variable {n : Nat} {components : Fin n → Int}

theorem mem_addComponentDep {graph : Graph n} {node : Fin n} {e : Int} :
    ∀ {s : Finset Int}, e ∈ addComponentDep graph components node s ↔
      (∃ dep ∈ graph node, components dep = e) ∨ e ∈ s := by
  unfold addComponentDep
  induction graph node with
  | nil => simp
  | cons dep deps ih =>
    intro s
    rw [foldl_cons, ih]
    simp only [Finset.mem_insert, mem_cons, exists_eq_or_imp]
    rw [eq_comm (a := e) (b := components dep)]
    exact or_left_comm.trans or_assoc.symm

/-- The arrays of `component_graph` after the nodes `l`. -/
structure Collected (graph : Graph n) (components : Fin n → Int) (ncomponents : Nat)
    (l : List (Fin n)) (st : List (List (Fin n)) × List (Finset Int)) : Prop where
  length_fst : st.1.length = ncomponents
  length_snd : st.2.length = ncomponents
  nodes : ∀ c < ncomponents,
    st.1[c]? = some (l.filter fun v => components v = c).reverse
  edges : ∀ c < ncomponents, ∃ s, st.2[c]? = some s ∧
    ∀ e, e ∈ s ↔ ∃ v ∈ l, components v = c ∧ ∃ w ∈ graph v, components w = e

theorem collected_start (graph : Graph n) (components : Fin n → Int) (ncomponents : Nat) :
    Collected graph components ncomponents []
      (List.replicate ncomponents [], List.replicate ncomponents ∅) where
  length_fst := by simp
  length_snd := by simp
  nodes := by
    intro c hc
    simp [hc]
  edges := by
    intro c hc
    exact ⟨∅, by simp [hc], by simp⟩

theorem Collected.step {graph : Graph n} {ncomponents : Nat} {l : List (Fin n)}
    {st : List (List (Fin n)) × List (Finset Int)} (h : Collected graph components ncomponents l st)
    (v : Fin n) (hv : 0 ≤ components v ∧ components v < ncomponents) :
    ∃ st', componentStep graph components st v = .ok st' ∧
      Collected graph components ncomponents (l ++ [v]) st' := by
  obtain ⟨c, hc⟩ : ∃ c : Nat, components v = c := ⟨_, (Int.toNat_of_nonneg hv.1).symm⟩
  have hlt : c < ncomponents := by omega
  have hnodes := h.nodes c hlt
  obtain ⟨s, hs, hmem⟩ := h.edges c hlt
  refine ⟨(st.1.set c (v :: (l.filter fun v => components v = c).reverse),
    st.2.set c (addComponentDep graph components v s)), ?_, ?_⟩
  · rw [componentStep, hc, get_natCast hnodes, get_natCast hs]
    simp only [Result.ok_bind]
    rw [set_natCast (by rw [h.length_fst]; exact hlt),
      set_natCast (by rw [h.length_snd]; exact hlt)]
    rfl
  · refine ⟨by simp [h.length_fst], by simp [h.length_snd], ?_, ?_⟩
    · intro d hd
      by_cases hdc : d = c
      · subst hdc
        rw [List.getElem?_set_self (by rw [h.length_fst]; exact hlt)]
        simp [hc]
      · have hne : components v ≠ d := by omega
        rw [List.getElem?_set_ne (Ne.symm hdc), h.nodes d hd]
        simp [hne]
    · intro d hd
      by_cases hdc : d = c
      · subst hdc
        refine ⟨_, List.getElem?_set_self (by rw [h.length_snd]; exact hlt), fun e => ?_⟩
        rw [mem_addComponentDep, hmem]
        simp only [mem_append, mem_singleton, or_and_right, exists_or,
          exists_eq_left, hc, true_and]
        exact or_comm
      · have hne : components v ≠ d := by omega
        obtain ⟨t, ht, hmemt⟩ := h.edges d hd
        refine ⟨t, by rw [List.getElem?_set_ne (Ne.symm hdc), ht], fun e => ?_⟩
        rw [hmemt]
        simp [or_and_right, exists_or, hne]

/-- **The component graph of the numbered nodes.** -/
theorem componentGraph_spec (graph : Graph n) :
    ∃ (cg : ComponentGraph n) (ncomponents : Nat) (components : Fin n → Int),
      componentGraph graph = .ok cg ∧
      cg.sortedConnectedComponents.length = ncomponents ∧
      (∀ v, 0 ≤ components v ∧ components v < ncomponents) ∧
      (∀ v w, components v = components w ↔ Mutual graph v w) ∧
      (∀ v w, w ∈ graph v → components v ≤ components w) ∧
      (∀ c < ncomponents, ∃ v, components v = c) ∧
      (∀ c < ncomponents, cg.sortedConnectedComponents[c]? =
        some ((List.finRange n).filter fun v => components v = c).reverse) ∧
      ∀ c < ncomponents, ∃ edges, cg.componentEdges[c]? = some edges ∧
        edges.Pairwise (· < ·) ∧
        ∀ e, e ∈ edges ↔ ∃ v, components v = c ∧ ∃ w ∈ graph v, components w = e := by
  obtain ⟨ncomponents, components, hk, hrange, hsame, htop, hused⟩ := kosaraju_spec graph
  obtain ⟨st, hst, hcol⟩ := Result.foldlM_rule (l := List.finRange n)
    (I := Collected graph components ncomponents) (fun _ v _ _ _ h => h.step v (hrange v))
    (collected_start graph components ncomponents)
  refine ⟨⟨st.1, st.2.map fun s => s.sort⟩, ncomponents, components, ?_, hcol.length_fst, hrange,
    hsame, htop, hused, hcol.nodes, ?_⟩
  · simp only [componentGraph, hk, Result.ok_bind, hst, Result.pure_eq_ok]
  · intro c hc
    obtain ⟨s, hs, hmem⟩ := hcol.edges c hc
    refine ⟨s.sort, by simp [hs], (Finset.sortedLT_sort s).pairwise, fun e => ?_⟩
    rw [Finset.mem_sort, hmem]
    simp

end Kosaraju

/-! ## Numbering the nodes -/

def nodes (graph : DirectedGraph κ) : List κ := (Map.bindings graph).map Prod.fst

/-- There is an edge from `a` to `b`. -/
def Edge (graph : DirectedGraph κ) (a b : κ) : Prop :=
  ∃ dests, (a, dests) ∈ Map.bindings graph ∧ b ∈ dests.toList

theorem nodes_nodup (ho : SortedAssoc.TotalOrder cmp) (hw : Map.WellFormed cmp graph) :
    (nodes graph).Nodup := by
  have hsorted : SortedAssoc.Sorted cmp (Map.bindings graph) := (Map.bindings_spec ho hw).1
  rw [nodes, List.Nodup, pairwise_map]
  refine List.Pairwise.imp ?_ hsorted
  intro a b hlt heq
  rw [heq, ho.self] at hlt
  omega

/-- The map `back` after the nodes `l`. -/
def Numbers (cmp : κ → κ → Int) {n : Nat} (forth : Fin n → κ) (l : List (Fin n))
    (back : Map.T κ (Fin n)) : Prop :=
  Map.WellFormed cmp back ∧ (∀ i ∈ l, Map.findOpt cmp (forth i) back = some i) ∧
    ∀ k i, Map.findOpt cmp k back = some i → forth i = k

theorem back_spec (ho : SortedAssoc.TotalOrder cmp) {forth : Fin n → κ}
    (hinj : Function.Injective forth) (phys : Nat → Map.PhysEq) (l : List (Fin n)) :
    ∃ back, l.foldlM (fun back (i : Fin n) => Map.add cmp (phys i) (forth i) i back) Map.empty =
        .ok back ∧ Numbers cmp forth l back := by
  refine Result.foldlM_rule (fun l i _ back _ h => ?_)
    ⟨Map.wellFormed_empty, by simp, by simp [Map.empty, Map.findOpt]⟩
  obtain ⟨hw, hl, hk⟩ := h
  obtain ⟨back1, hadd, hw1, hself, hother⟩ := Map.add_findOpt ho hw (phys i) (forth i) i
  refine ⟨back1, hadd, hw1, fun j hj => ?_, fun k j hkj => ?_⟩
  · by_cases hji : j = i
    · rw [hji, hself]
    · rw [hother _ fun heq => hji (hinj heq)]
      exact hl j (by simpa [hji] using hj)
  · by_cases hki : k = forth i
    · rw [hki, hself] at hkj
      cases hkj
      exact hki.symm
    · rw [hother k hki] at hkj
      exact hk k j hkj

/-- The numbers of a set of destinations. -/
theorem fold_addDest (cmp : κ → κ → Int) (print : κ → String) (back : Map.T κ (Fin n))
    (dests : Set.T κ) (hfound : ∀ d ∈ dests.toList, ∃ v, Map.find cmp d back = .ok v) :
    ∃ vs, Set.fold (addDest cmp print back) dests (.ok []) = .ok vs ∧
      ∀ v, v ∈ vs ↔ ∃ d ∈ dests.toList, Map.find cmp d back = .ok v := by
  rw [Set.fold_eq]
  suffices h : ∀ (l : List κ) (acc : List (Fin n)),
      (∀ d ∈ l, ∃ v, Map.find cmp d back = .ok v) →
      ∃ vs, l.foldl (fun acc dest => addDest cmp print back dest acc) (.ok acc) = .ok vs ∧
        ∀ v, v ∈ vs ↔ v ∈ acc ∨ ∃ d ∈ l, Map.find cmp d back = .ok v by
    simpa using h dests.toList [] hfound
  intro l
  induction l with
  | nil =>
    intro acc _
    exact ⟨acc, rfl, by simp⟩
  | cons d l ih =>
    intro acc h
    obtain ⟨v, hv⟩ := h d mem_cons_self
    obtain ⟨vs, hvs, hmem⟩ := ih (v :: acc) fun e he => h e (mem_cons_of_mem _ he)
    have hstep : addDest cmp print back d (.ok acc) = .ok (v :: acc) := by
      rw [addDest, Result.ok_bind, hv]
      rfl
    refine ⟨vs, by rw [foldl_cons, hstep, hvs], fun w => ?_⟩
    rw [hmem]
    simp only [mem_cons, exists_eq_or_imp, hv, Except.ok.injEq]
    rw [eq_comm (a := w) (b := v)]
    exact or_assoc.trans or_left_comm

/-- What `number` computes: a bijection with the nodes that carries edges to edges. -/
structure NumberingOk (graph : DirectedGraph κ) (num : Numbering κ) : Prop where
  injective : Function.Injective num.forth
  mem_nodes : ∀ x, x ∈ nodes graph ↔ ∃ i, num.forth i = x
  edge_iff : ∀ i j, j ∈ num.integerGraph i ↔ Edge graph (num.forth i) (num.forth j)

theorem number_spec (ho : SortedAssoc.TotalOrder cmp) (print : κ → String)
    (phys : Nat → Map.PhysEq) (hw : Map.WellFormed cmp graph)
    (hclosed : ∀ a b, Edge graph a b → b ∈ nodes graph) :
    ∃ num, number cmp print phys graph = .ok num ∧ NumberingOk graph num := by
  let a := Map.bindings graph
  let forth : Fin a.length → κ := fun i => (a.get i).1
  have hnodup : (a.map Prod.fst).Nodup := nodes_nodup ho hw
  have hinj : Function.Injective forth := by
    intro i j hij
    have hget : (a.map Prod.fst).get ⟨i, by simp⟩ = (a.map Prod.fst).get ⟨j, by simp⟩ := by
      simpa [forth] using hij
    exact Fin.ext (Fin.mk.inj_iff.mp (nodup_iff_injective_get.mp hnodup hget))
  have hmem : ∀ x, x ∈ nodes graph ↔ ∃ i, forth i = x := by
    intro x
    constructor
    · intro hx
      obtain ⟨b, hb, rfl⟩ := mem_map.mp hx
      obtain ⟨i, hi⟩ := mem_iff_get.mp hb
      exact ⟨i, by rw [← hi]⟩
    · rintro ⟨i, rfl⟩
      exact mem_map.mpr ⟨a.get i, get_mem a i, rfl⟩
  obtain ⟨back, hback, -, hfind, hkey⟩ := back_spec ho hinj phys (List.finRange a.length)
  have hfound : ∀ d v, Map.find cmp d back = .ok v ↔ forth v = d := by
    intro d v
    rw [Map.find_eq_findOpt]
    constructor
    · intro h
      cases hf : Map.findOpt cmp d back with
      | none =>
        rw [hf] at h
        cases h
      | some w =>
        rw [hf] at h
        cases h
        exact hkey d _ hf
    · rintro rfl
      rw [hfind v (by simp)]
  -- the edges of each node lead to numbered nodes
  have hdests := fun i : Fin a.length => fold_addDest cmp print back (a.get i).2 (by
    intro d hd
    obtain ⟨v, hv⟩ := (hmem d).mp (hclosed (forth i) d ⟨_, get_mem a i, hd⟩)
    exact ⟨v, (hfound d v).mpr hv⟩)
  choose integerGraph hint hgraph using hdests
  refine ⟨⟨a.length, forth, integerGraph⟩, ?_, hinj, hmem, ?_⟩
  · show number cmp print phys graph = _
    unfold number
    dsimp only
    rw [hback]
    show (arrayInit _ >>= _) = _
    rw [arrayInit_ok hint]
    rfl
  · intro i j
    rw [hgraph]
    constructor
    · rintro ⟨d, hd, hv⟩
      show Edge graph (forth i) (forth j)
      rw [(hfound d j).mp hv]
      exact ⟨_, get_mem a i, hd⟩
    · rintro ⟨dests, hdests, hj⟩
      refine ⟨forth j, ?_, (hfound _ j).mpr rfl⟩
      -- the node has one binding only
      obtain ⟨k, hk⟩ := mem_iff_get.mp hdests
      have hki : k = i := hinj (by show (a.get k).1 = forth i; rw [hk])
      rw [← hki, hk]
      exact hj

/-! ## Naming the components -/

def Component.members : Component κ → List κ
  | .hasLoop ids => ids
  | .noLoop id => [id]

theorem nameComponent_spec (hnum : NumberingOk graph num) {componentEdges : List (List Int)}
    {vs : List (Fin num.size)} (hne : vs ≠ []) {c : Nat} {edges : List Int}
    (hedges : componentEdges[c]? = some edges) :
    ∃ comp, nameComponent num componentEdges vs c = .ok (comp, edges) ∧
      comp.members = vs.map num.forth ∧
      ∀ x, comp = .noLoop x ↔ comp.members = [x] ∧ ¬ Edge graph x x := by
  unfold nameComponent
  match vs with
  | [] => exact absurd rfl hne
  | [v] =>
    by_cases hv : v ∈ num.integerGraph v
    · refine ⟨.hasLoop [num.forth v], by simp [get_natCast hedges, hv], rfl, fun x => ?_⟩
      have hloop : Edge graph (num.forth v) (num.forth v) := (hnum.edge_iff v v).mp hv
      constructor
      · intro h
        cases h
      · rintro ⟨hmem, hx⟩
        cases hmem
        exact absurd hloop hx
    · refine ⟨.noLoop (num.forth v), by simp [get_natCast hedges, hv], rfl, fun x => ?_⟩
      have hloop : ¬ Edge graph (num.forth v) (num.forth v) := fun h =>
        hv ((hnum.edge_iff v v).mpr h)
      constructor
      · intro h
        cases h
        exact ⟨rfl, hloop⟩
      · rintro ⟨hmem, -⟩
        cases hmem
        rfl
  | v :: w :: vs =>
    refine ⟨.hasLoop ((v :: w :: vs).map num.forth), by simp [get_natCast hedges], rfl,
      fun x => ?_⟩
    constructor
    · intro h
      cases h
    · rintro ⟨hmem, -⟩
      cases hmem

/-- There is a path from `a` to `b`. -/
def Reachable (graph : DirectedGraph κ) : κ → κ → Prop := Relation.ReflTransGen (Edge graph)

theorem NumberingOk.reach_iff (hnum : NumberingOk graph num) (i j : Fin num.size) :
    Reach num.integerGraph i j ↔ Reachable graph (num.forth i) (num.forth j) := by
  constructor
  · exact fun h => Relation.ReflTransGen.lift num.forth (fun v w => (hnum.edge_iff v w).mp) _ _ h
  · intro h
    -- every node on the path has a number
    generalize hx : num.forth j = x at h
    induction h generalizing j with
    | refl =>
      rw [hnum.injective hx]
      exact .refl i
    | @tail y z _ hyz ih =>
      obtain ⟨k, hk⟩ : ∃ k, num.forth k = y := by
        obtain ⟨dests, hdests, -⟩ := hyz
        exact (hnum.mem_nodes y).mp (mem_map.mpr ⟨_, hdests, rfl⟩)
      refine (ih k hk).trans (.edge ((hnum.edge_iff k j).mpr ?_))
      rw [hk, hx]
      exact hyz

theorem NumberingOk.mutual_iff (hnum : NumberingOk graph num) (i j : Fin num.size) :
    Mutual num.integerGraph i j ↔
      Reachable graph (num.forth i) (num.forth j) ∧
        Reachable graph (num.forth j) (num.forth i) := by
  rw [Mutual, hnum.reach_iff, hnum.reach_iff]

/-! ## Correctness -/

/-- What it means for an array of components with edge lists to be the component graph. -/
structure IsComponentGraph (graph : DirectedGraph κ) (comps : List (Component κ × List Int)) :
    Prop where
  /-- the nodes of the components are the nodes of the graph, -/
  mem_iff : ∀ x, (∃ c ∈ comps, x ∈ c.1.members) ↔ x ∈ nodes graph
  /-- each of them once, -/
  nodup : (comps.flatMap fun c => c.1.members).Nodup
  /-- together with the nodes on a common cycle. -/
  same_iff : ∀ (i j : Nat) ci cj x y, comps[i]? = some ci → comps[j]? = some cj →
    x ∈ ci.1.members → y ∈ cj.1.members →
    (i = j ↔ Reachable graph x y ∧ Reachable graph y x)
  noLoop_iff : ∀ c ∈ comps, ∀ x,
    c.1 = .noLoop x ↔ c.1.members = [x] ∧ ¬ Edge graph x x
  topological : ∀ (i j : Nat) ci cj x y, comps[i]? = some ci → comps[j]? = some cj →
    x ∈ ci.1.members → y ∈ cj.1.members → Edge graph x y → i ≤ j
  edges_sorted : ∀ c ∈ comps, c.2.Pairwise (· < ·)
  edges_iff : ∀ (i : Nat) ci, comps[i]? = some ci → ∀ e,
    e ∈ ci.2 ↔ ∃ (j : Nat) (cj : Component κ × List Int) (x y : κ), comps[j]? = some cj ∧
      x ∈ ci.1.members ∧ y ∈ cj.1.members ∧ Edge graph x y ∧ e = j

/-- What is known of the component with index `i`. -/
structure NamedFrom (graph : DirectedGraph κ) (num : Numbering κ)
    (components : Fin num.size → Int) (i : Nat) (c : Component κ × List Int) : Prop where
  mem_iff : ∀ x, x ∈ c.1.members ↔ ∃ v, num.forth v = x ∧ components v = i
  nodup : c.1.members.Nodup
  noLoop_iff : ∀ x, c.1 = .noLoop x ↔ c.1.members = [x] ∧ ¬ Edge graph x x
  edges_sorted : c.2.Pairwise (· < ·)
  edges_iff : ∀ e, e ∈ c.2 ↔
    ∃ v, components v = i ∧ ∃ w ∈ num.integerGraph v, components w = e

/-- The components, named from the result of Kosaraju's algorithm. -/
theorem componentGraph_named {print : κ → String} {phys : Nat → Map.PhysEq}
    (hnumber : number cmp print phys graph = .ok num) (hnum : NumberingOk graph num) :
    ∃ (comps : List (Component κ × List Int)) (components : Fin num.size → Int),
      componentGraph cmp print phys graph = .ok comps ∧
      (∀ v, 0 ≤ components v ∧ components v < comps.length) ∧
      (∀ v w, components v = components w ↔ Mutual num.integerGraph v w) ∧
      (∀ v w, w ∈ num.integerGraph v → components v ≤ components w) ∧
      ∀ i c, comps[i]? = some c → NamedFrom graph num components i c := by
  obtain ⟨cg, ncomponents, components, hcg, hlen, hrange, hsame, htop, hused, hnodes, hedges⟩ :=
    Kosaraju.componentGraph_spec num.integerGraph
  have hname : ∀ i < ncomponents, ∃ vs c, cg.sortedConnectedComponents[i]? = some vs ∧
      nameComponent num cg.componentEdges vs i = .ok c ∧
      NamedFrom graph num components i c := by
    intro i hi
    obtain ⟨edges, hget, hsorted, hiff⟩ := hedges i hi
    obtain ⟨r, hr⟩ := hused i hi
    have hmem : ∀ v, v ∈ ((List.finRange num.size).filter fun v => components v = i).reverse ↔
        components v = i := by simp
    obtain ⟨comp, hcomp, hmembers, hnoLoop⟩ := nameComponent_spec hnum
      (ne_nil_of_mem ((hmem r).mpr hr)) hget
    refine ⟨_, _, hnodes i hi, hcomp, ⟨?_, ?_, hnoLoop, hsorted, hiff⟩⟩
    · intro x
      rw [hmembers, mem_map]
      constructor
      · rintro ⟨v, hv, rfl⟩
        exact ⟨v, rfl, (hmem v).mp hv⟩
      · rintro ⟨v, rfl, hv⟩
        exact ⟨v, (hmem v).mpr hv, rfl⟩
    · rw [hmembers]
      refine List.Nodup.map hnum.injective ?_
      exact nodup_reverse.mpr ((nodup_finRange num.size).filter _)
  obtain ⟨comps, hcomps, hclen, hcget⟩ := Result.mapM_ok
    (f := fun p : List (Fin num.size) × Nat => nameComponent num cg.componentEdges p.1 p.2)
    cg.sortedConnectedComponents.zipIdx (by
      rintro ⟨vs, i⟩ hp
      have hvs := List.mem_zipIdx_iff_getElem?.mp hp
      obtain ⟨hi, -⟩ := List.getElem?_eq_some_iff.mp hvs
      obtain ⟨vs', c, hvs', hc, -⟩ := hname i (hlen ▸ hi)
      rw [hvs] at hvs'
      cases hvs'
      exact ⟨c, hc⟩)
  rw [length_zipIdx, hlen] at hclen
  refine ⟨comps, components, ?_, ?_, hsame, htop, ?_⟩
  · simp only [componentGraph, hnumber, Result.ok_bind, hcg, hcomps]
  · rw [hclen]
    exact hrange
  · intro i c hc
    obtain ⟨hi, -⟩ := List.getElem?_eq_some_iff.mp hc
    obtain ⟨vs, c', hvs, hc', hnamed⟩ := hname i (hclen ▸ hi)
    have hres := hcget i (vs, i) c (by simp [List.getElem?_zipIdx, hvs]) hc
    rw [hc'] at hres
    cases hres
    exact hnamed

/-- **`component_graph` computes the strongly connected components, in topological order, and the
edges between them.** -/
theorem componentGraph_correct (ho : SortedAssoc.TotalOrder cmp) (print : κ → String)
    (phys : Nat → Map.PhysEq) (graph : DirectedGraph κ) (hw : Map.WellFormed cmp graph)
    (hclosed : ∀ a b, Edge graph a b → b ∈ nodes graph) :
    ∃ comps, componentGraph cmp print phys graph = .ok comps ∧ IsComponentGraph graph comps := by
  obtain ⟨num, hnumber, hnum⟩ := number_spec ho print phys hw hclosed
  obtain ⟨comps, components, hcomps, hrange, hsame, htop, hnamed⟩ :=
    componentGraph_named hnumber hnum
  -- the component of a numbered node stands at its number
  have hat : ∀ v, ∃ (i : Nat) (c : Component κ × List Int), components v = i ∧
      comps[i]? = some c ∧ num.forth v ∈ c.1.members := by
    intro v
    obtain ⟨i, hi⟩ : ∃ i : Nat, components v = i := ⟨_, (Int.toNat_of_nonneg (hrange v).1).symm⟩
    have hlt : i < comps.length := by
      have := (hrange v).2
      omega
    refine ⟨i, comps[i], hi, List.getElem?_eq_getElem hlt, ?_⟩
    exact ((hnamed i _ (List.getElem?_eq_getElem hlt)).mem_iff _).mpr ⟨v, rfl, hi⟩
  have hindex : ∀ c ∈ comps, ∃ i : Nat, comps[i]? = some c := fun c hc =>
    mem_iff_getElem?.mp hc
  refine ⟨comps, hcomps, ?_, ?_, ?_, ?_, ?_, ?_, ?_⟩
  · intro x
    rw [hnum.mem_nodes]
    constructor
    · rintro ⟨c, hc, hx⟩
      obtain ⟨i, hi⟩ := hindex c hc
      obtain ⟨v, hv, -⟩ := ((hnamed i c hi).mem_iff x).mp hx
      exact ⟨v, hv⟩
    · rintro ⟨v, rfl⟩
      obtain ⟨i, c, -, hc, hmem⟩ := hat v
      exact ⟨c, List.mem_of_getElem? hc, hmem⟩
  · rw [nodup_flatMap]
    refine ⟨?_, ?_⟩
    · intro c hc
      obtain ⟨i, hi⟩ := hindex c hc
      exact (hnamed i c hi).nodup
    · rw [pairwise_iff_getElem]
      intro i j hi hj hij x hxi hxj
      obtain ⟨v, hv, hvi⟩ := ((hnamed i _ (List.getElem?_eq_getElem hi)).mem_iff x).mp hxi
      obtain ⟨w, hw, hwj⟩ := ((hnamed j _ (List.getElem?_eq_getElem hj)).mem_iff x).mp hxj
      rw [hnum.injective (hv.trans hw.symm)] at hvi
      omega
  · intro i j ci cj x y hi hj hx hy
    obtain ⟨v, rfl, hv⟩ := ((hnamed i ci hi).mem_iff x).mp hx
    obtain ⟨w, rfl, hw⟩ := ((hnamed j cj hj).mem_iff y).mp hy
    rw [← hnum.mutual_iff, ← hsame, hv, hw]
    omega
  · intro c hc
    obtain ⟨i, hi⟩ := hindex c hc
    exact (hnamed i c hi).noLoop_iff
  · intro i j ci cj x y hi hj hx hy hxy
    obtain ⟨v, rfl, hv⟩ := ((hnamed i ci hi).mem_iff x).mp hx
    obtain ⟨w, rfl, hw⟩ := ((hnamed j cj hj).mem_iff y).mp hy
    have := htop v w ((hnum.edge_iff v w).mpr hxy)
    omega
  · intro c hc
    obtain ⟨i, hi⟩ := hindex c hc
    exact (hnamed i c hi).edges_sorted
  · intro i ci hi e
    rw [(hnamed i ci hi).edges_iff]
    constructor
    · rintro ⟨v, hv, w, hw, rfl⟩
      obtain ⟨j, cj, hj, hget, hmem⟩ := hat w
      exact ⟨j, cj, num.forth v, num.forth w, hget,
        ((hnamed i ci hi).mem_iff _).mpr ⟨v, rfl, hv⟩, hmem, (hnum.edge_iff v w).mp hw, hj⟩
    · rintro ⟨j, cj, x, y, hj, hx, hy, hxy, rfl⟩
      obtain ⟨v, rfl, hv⟩ := ((hnamed i ci hi).mem_iff x).mp hx
      obtain ⟨w, rfl, hw⟩ := ((hnamed j cj hj).mem_iff y).mp hy
      exact ⟨v, hv, w, (hnum.edge_iff v w).mpr hxy, hw⟩

/-- The nodes 1 and 2 with edges from 1 to both. -/
def loopAndLeaf : DirectedGraph Int :=
  .node .empty (1, .node .empty 1 (.node .empty 2 .empty 1) 2)
    (.node .empty (2, .empty) .empty 1) 2

theorem componentGraph_correct_loopAndLeaf :
    ∃ comps, componentGraph Map.intCompare toString (fun _ => .never) loopAndLeaf = .ok comps ∧
      IsComponentGraph loopAndLeaf comps := by
  refine componentGraph_correct Map.totalOrder_intCompare _ _ loopAndLeaf ⟨?_, ?_⟩ ?_
  · simp [loopAndLeaf, Avl.Tree.toList, SortedAssoc.Sorted, Map.intCompare]
  · simp [loopAndLeaf, Avl.Tree.Balanced, Avl.Tree.depth]
  · rintro a b ⟨dests, hdests, hb⟩
    simp only [Map.bindings_eq, loopAndLeaf, Avl.Tree.toList] at hdests
    simp only [nodes, Map.bindings_eq, loopAndLeaf, Avl.Tree.toList]
    rcases mem_cons.mp hdests with h | h
    · cases h
      simpa [Avl.Tree.toList] using hb
    · cases mem_singleton.mp h
      cases hb

end TravLang.StronglyConnectedComponents
