import TravLang.Lambda.Switch.Clusters
import TravLang.Lib.Intervals
import TravLang.Lambda.Switch.Store
import TravLang.Asmcomp.Cmm
import Mathlib.Data.List.Forall2

/-!
# The tables of switches (`asmcomp/cmm_helpers.ml`)

`transl_int_switch` and `transl_switch_clambda` give intervals and a store of actions to the
compiler of switches. All that the stores look at in an expression is whether it is an exit without
arguments, so the type of expressions is a parameter.
-/

namespace TravLang.CmmHelpers

open Switch Intervals Result List

/-- The exceptions of the modules that are used here -/
inductive Exn where
  | map (e : Map.Exn)
  | switch (e : Switch.Exn)
  deriving DecidableEq, Repr

def ofMap {α : Type} : Except Map.Exn α → Except Exn α
  | .ok a => .ok a
  | .error e => .error (.map e)

def ofSwitch {α : Type} : Except Switch.Exn α → Except Exn α
  | .ok a => .ok a
  | .error e => .error (.switch e)

/-! ## Stores -/

/-- How exits are recognized: `exit? e` is `i` if `e` is `Cexit (i, [])`. -/
structure Exits (E : Type) where
  exit? : E → Option Int
  eq_of_exit : ∀ e e' i, exit? e = some i → exit? e' = some i → e = e'

variable {E : Type} (X : Exits E)

/-- `StoreExpForSwitch` -/
abbrev storeExpForSwitch : CtxStored where
  T := E
  Key := Option Int × Int
  Context := Int
  makeKey index expr := some (X.exit? expr, index)
  compareKey k k' :=
    match k, k' with
    | (some i, index), (some i', index') => if i = i' then 0 else Map.intCompare index index'
    | (_, index), (_, index') => Map.intCompare index index'

/-- `StoreExp` -/
abbrev storeExp : CtxStored where
  T := E
  Key := Int
  Context := Unit
  makeKey _ expr := X.exit? expr
  compareKey := Map.intCompare

/-! ## Switches on integers -/

/-- `List.map (fun (i, act) -> i, store.act_store () act)` -/
def storeCases (phys : Map.PhysEq) : List (Int × E) → Intern (storeExp X) →
    Except Map.Exn (List (Int × Nat) × Intern (storeExp X))
  | [], st => .ok ([], st)
  | (i, act) :: cases, st => do
    let (n, st) ← st.actStore (phys.sub 0) () act
    let (cases, st) ← storeCases (phys.sub 1) cases st
    return ((i, n) :: cases, st)

/-- The local function `inters` -/
def inters (W : Nat) (high : Int) (plow phigh : Int) (pact : Nat) : List (Int × Nat) → Cases
  | [] =>
    if phigh = high then [(plow, phigh, pact)]
    else [(plow, phigh, pact), (wrap W (phigh + 1), high, 0)]
  | (i, act) :: rem =>
    if i = wrap W (phigh + 1) then
      if pact = act then inters W high plow i pact rem
      else (plow, phigh, pact) :: inters W high i i act rem
    -- insert default
    else if pact = 0 then
      if act = 0 then inters W high plow i 0 rem
      else (plow, wrap W (i - 1), pact) :: inters W high i i act rem
    else
      (plow, phigh, pact) ::
        if act = 0 then inters W high (wrap W (phigh + 1)) i 0 rem
        else (wrap W (phigh + 1), wrap W (i - 1), 0) :: inters W high i i act rem

/-- The intervals of `transl_int_switch`, and its store -/
def intSwitchTable (W : Nat) (phys : Map.PhysEq) (low high : Int) (cases : List (Int × E))
    (default : E) : Except Exn (Cases × Intern (storeExp X)) :=
  match cases with
  | [] => .error (.switch .assertFailure)
  | _ :: _ => do
    let (n, st) ← ofMap ((mkStore : Intern (storeExp X)).actStore (phys.sub 0) () default)
    if n = 0 then
      let (cases, st) ← ofMap (storeCases X (phys.sub 1) cases st)
      match cases with
      | [] => .error (.switch .assertFailure)
      | (k0, act0) :: rem =>
        if k0 = low then return (inters W high k0 k0 act0 rem, st)
        else return (inters W high low (wrap W (k0 - 1)) 0 cases, st)
    else .error (.switch .assertFailure)

/-! ## Switches on indices -/

/-- `Array.map (fun j -> store.act_store j cases.(j))` -/
def storeIndex (phys : Map.PhysEq) (cases : List E) : List Int →
    Intern (storeExpForSwitch X) → Except Exn (List Nat × Intern (storeExpForSwitch X))
  | [], st => .ok ([], st)
  | j :: index, st => do
    let act ← ofSwitch (Switch.get cases j)
    let (n, st) ← ofMap (st.actStore (phys.sub 0) j act)
    let (index, st) ← storeIndex (phys.sub 1) cases index st
    return (n :: index, st)

/-- The references of `transl_switch_clambda` -/
structure Merging where
  inters : Cases
  thisHigh : Int
  thisLow : Int
  thisAct : Nat

/-- One round of the loop -/
def mergeStep (index : List Nat) (s : Merging) (i : Int) : Except Switch.Exn Merging := do
  let act ← Switch.get index i
  if act = s.thisAct then return { s with thisLow := s.thisLow - 1 }
  else return ⟨(s.thisLow, s.thisHigh, s.thisAct) :: s.inters, i, i, act⟩

def mergeIntervals (index : List Nat) : Except Switch.Exn Cases := do
  let n : Int := index.length
  let act ← Switch.get index (n - 1)
  let s ← (forRange 0 (n - 2)).reverse.foldlM (mergeStep index) ⟨[], n - 1, n - 1, act⟩
  return (0, s.thisHigh, s.thisAct) :: s.inters

/-- The intervals of `transl_switch_clambda`, and its store -/
def switchTable (phys : Map.PhysEq) (index : List Int) (cases : List E) :
    Except Exn (Cases × Intern (storeExpForSwitch X)) := do
  let (index, st) ← storeIndex X phys cases index mkStore
  let inters ← ofSwitch (mergeIntervals index)
  return (inters, st)

/-! ## Code -/

section

-- `SwitcherBlocks.zyva`, which compiles a table, is a parameter.
variable {A : S} (X : Exits A.Act) (W : Nat) (phys : Map.PhysEq)
  (zyva : A.Loc → Int → Int → A.Arg → Cases → List (Shared A.Act) → M A.Act)

def liftSwitch {α : Type} (m : M α) : StateT World (Except Exn) α := fun w => ofSwitch (m w)

/-- `bind "switcher" arg (fun a -> SwitcherBlocks.zyva ...)` -/
def switcher (loc : A.Loc) (low high : Int) (arg : A.Arg) (inters : Cases)
    (actions : List (Shared A.Act)) : StateT World (Except Exn) A.Act :=
  liftSwitch do
    let (a, close) ← named (A.bind arg)
    let code ← zyva loc low high a inters actions
    return close code

def translIntSwitch (dbg : A.Loc) (arg : A.Arg) (low high : Int) (cases : List (Int × A.Act))
    (default : A.Act) : StateT World (Except Exn) A.Act := do
  let (inters, store) ← intSwitchTable X W phys low high cases default
  switcher zyva dbg low high arg inters store.getShared

def translSwitchClambda (loc : A.Loc) (arg : A.Arg) (index : List Int) (cases : List A.Act) :
    StateT World (Except Exn) A.Act := do
  let (inters, store) ← switchTable X phys index cases
  match inters with
  | [_] => ofSwitch (Switch.get cases 0)
  | inters => switcher zyva loc 0 (index.length - 1) arg inters store.getShared

end

/-! ## The stores -/

variable {X}

theorem faithful_storeExp : Faithful (storeExp X) fun _ _ => True := by
  intro _ act _ act' k k' _ _ hk hk' h0
  obtain rfl := Map.totalOrder_intCompare.eq_of_zero k k' h0
  exact X.eq_of_exit act act' k hk hk'

/-- Two keys that compare equal have the same exit or the same index, so the comparison need not be
an order. -/
theorem faithful_storeExpForSwitch (cases : List E) :
    Faithful (storeExpForSwitch X) fun j act => Switch.get cases j = .ok act := by
  intro j act j' act' k k' hget hget' hk hk' h0
  cases hk
  cases hk'
  have hindex : Map.intCompare j j' = 0 → act = act' := by
    intro h
    obtain rfl := Map.totalOrder_intCompare.eq_of_zero j j' h
    exact Except.ok.inj (hget.symm.trans hget')
  cases hexit : X.exit? act with
  | none =>
    rw [hexit] at h0
    exact hindex h0
  | some i =>
    rw [hexit] at h0
    cases hexit' : X.exit? act' with
    | none =>
      rw [hexit'] at h0
      exact hindex h0
    | some i' =>
      rw [hexit'] at h0
      by_cases hi : i = i'
      · subst hi
        exact X.eq_of_exit act act' i hexit hexit'
      · simp only [if_neg hi] at h0
        exact hindex h0

/-- The action with a number -/
def ActionIs {A : CtxStored} (st : Intern A) (n : Nat) (act : A.T) : Prop :=
  (st.getShared[n]?).map Shared.act = some act

variable {A : CtxStored} {act : A.T} {st : Intern A} {n W : Nat} {cases : List E} {f : Int → Nat}
  {high low : Int} {index : List Nat} {l : List (Int × Nat)}

theorem actionIs_of_get (h : st.get[n]? = some act) : ActionIs st n act := by
  rw [ActionIs, ← List.getElem?_map, map_act_getShared, h]

theorem getElem?_of_isPrefix {α : Type} {l l' : List α} {x : α} (h : l <+: l')
    (hx : l[n]? = some x) : l'[n]? = some x := by
  obtain ⟨r, rfl⟩ := h
  rw [List.getElem?_append_left (List.getElem?_eq_some_iff.mp hx).1, hx]

theorem storeCases_spec : ∀ (cases : List (Int × E)) (phys : Map.PhysEq)
    {st : Intern (storeExp X)}, Stored (fun _ _ => True) st →
    ∃ cases' st', storeCases X phys cases st = .ok (cases', st') ∧ st.get <+: st'.get ∧
      List.Forall₂ (fun p q => p.1 = q.1 ∧ st'.get[q.2]? = some p.2) cases cases'
  | [], phys, st, _ => ⟨[], st, rfl, prefix_rfl, .nil⟩
  | (i, act) :: cases, phys, st, hst => by
    obtain ⟨n, st₁, hstore, hst₁, hget, hpre⟩ :=
      hst.actStore faithful_storeExp (phys.sub 0) () act trivial
    obtain ⟨cases', st₂, hcases, hpre', hall⟩ := storeCases_spec cases (phys.sub 1) hst₁
    refine ⟨(i, n) :: cases', st₂, ?_, hpre.trans hpre', .cons ⟨rfl, ?_⟩ hall⟩
    · simp only [storeCases, hstore, ok_bind, hcases, pure_eq_ok]
    · exact getElem?_of_isPrefix hpre' hget

theorem storeIndex_spec : ∀ (index : List Int) (phys : Map.PhysEq)
    {st : Intern (storeExpForSwitch X)}, Stored (fun j act => Switch.get cases j = .ok act) st →
    (∀ j ∈ index, 0 ≤ j ∧ j < cases.length) →
    ∃ index' st', storeIndex X phys cases index st = .ok (index', st') ∧ st.get <+: st'.get ∧
      List.Forall₂ (fun j n => ∃ act, Switch.get cases j = .ok act ∧ st'.get[n]? = some act)
        index index'
  | [], phys, st, _, _ => ⟨[], st, rfl, prefix_rfl, .nil⟩
  | j :: index, phys, st, hst, hindex => by
    obtain ⟨⟨hj0, hj⟩, hindex'⟩ := forall_mem_cons.mp hindex
    obtain ⟨act, hact⟩ : ∃ act, Switch.get cases j = .ok act := by
      rw [Switch.get, if_pos hj0, List.getElem?_eq_getElem (by omega)]
      exact ⟨_, rfl⟩
    obtain ⟨n, st₁, hstore, hst₁, hget, hpre⟩ :=
      hst.actStore (faithful_storeExpForSwitch cases) (phys.sub 0) j act hact
    obtain ⟨index', st₂, hrest, hpre', hall⟩ := storeIndex_spec index (phys.sub 1) hst₁ hindex'
    refine ⟨n :: index', st₂, ?_, hpre.trans hpre', .cons ⟨act, hact, ?_⟩ hall⟩
    · simp only [storeIndex, hact, hstore, ofSwitch, ofMap, ok_bind, hrest, pure_eq_ok]
    · exact getElem?_of_isPrefix hpre' hget

/-! ## The intervals of a switch on integers -/

/-- **The pending interval and the cases after it.** The label of `x` is `f x`. -/
theorem inters_represents (hW : 0 < W) {high : Int} (hhigh : high ≤ Switch.maxInt W) :
    ∀ (rest : List (Int × Nat)) (plow phigh : Int) (pact : Nat),
    Switch.minInt W ≤ plow → plow ≤ phigh → phigh ≤ high → rest.Pairwise (fun p q => p.1 < q.1) →
    (∀ p ∈ rest, phigh < p.1 ∧ p.1 ≤ high ∧ f p.1 = p.2) →
    (∀ x, plow ≤ x → x ≤ phigh → f x = pact) →
    (∀ x, phigh < x → x ≤ high → (∀ p ∈ rest, p.1 ≠ x) → f x = 0) →
    Represents f plow high (inters W high plow phigh pact rest)
  | [], plow, phigh, pact, hmin, hle, hleh, _, _, hf, hgap => by
    rw [inters]
    split
    · next heq =>
      subst heq
      exact represents_singleton hle hf
    · next hne =>
      rw [wrap_of_range hW (by omega) (by omega)]
      refine Represents.cons (represents_singleton (by omega) fun x hx hxh => ?_) hle hf
      exact hgap x (by omega) hxh nofun
  | (i, act) :: rem, plow, phigh, pact, hmin, hle, hleh, hsorted, hrest, hf, hgap => by
    obtain ⟨hi, hsorted'⟩ := pairwise_cons.mp hsorted
    obtain ⟨⟨hip, hih, hfi⟩, hrest'⟩ := forall_mem_cons.mp hrest
    have hrem : ∀ p ∈ rem, i < p.1 ∧ p.1 ≤ high ∧ f p.1 = p.2 :=
      fun p hp => ⟨hi p hp, (hrest' p hp).2⟩
    have hgapi : ∀ x, i < x → x ≤ high → (∀ p ∈ rem, p.1 ≠ x) → f x = 0 := fun x hx hxh hne =>
      hgap x (by omega) hxh (forall_mem_cons.mpr ⟨by dsimp only; omega, hne⟩)
    have hdefault : ∀ x, phigh < x → x < i → f x = 0 := by
      intro x hx hxi
      refine hgap x hx (by omega) (forall_mem_cons.mpr ⟨by dsimp only; omega, fun p hp => ?_⟩)
      have := hi p hp
      omega
    -- an interval that ends at `i`, and the interval of the default action before `i`
    have hto : ∀ {q : Int}, Switch.minInt W ≤ q → q ≤ i → (∀ x, q ≤ x → x < i → f x = act) →
        Represents f q high (inters W high q i act rem) := by
      intro q hq hqi hfq
      refine inters_represents hW hhigh rem q i act hq hqi hih hsorted' hrem
        (fun x hx hxi => ?_) hgapi
      by_cases hxeq : x = i
      · rw [hxeq, hfi]
      · exact hfq x hx (by omega)
    have hnew := hto (by omega) (Int.le_refl i) (by omega)
    have hgapTo : ∀ {q : Int}, q < i → (∀ x, q ≤ x → x < i → f x = 0) →
        Represents f q high (⟨q, i - 1, 0⟩ :: inters W high i i act rem) := fun hqi hfq =>
      Represents.cons (by rwa [Int.sub_add_cancel]) (by omega) fun x hx hxi => hfq x hx (by omega)
    rw [inters, wrap_of_range hW (by omega : Switch.minInt W ≤ phigh + 1) (by omega)]
    split
    · next hnext =>
      split
      · next hact =>
        exact hact ▸ hto hmin (by omega) fun x hx hxi => by rw [hf x hx (by omega), hact]
      · exact Represents.cons (hnext ▸ hnew) hle hf
    · next hfar =>
      rw [wrap_of_range hW (by omega : Switch.minInt W ≤ i - 1) (by omega)]
      split
      · next hpact =>
        have hzero : ∀ x, plow ≤ x → x < i → f x = 0 := by
          intro x hx hxi
          by_cases hxp : x ≤ phigh
          · rw [hf x hx hxp, hpact]
          · exact hdefault x (by omega) hxi
        split
        · next hact => exact hact ▸ hto hmin (by omega) (hact ▸ hzero)
        · exact hpact ▸ hgapTo (by omega) hzero
      · refine Represents.cons ?_ hle hf
        have hzero : ∀ x, phigh + 1 ≤ x → x < i → f x = 0 := fun x hx => hdefault x (by omega)
        split
        · next hact => exact hact ▸ hto (by omega) (by omega) (hact ▸ hzero)
        · exact hgapTo (by omega) hzero

/-! ## The intervals of a switch on indices -/

/-- What is known after the rounds down to `i` -/
structure Merged (f : Int → Nat) (high i : Int) (s : Merging) : Prop where
  thisLow : s.thisLow = i
  represents : Represents f i high ((s.thisLow, s.thisHigh, s.thisAct) :: s.inters)

theorem mergeStep_merged {i : Int} {s : Merging} (hf : Switch.get index i = .ok (f i))
    (h : Merged f high (i + 1) s) :
    ∃ s', mergeStep index s i = .ok s' ∧ Merged f high i s' := by
  obtain ⟨hlow, hrep⟩ := h
  rw [hlow] at hrep
  rw [mergeStep, hf, ok_bind]
  split
  · next hact =>
    refine ⟨_, rfl, by dsimp only; omega, ?_⟩
    rw [hlow, Int.add_sub_cancel]
    exact hrep.extend hact
  · refine ⟨_, rfl, rfl, ?_⟩
    rw [hlow]
    exact hrep.cons (Int.le_refl i) fun x hx hxi => by rw [show x = i by omega]

theorem mergeIntervals_represents (hne : index ≠ [])
    (hf : ∀ i : Int, 0 ≤ i → i < index.length → Switch.get index i = .ok (f i)) :
    ∃ inters, mergeIntervals index = .ok inters ∧
      Represents f 0 ((index.length : Int) - 1) inters := by
  have hpos : 0 < index.length := length_pos_iff.mpr hne
  have hlast := hf ((index.length : Int) - 1) (by omega) (by omega)
  have hstart : Merged f ((index.length : Int) - 1) ((index.length - 1 : Nat) : Int)
      ⟨[], index.length - 1, index.length - 1, f ((index.length : Int) - 1)⟩ := by
    rw [show ((index.length - 1 : Nat) : Int) = index.length - 1 by omega]
    refine ⟨rfl, represents_singleton (Int.le_refl _) fun x hl hh => ?_⟩
    congr 1
    omega
  obtain ⟨s, hrun, hmerged⟩ := forRange_reverse_rule (f := mergeStep index)
    (I := fun i s => Merged f ((index.length : Int) - 1) i s) (index.length - 1) hstart
    fun i s hi hlt hs => mergeStep_merged (hf i hi (by omega)) hs
  refine ⟨(0, s.thisHigh, s.thisAct) :: s.inters, ?_, ?_⟩
  · rw [show ((index.length - 1 : Nat) : Int) - 1 = index.length - 2 by omega] at hrun
    unfold mergeIntervals
    simp only
    rw [hlast, ok_bind, hrun]
    rfl
  · have hrep := hmerged.represents
    rwa [hmerged.thisLow] at hrep

/-! ## The tables -/

theorem lookup_of_pairwise (h : l.Pairwise fun p q => p.1 < q.1) {p : Int × Nat} (hp : p ∈ l) :
    l.lookup p.1 = some p.2 := by
  induction l with
  | nil => cases hp
  | cons q l ih =>
    obtain ⟨hq, hl⟩ := pairwise_cons.mp h
    rcases mem_cons.mp hp with rfl | hp
    · rw [lookup_cons_self]
    · have hne : (p.1 == q.1) = false := by
        have := hq p hp
        exact beq_false_of_ne (by omega)
      rw [lookup_cons, hne]
      exact ih hl hp

section

variable {cases : List (Int × E)} {cases' : List (Int × Nat)} {R : Int × E → Int × Nat → Prop}

section

variable (h : List.Forall₂ (fun p q => p.1 = q.1 ∧ R p q) cases cases')

include h

/-- The keys of the cases are those of the numbered cases. -/
theorem map_fst_eq : cases'.map Prod.fst = cases.map Prod.fst := by
  induction h with
  | nil => rfl
  | cons hpq _ ih => rw [map_cons, map_cons, ih, hpq.1]

theorem lookup_related {x : Int} : (cases.lookup x = none ∧ cases'.lookup x = none) ∨
      ∃ act n, cases.lookup x = some act ∧ cases'.lookup x = some n ∧ R (x, act) (x, n) := by
  induction h with
  | nil => exact .inl ⟨rfl, rfl⟩
  | @cons p q l l' hpq _ ih =>
    obtain ⟨i, act⟩ := p
    obtain ⟨i', n⟩ := q
    obtain ⟨rfl, hR⟩ := hpq
    simp only [lookup_cons]
    by_cases hx : x = i
    · subst hx
      exact .inr ⟨act, n, by simp, by simp, hR⟩
    · rw [beq_false_of_ne hx]
      exact ih

end

end

theorem store_mkStore {phys : Map.PhysEq} {ctx : A.Context}
    (h : (mkStore : Intern A).actStore phys ctx act = .ok (n, st)) : n = 0 := by
  unfold Intern.actStore Intern.store at h
  split at h
  · obtain ⟨map, _, heq⟩ := bind_eq_ok.mp h
    cases heq
    rfl
  · cases h
    rfl

/-- The intervals of numbered cases -/
theorem represents_cases (hW : 0 < W) {k0 : Int} {act0 : Nat} {rem : List (Int × Nat)}
    (hlow : Switch.minInt W ≤ low) (hhigh : high ≤ Switch.maxInt W)
    (hsorted : ((k0, act0) :: rem).Pairwise fun p q => p.1 < q.1)
    (hrange : ∀ p ∈ (k0, act0) :: rem, low ≤ p.1 ∧ p.1 ≤ high) :
    Represents (fun x => (((k0, act0) :: rem).lookup x).getD 0) low high
      (if k0 = low then inters W high k0 k0 act0 rem
        else inters W high low (wrap W (k0 - 1)) 0 ((k0, act0) :: rem)) := by
  obtain ⟨hk0, hrem⟩ := forall_mem_cons.mp hrange
  obtain ⟨hlt, hsorted'⟩ := pairwise_cons.mp hsorted
  have hlabel : ∀ p ∈ (k0, act0) :: rem, (((k0, act0) :: rem).lookup p.1).getD 0 = p.2 :=
    fun p hp => by rw [lookup_of_pairwise hsorted hp, Option.getD_some]
  have hother : ∀ x, (∀ p ∈ (k0, act0) :: rem, p.1 ≠ x) →
      (((k0, act0) :: rem).lookup x).getD 0 = 0 :=
    fun x hx => by
      rw [lookup_eq_none_iff.mpr fun p hp => by simpa using (hx p hp).symm, Option.getD_none]
  split
  · next heq =>
    subst heq
    refine inters_represents hW hhigh rem k0 k0 act0 hlow (Int.le_refl _) hk0.2 hsorted'
      (fun p hp => ⟨hlt p hp, (hrem p hp).2, hlabel p (mem_cons_of_mem _ hp)⟩)
      (fun x hx hxh => ?_) fun x hx hxh hne => ?_
    · rw [show x = k0 by omega]
      exact hlabel (k0, act0) mem_cons_self
    · exact hother x (forall_mem_cons.mpr ⟨by dsimp only; omega, hne⟩)
  · next hne =>
    rw [wrap_of_range hW (by omega) (by omega)]
    refine inters_represents hW hhigh _ low (k0 - 1) 0 hlow (by omega) (by omega) hsorted
      (fun p hp => ⟨?_, (hrange p hp).2, hlabel p hp⟩) (fun x hx hxh => ?_)
      fun x hx hxh hne => hother x hne
    · rcases mem_cons.mp hp with rfl | hp
      · dsimp only
        omega
      · have := hlt p hp
        omega
    · refine hother x (forall_mem_cons.mpr ⟨by dsimp only; omega, fun p hp => ?_⟩)
      have := hlt p hp
      omega

theorem intSwitchTable_spec (hW : 0 < W) (phys : Map.PhysEq) (hlow : Switch.minInt W ≤ low)
    (hhigh : high ≤ Switch.maxInt W) {cases : List (Int × E)} (hne : cases ≠ [])
    (hsorted : cases.Pairwise fun p q => p.1 < q.1) (hrange : ∀ p ∈ cases, low ≤ p.1 ∧ p.1 ≤ high)
    (default : E) :
    ∃ inters st f, intSwitchTable X W phys low high cases default = .ok (inters, st) ∧
      Represents f low high inters ∧ ∀ x, ActionIs st (f x) ((cases.lookup x).getD default) := by
  obtain ⟨n, st₀, hstore, hst₀, hget₀, _⟩ :=
    stored_mkStore.actStore (faithful_storeExp (X := X)) (phys.sub 0) () default trivial
  obtain rfl := store_mkStore hstore
  obtain ⟨cases', st, hcases, hpre, hall⟩ := storeCases_spec cases (phys.sub 1) hst₀
  have hkeys := map_fst_eq hall
  have hsorted' : cases'.Pairwise fun p q => p.1 < q.1 := by
    rwa [← pairwise_map (f := Prod.fst) (R := (· < ·)), hkeys, pairwise_map]
  have hrange' : ∀ p ∈ cases', low ≤ p.1 ∧ p.1 ≤ high := by
    intro p hp
    have hmem : p.1 ∈ cases.map Prod.fst := hkeys ▸ mem_map_of_mem hp
    obtain ⟨q, hq, hqp⟩ := mem_map.mp hmem
    exact hqp ▸ hrange q hq
  obtain ⟨c, rest, rfl⟩ := exists_cons_of_ne_nil hne
  cases cases' with
  | nil => cases hall
  | cons q rem =>
    refine ⟨_, st, _, ?_, represents_cases hW hlow hhigh hsorted' hrange', fun x => ?_⟩
    · simp only [intSwitchTable, hstore, hcases, ofMap, ok_bind, if_true]
      split <;> rfl
    · rcases lookup_related (x := x) hall with ⟨h1, h2⟩ | ⟨act, m, h1, h2, hm⟩
      · rw [h1, h2, Option.getD_none, Option.getD_none]
        exact actionIs_of_get (getElem?_of_isPrefix hpre hget₀)
      · rw [h1, h2, Option.getD_some, Option.getD_some]
        exact actionIs_of_get hm

theorem switchTable_spec (phys : Map.PhysEq) {index : List Int} (hne : index ≠ [])
    (hindex : ∀ j ∈ index, 0 ≤ j ∧ j < cases.length) :
    ∃ inters st f, switchTable X phys index cases = .ok (inters, st) ∧
      Represents f 0 ((index.length : Int) - 1) inters ∧
      ∀ (i : Nat) j, index[i]? = some j →
        ∃ act, Switch.get cases j = .ok act ∧ ActionIs st (f i) act := by
  obtain ⟨index', st, hstore, _, hall⟩ := storeIndex_spec (X := X) index phys stored_mkStore hindex
  have hlen : index.length = index'.length := hall.length_eq
  have hne' : index' ≠ [] := by
    rw [← length_pos_iff, ← hlen, length_pos_iff]
    exact hne
  have hf : ∀ i : Int, 0 ≤ i → i < index'.length →
      Switch.get index' i = .ok (index'[i.toNat]?.getD 0) := by
    intro i h0 hi
    rw [Switch.get, if_pos h0, List.getElem?_eq_getElem (by omega), Option.getD_some]
  obtain ⟨inters, hmerge, hrep⟩ := mergeIntervals_represents hne' hf
  refine ⟨inters, st, _, ?_, hlen ▸ hrep, fun i j hij => ?_⟩
  · rw [switchTable, hstore, ok_bind]
    simp only [hmerge, ofSwitch, ok_bind, pure_eq_ok]
  · obtain ⟨hi, hget⟩ := List.getElem?_eq_some_iff.mp hij
    have hi' : i < index'.length := hlen ▸ hi
    obtain ⟨act, hact, hn⟩ := (forall₂_iff_get.mp hall).2 i hi hi'
    refine ⟨act, by rw [← hget]; exact hact, actionIs_of_get ?_⟩
    rw [Int.toNat_natCast, List.getElem?_eq_getElem hi', Option.getD_some]
    exact hn

theorem ActionIs.unique {act' : A.T} (h : ActionIs st n act) (h' : ActionIs st n act') :
    act = act' :=
  Option.some.inj (h.symm.trans h')

/-- The first case has a position too, and its label is the same. -/
theorem get_zero_of_length_one {index : List Int} {inters : Cases}
    {st : Intern (storeExpForSwitch X)} {act : E}
    (hrep : Represents f 0 ((index.length : Int) - 1) inters) (hone : inters.length = 1)
    (hindex : ∀ j ∈ index, 0 ≤ j ∧ j < cases.length)
    (hcover : ∀ j : Nat, j < cases.length → (j : Int) ∈ index)
    (hact : ∀ (i : Nat) j, index[i]? = some j →
      ∃ act, Switch.get cases j = .ok act ∧ ActionIs st (f i) act)
    {i : Nat} {j : Int} (hij : index[i]? = some j) (his : ActionIs st (f i) act) :
    Switch.get cases 0 = .ok act := by
  have hi := (List.getElem?_eq_some_iff.mp hij).1
  have hj := hindex j (List.mem_of_getElem? hij)
  obtain ⟨i₀, hi₀⟩ := mem_iff_getElem?.mp (hcover 0 (by omega))
  have hlt := (List.getElem?_eq_some_iff.mp hi₀).1
  obtain ⟨act₀, hget₀, his₀⟩ := hact i₀ _ hi₀
  rw [hrep.eq_of_length_one hone (x := i₀) (y := i) (by omega) (by omega)] at his₀
  rw [his.unique his₀]
  exact hget₀

/-- **The tables that are given to the compiler of switches**: the intervals go from one end to the
other, and each value leads to its action. A table of one interval is replaced by the first case;
without any case there is no table. -/
theorem switch_tables (X : Exits E) (W : Nat) (hW : 0 < W) (phys : Map.PhysEq) :
    (∀ (low high : Int) (cases : List (Int × E)) (default : E), Switch.minInt W ≤ low →
      high ≤ Switch.maxInt W → cases ≠ [] → cases.Pairwise (fun p q => p.1 < q.1) →
      (∀ p ∈ cases, low ≤ p.1 ∧ p.1 ≤ high) →
      ∃ inters st, intSwitchTable X W phys low high cases default = .ok (inters, st) ∧
        inters ≠ [] ∧ Sorted inters ∧ Tiles low high inters ∧
        ∀ x, low ≤ x → x ≤ high → ∃ n, (∀ a, Picks inters x a ↔ a = n) ∧
          ActionIs st n ((cases.lookup x).getD default)) ∧
    (∀ (index : List Int) (cases : List E), index ≠ [] → (∀ j ∈ index, 0 ≤ j ∧ j < cases.length) →
      (∀ j : Nat, j < cases.length → (j : Int) ∈ index) →
      ∃ inters st, switchTable X phys index cases = .ok (inters, st) ∧
        Tiles 0 ((index.length : Int) - 1) inters ∧
        ∀ (i : Nat) j, index[i]? = some j → ∃ n act, Switch.get cases j = .ok act ∧
          (∀ a, Picks inters i a ↔ a = n) ∧ ActionIs st n act ∧
          (inters.length = 1 → Switch.get cases 0 = .ok act)) ∧
    (∀ low high default, intSwitchTable X W phys low high [] default =
      .error (.switch .assertFailure)) ∧
    (∀ cases, switchTable X phys [] cases = .error (.switch indexOutOfBounds)) := by
  refine ⟨?_, ?_, fun low high default => rfl, fun cases => rfl⟩
  · intro low high cases default hlow hhigh hne hsorted hrange
    obtain ⟨inters, st, f, htable, hrep, hact⟩ :=
      intSwitchTable_spec (X := X) hW phys hlow hhigh hne hsorted hrange default
    exact ⟨inters, st, htable, hrep.tiles.ne_nil, hrep.tiles.sorted, hrep.tiles,
      fun x hx hxh => ⟨f x, hrep.picks_iff x hx hxh, hact x⟩⟩
  · intro index cases hne hindex hcover
    obtain ⟨inters, st, f, htable, hrep, hact⟩ := switchTable_spec (X := X) phys hne hindex
    refine ⟨inters, st, htable, hrep.tiles, fun i j hij => ?_⟩
    have hi := (List.getElem?_eq_some_iff.mp hij).1
    obtain ⟨act, hget, his⟩ := hact i j hij
    exact ⟨f i, act, hget, hrep.picks_iff i (by omega) (by omega), his,
      fun hone => get_zero_of_length_one hrep hone hindex hcover hact hij his⟩

section

variable {B : S} {Y : Exits B.Act} {loc : B.Loc} {arg : B.Arg}
  {zyva : B.Loc → Int → Int → B.Arg → Cases → List (Shared B.Act) → M B.Act}

/-- The code is what `zyva` makes of a table that has the action of each number. -/
theorem translIntSwitch_eq (hW : 0 < W) (phys : Map.PhysEq) (hlow : Switch.minInt W ≤ low)
    (hhigh : high ≤ Switch.maxInt W) {cases : List (Int × B.Act)} (hne : cases ≠ [])
    (hsorted : cases.Pairwise fun p q => p.1 < q.1) (hrange : ∀ p ∈ cases, low ≤ p.1 ∧ p.1 ≤ high)
    (default : B.Act) :
    ∃ inters st, translIntSwitch Y W phys zyva loc arg low high cases default =
        switcher zyva loc low high arg inters (Intern.getShared (A := storeExp Y) st) ∧
      Tiles low high inters ∧ ∀ x, low ≤ x → x ≤ high → ∃ n, (∀ a, Picks inters x a ↔ a = n) ∧
        ActionIs st n ((cases.lookup x).getD default) := by
  obtain ⟨inters, st, f, htable, hrep, hact⟩ :=
    intSwitchTable_spec (X := Y) hW phys hlow hhigh hne hsorted hrange default
  refine ⟨inters, st, ?_, hrep.tiles, fun x hx hxh => ⟨f x, hrep.picks_iff x hx hxh, hact x⟩⟩
  rw [translIntSwitch, htable]
  rfl

/-- With one interval all indices have the action of the case 0, which is the code. -/
theorem translSwitchClambda_eq (phys : Map.PhysEq) {index : List Int} {cases : List B.Act}
    (hne : index ≠ []) (hindex : ∀ j ∈ index, 0 ≤ j ∧ j < cases.length)
    (hcover : ∀ j : Nat, j < cases.length → (j : Int) ∈ index) :
    (∃ act, translSwitchClambda Y phys zyva loc arg index cases = pure act ∧
      ∀ j ∈ index, Switch.get cases j = .ok act) ∨
    ∃ inters st, translSwitchClambda Y phys zyva loc arg index cases = switcher zyva loc 0
        (index.length - 1) arg inters (Intern.getShared (A := storeExpForSwitch Y) st) ∧
      Tiles 0 ((index.length : Int) - 1) inters ∧
      ∀ (i : Nat) j, index[i]? = some j → ∃ n act, Switch.get cases j = .ok act ∧
        (∀ a, Picks inters i a ↔ a = n) ∧ ActionIs st n act := by
  obtain ⟨inters, st, f, htable, hrep, hact⟩ := switchTable_spec (X := Y) phys hne hindex
  by_cases hone : inters.length = 1
  · left
    obtain ⟨p, rfl⟩ := length_eq_one_iff.mp hone
    obtain ⟨j₀, rest, rfl⟩ := exists_cons_of_ne_nil hne
    obtain ⟨act₀, -, his₀⟩ := hact 0 j₀ rfl
    have hzero := get_zero_of_length_one hrep hone hindex hcover hact rfl his₀
    refine ⟨act₀, ?_, fun j hj => ?_⟩
    · rw [translSwitchClambda, htable]
      funext w
      simp only [hzero, ofSwitch]
      rfl
    · obtain ⟨i, hij⟩ := mem_iff_getElem?.mp hj
      obtain ⟨act, hget, his⟩ := hact i j hij
      rw [hget, ← get_zero_of_length_one hrep hone hindex hcover hact hij his, hzero]
  · right
    refine ⟨inters, st, ?_, hrep.tiles, fun i j hij => ?_⟩
    · rw [translSwitchClambda, htable]
      match inters, hone with
      | [], _ | _ :: _ :: _, _ => rfl
    · have hi := (List.getElem?_eq_some_iff.mp hij).1
      obtain ⟨act, hget, his⟩ := hact i j hij
      exact ⟨f i, act, hget, hrep.picks_iff i (by omega) (by omega), his⟩

end

/-- The exits of C-- -/
def cmmExits (W : Nat) : Exits (Cmm.Expr W) where
  exit?
    | .exit i => some i
    | _ => none
  eq_of_exit e e' i h h' := by
    cases e <;> cases h
    cases e' <;> cases h'
    rfl

/-- A gap up to the greatest integer, and three cases of which two are the same exit -/
theorem switch_tables_ends :
    (∃ inters st, intSwitchTable (cmmExits 64) 63 .never 0 (2 ^ 62 - 1)
      [(0, .exit 1), (2 ^ 62 - 1, .exit 2)] (.exit 1) = .ok (inters, st) ∧
      Tiles 0 (2 ^ 62 - 1) inters) ∧
    ∃ inters st, switchTable (cmmExits 64) .never [0, 1, 2, 1] [.exit 3, .constInt 5, .exit 3] =
      .ok (inters, st) ∧ Tiles 0 3 inters := by
  obtain ⟨hints, hindices, _⟩ := switch_tables (cmmExits 64) 63 (by decide) .never
  obtain ⟨inters, st, htable, _, _, htiles, _⟩ := hints 0 (2 ^ 62 - 1)
    [(0, .exit 1), (2 ^ 62 - 1, .exit 2)] (.exit 1) (by decide) (by decide) (by simp) (by simp)
    (by simp)
  obtain ⟨inters', st', htable', htiles', _⟩ := hindices [0, 1, 2, 1]
    [.exit 3, .constInt 5, .exit 3] (by simp) (by simp) (by decide)
  exact ⟨⟨inters, st, htable, htiles⟩, inters', st', htable', htiles'⟩

end TravLang.CmmHelpers
