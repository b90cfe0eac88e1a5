import TravLang.Lambda.Switch.Basic
import TravLang.Stdlib.Map.WellFormed

/-!
# The store of actions (`lambda/switch.ml`)

`CtxStore` numbers actions and shares those with the same key. The comparison of keys is any
function: whether two keys are found to be the same may depend on the shape of the tree, but no
action is ever taken for another one if keys compare equal for equal actions only.
-/

namespace TravLang.Switch

open Result List

/-- The parameter `CtxStored` of the functor -/
structure CtxStored where
  T : Type
  Key : Type
  Context : Type
  compareKey : Key → Key → Int
  makeKey : Context → T → Option Key

variable {A : CtxStored}

/-- `intern` -/
structure Intern (A : CtxStored) where
  map : Map.T A.Key (Bool × Nat)
  next : Nat
  acts : List (Bool × A.T)

def mkStore : Intern A := ⟨.empty, 0, []⟩

namespace Intern

def add (st : Intern A) (mustshare : Bool) (act : A.T) : Nat × Intern A :=
  (st.next, { st with acts := (mustshare, act) :: st.acts, next := st.next + 1 })

def store (phys : Map.PhysEq) (mustshare : Bool) (ctx : A.Context) (act : A.T) (st : Intern A) :
    Except Map.Exn (Nat × Intern A) :=
  match A.makeKey ctx act with
  | some key =>
    match Map.find A.compareKey key st.map with
    | .ok (shared, i) =>
      if !shared then do
        let map ← Map.add A.compareKey phys key (true, i) st.map
        return (i, { st with map := map })
      else return (i, st)
    | .error .notFound => do
      let (i, st) := st.add mustshare act
      let map ← Map.add A.compareKey phys key (mustshare, i) st.map
      return (i, { st with map := map })
    | .error e => .error e
  | none => return st.add mustshare act

def actStore (phys : Map.PhysEq) (ctx : A.Context) (act : A.T) (st : Intern A) :
    Except Map.Exn (Nat × Intern A) := st.store phys false ctx act

def actStoreShared (phys : Map.PhysEq) (ctx : A.Context) (act : A.T) (st : Intern A) :
    Except Map.Exn (Nat × Intern A) := st.store phys true ctx act

/-- `act_get` -/
def get (st : Intern A) : List A.T := (st.acts.map Prod.snd).reverse

def share {α : Type} : Shared α → Shared α
  | .single act => .shared act
  | .shared act => .shared act

/-- `act_get_shared`. The numbers in the map are those of actions. -/
def getShared (st : Intern A) : List (Shared A.T) :=
  (Map.bindings st.map).foldl (fun acts b => if b.2.1 then acts.modify b.2.2 share else acts)
    (st.acts.map fun p => if p.1 then .shared p.2 else .single p.2).reverse

end Intern

/-! ## What is stored -/

def Shared.act {α : Type} : Shared α → α
  | .shared act => act
  | .single act => act

/-- Keys that compare equal come from equal actions, among those that `Valid` allows. -/
def Faithful (A : CtxStored) (Valid : A.Context → A.T → Prop) : Prop :=
  ∀ ctx act ctx' act' k k', Valid ctx act → Valid ctx' act' → A.makeKey ctx act = some k →
    A.makeKey ctx' act' = some k' → A.compareKey k k' = 0 → act = act'

/-- The invariant of a store -/
structure Stored (Valid : A.Context → A.T → Prop) (st : Intern A) : Prop where
  next_eq : st.next = st.acts.length
  balanced : st.map.Balanced
  /-- a key belongs to the action that has its number -/
  get_of_mem : ∀ b ∈ st.map.toList, ∃ ctx act, Valid ctx act ∧ A.makeKey ctx act = some b.1 ∧
    st.get[b.2.2]? = some act

variable {Valid : A.Context → A.T → Prop} {st : Intern A} {ctx : A.Context} {act : A.T} {α : Type}

theorem stored_mkStore : Stored Valid (mkStore : Intern A) := ⟨rfl, trivial, nofun⟩

theorem get_add (st : Intern A) (mustshare : Bool) (act : A.T) :
    (st.add mustshare act).2.get = st.get ++ [act] := by
  simp [Intern.add, Intern.get]

/-- A binding that is kept or made by `add` -/
theorem Stored.add_binding (h : Stored Valid st) {key : A.Key}
    (hvalid : Valid ctx act) (hkey : A.makeKey ctx act = some key) {i : Nat}
    (hi : st.get[i]? = some act) (phys : Map.PhysEq) (shared : Bool) :
    ∃ map, Map.add A.compareKey phys key (shared, i) st.map = .ok map ∧
      Stored Valid { st with map := map } := by
  obtain ⟨map, hadd, hbalanced⟩ := Map.add_balanced A.compareKey phys key (shared, i) h.balanced
  refine ⟨map, hadd, h.next_eq, hbalanced, fun b hb => ?_⟩
  rcases Map.mem_of_mem_add phys hadd b hb with rfl | hb
  · exact ⟨ctx, act, hvalid, hkey, hi⟩
  · exact h.get_of_mem b hb

theorem Stored.add (h : Stored Valid st) (mustshare : Bool) (act : A.T) :
    Stored Valid (st.add mustshare act).2 ∧
      (st.add mustshare act).2.get[(st.add mustshare act).1]? = some act := by
  have hlen : st.get.length = st.next := by simp [Intern.get, h.next_eq]
  rw [get_add]
  refine ⟨⟨by simp [Intern.add, h.next_eq], h.balanced, fun b hb => ?_⟩, ?_⟩
  · obtain ⟨ctx, act', hvalid, hkey, hget⟩ := h.get_of_mem b hb
    refine ⟨ctx, act', hvalid, hkey, ?_⟩
    rw [get_add, List.getElem?_append_left (List.getElem?_eq_some_iff.mp hget).1, hget]
  · show (st.get ++ [act])[st.next]? = some act
    rw [← hlen, List.getElem?_concat_length]

/-- **The number of an action is the number of an equal one, and it stays so.** -/
theorem Stored.store (h : Stored Valid st) (hA : Faithful A Valid)
    (hvalid : Valid ctx act) (phys : Map.PhysEq) (mustshare : Bool) :
    ∃ i st', st.store phys mustshare ctx act = .ok (i, st') ∧ Stored Valid st' ∧
      st'.get[i]? = some act ∧ st.get <+: st'.get := by
  have hprefix : st.get <+: (st.add mustshare act).2.get := by
    rw [get_add]
    exact prefix_append _ _
  cases hkey : A.makeKey ctx act with
  | none =>
    obtain ⟨hstored, hget⟩ := h.add mustshare act
    exact ⟨_, _, by simp only [Intern.store, hkey]; rfl, hstored, hget, hprefix⟩
  | some key =>
    cases hfind : Map.find A.compareKey key st.map with
    | ok d =>
      obtain ⟨shared, i⟩ := d
      obtain ⟨k, hmem, h0⟩ := Map.mem_of_find hfind
      obtain ⟨ctx', act', hvalid', hkey', hget⟩ := h.get_of_mem _ hmem
      obtain rfl := hA ctx act ctx' act' key k hvalid hvalid' hkey hkey' h0
      cases shared with
      | true =>
        exact ⟨i, st, by simp only [Intern.store, hkey, hfind]; rfl, h, hget, prefix_rfl⟩
      | false =>
        obtain ⟨map, hadd, hstored⟩ := h.add_binding hvalid hkey hget phys true
        refine ⟨i, _, ?_, hstored, hget, prefix_rfl⟩
        have hadd' : Map.add A.compareKey phys key (true, i) st.map = .ok map := hadd
        simp only [Intern.store, hkey, hfind]
        rw [if_pos Bool.not_false, hadd']
        rfl
    | error e =>
      obtain rfl := Map.error_of_find hfind
      obtain ⟨hstored, hget⟩ := h.add mustshare act
      obtain ⟨map, hadd, hstored'⟩ := hstored.add_binding hvalid hkey hget phys mustshare
      refine ⟨_, _, ?_, hstored', hget, hprefix⟩
      simp only [Intern.store, hkey, hfind]
      rw [hadd]
      rfl

theorem Stored.actStore (h : Stored Valid st) (hA : Faithful A Valid) (phys : Map.PhysEq)
    (ctx : A.Context) (act : A.T) (hvalid : Valid ctx act) :
    ∃ i st', st.actStore phys ctx act = .ok (i, st') ∧ Stored Valid st' ∧
      st'.get[i]? = some act ∧ st.get <+: st'.get :=
  h.store hA hvalid phys false

/-! ## Sharing -/

theorem act_share (s : Shared α) : (Intern.share s).act = s.act := by
  cases s <;> rfl

theorem map_act_modify (l : List (Shared α)) (i : Nat) :
    (l.modify i Intern.share).map Shared.act = l.map Shared.act := by
  induction l generalizing i with
  | nil => simp
  | cons s l ih =>
    cases i with
    | zero => simp [act_share]
    | succ i => simp [ih]

/-- `act_get_shared` returns the actions of `act_get`. -/
theorem map_act_getShared (st : Intern A) : st.getShared.map Shared.act = st.get := by
  unfold Intern.getShared
  generalize Map.bindings st.map = bs
  have hinit : ((st.acts.map fun p => if p.1 then Shared.shared p.2 else .single p.2).reverse).map
      Shared.act = st.get := by
    rw [map_reverse, map_map, Intern.get]
    congr 2
    funext p
    by_cases hp : p.1 = true <;> simp [hp, Shared.act]
  generalize (st.acts.map fun p => if p.1 then Shared.shared p.2 else .single p.2).reverse = acts
    at hinit
  induction bs generalizing acts with
  | nil => exact hinit
  | cons b bs ih =>
    rw [foldl_cons]
    split
    · exact ih _ (by rw [map_act_modify, hinit])
    · exact ih _ hinit

end TravLang.Switch
