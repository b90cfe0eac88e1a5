import Mathlib.Data.List.GetD
import TravLang.Lib.DaryHeap
import TravLang.Lib.StableSort
import TravLang.Stdlib.Array.Basic

/-!
# `Array.sort` (`stdlib/array.ml`)

A heap sort with a heap of three children for each node. To take out the greatest element, the hole
at the root goes down to a leaf, without a comparison with the element that has to be put back, and
that element then goes up from there.

An exception does not undo the writes before it, so it comes with the array at that time.
-/

namespace TravLang.Arrays

open Result SortedAssoc StableSort DaryHeap List

variable {α : Type}

/-- The greatest child of `i` among the first `l` elements; `Bottom` if there is none -/
def maxson (cmp : α → α → Int) (a : List α) (l i : Nat) : Except Exn Nat := do
  let i31 := i + i + i + 1
  if i31 + 2 < l then
    let x := if cmp (← get a i31) (← get a (i31 + 1)) < 0 then i31 + 1 else i31
    return if cmp (← get a x) (← get a (i31 + 2)) < 0 then i31 + 2 else x
  else if i31 + 1 < l then
    return if cmp (← get a i31) (← get a (i31 + 1)) < 0 then i31 + 1 else i31
  else if i31 < l then return i31
  else throw (.bottom i)

theorem maxson_bounds {cmp : α → α → Int} {a : List α} {l i j : Nat}
    (h : maxson cmp a l i = .ok j) : i < j ∧ j < l := by
  unfold maxson at h
  dsimp only at h
  split at h
  · simp only [bind_eq_ok, pure_eq_ok, Except.ok.injEq] at h
    obtain ⟨_, -, _, -, _, -, _, -, rfl⟩ := h
    split
    · omega
    · split <;> omega
  · split at h
    · simp only [bind_eq_ok, pure_eq_ok, Except.ok.injEq] at h
      obtain ⟨_, -, _, -, rfl⟩ := h
      split <;> omega
    · split at h
      · obtain rfl := Except.ok.inj h
        omega
      · exact absurd h nofun

/-- An exception that leaves the array as it is -/
def keep {β : Type} (a : List α) (x : Except Exn β) : Except (Exn × List α) β := x.mapError (·, a)

def trickledown (cmp : α → α → Int) (a : List α) (l i : Nat) (e : α) :
    Except (Exn × List α) (List α) :=
  match _h : maxson cmp a l i with
  | .error exn => .error (exn, a)
  | .ok j =>
    match get a j with
    | .error exn => .error (exn, a)
    | .ok x =>
      if cmp x e > 0 then
        match set a i x with
        | .error exn => .error (exn, a)
        | .ok a => trickledown cmp a l j e
      else keep a (set a i e)
termination_by l - i
decreasing_by
  have := maxson_bounds _h
  omega

def trickle (cmp : α → α → Int) (a : List α) (l i : Nat) (e : α) :
    Except (Exn × List α) (List α) :=
  match trickledown cmp a l i e with
  | .error (.bottom i, a) => keep a (set a i e)
  | r => r

/-- The exception that ends the descent -/
def bubbledown (cmp : α → α → Int) (a : List α) (l i : Nat) : Exn × List α :=
  match _h : maxson cmp a l i with
  | .error exn => (exn, a)
  | .ok j =>
    match get a j with
    | .error exn => (exn, a)
    | .ok x =>
      match set a i x with
      | .error exn => (exn, a)
      | .ok a => bubbledown cmp a l j
termination_by l - i
decreasing_by
  have := maxson_bounds _h
  omega

def bubble (cmp : α → α → Int) (a : List α) (l i : Nat) : Except (Exn × List α) (Nat × List α) :=
  match bubbledown cmp a l i with
  | (.bottom i, a) => .ok (i, a)
  | exn => .error exn

def trickleup (cmp : α → α → Int) (a : List α) (i : Nat) (e : α) :
    Except (Exn × List α) (List α) :=
  let father := (i - 1) / 3
  if _h : i = father then .error (.assertFailure, a)
  else
    match get a father with
    | .error exn => .error (exn, a)
    | .ok x =>
      if cmp x e < 0 then
        match set a i x with
        | .error exn => .error (exn, a)
        | .ok a => if father > 0 then trickleup cmp a father e else keep a (set a 0 e)
      else keep a (set a i e)
termination_by i
decreasing_by
  omega

/-- `for i = n - 1 downto 0 do trickle l i (get a i) done` -/
def heapify (cmp : α → α → Int) (l : Nat) : Nat → List α → Except (Exn × List α) (List α)
  | 0, a => .ok a
  | i + 1, a => do
    let e ← keep a (get a i)
    let a ← trickle cmp a l i e
    heapify cmp l i a

/-- `for i = n - 1 downto 2 do … done` -/
def extract (cmp : α → α → Int) : Nat → List α → Except (Exn × List α) (List α)
  | n + 3, a => do
    let i := n + 2
    let e ← keep a (get a i)
    let x ← keep a (get a 0)
    let a ← keep a (set a i x)
    let (j, a) ← bubble cmp a i 0
    let a ← trickleup cmp a j e
    extract cmp i a
  | _, a => .ok a

def sort (cmp : α → α → Int) (a : List α) : Except (Exn × List α) (List α) := do
  let l := a.length
  let a ← heapify cmp l ((l + 1) / 3) a
  let a ← extract cmp l a
  if l > 1 then
    let e ← keep a (get a 1)
    let x ← keep a (get a 0)
    let a ← keep a (set a 1 x)
    keep a (set a 0 e)
  else return a

/-! ## Moving the hole -/

section Spec

variable {cmp : α → α → Int} {a a' : List α} {l lo i j : Nat} {d e : α}

/-- The order of the elements -/
abbrev NotAfter (cmp : α → α → Int) (x y : α) : Prop := cmp x y ≤ 0

theorem get_of_lt (h : i < a.length) (d : α) : get a i = .ok (a.getD i d) := by
  rw [getD_eq_getElem _ _ h]
  exact get_ok (List.getElem?_eq_getElem h)

theorem getD_set (h : i < a.length) (x : α) :
    (fun k => (a.set i x).getD k d) = Function.update (fun k => a.getD k d) i x := by
  funext k
  by_cases hk : k = i
  · subst hk
    rw [Function.update_self, List.getD_eq_getElem?_getD, List.getElem?_set_self h,
      Option.getD_some]
  · rw [Function.update_of_ne hk, List.getD_eq_getElem?_getD, List.getElem?_set_ne (Ne.symm hk),
      List.getD_eq_getElem?_getD]

theorem child_iff {n p c : Nat} :
    Child 3 n p c ↔ c < n ∧ (c = p + p + p + 1 ∨ c = p + p + p + 2 ∨ c = p + p + p + 3) := by
  constructor
  · rintro ⟨hpos, hlt, hparent⟩
    unfold parent at hparent
    exact ⟨hlt, by omega⟩
  · rintro ⟨hlt, hc⟩
    exact ⟨by omega, hlt, by unfold parent; omega⟩

/-- The array `a` with a hole at `i` becomes `a'` with a hole at `j`, by moves below `l`. -/
structure Moved (l : Nat) (a : List α) (i : Nat) (a' : List α) (j : Nat) : Prop where
  length : a'.length = a.length
  rest : ∀ k, l ≤ k → a'[k]? = a[k]?
  perm : ∀ e, (a'.set j e).Perm (a.set i e)

theorem Moved.refl (l : Nat) (a : List α) (i : Nat) : Moved l a i a i :=
  ⟨rfl, fun _ _ => rfl, fun _ => .refl _⟩

theorem Moved.trans {a'' : List α} {k : Nat} (h : Moved l a i a' j) (h' : Moved l a' j a'' k) :
    Moved l a i a'' k :=
  ⟨h'.length.trans h.length, fun m hm => (h'.rest m hm).trans (h.rest m hm),
    fun e => (h'.perm e).trans (h.perm e)⟩

theorem Moved.step (hi : i < l) (hil : i < a.length) (hj : j < a.length) (hij : i ≠ j) (d : α) :
    Moved l a i (a.set i (a.getD j d)) j where
  length := length_set
  rest k hk := List.getElem?_set_ne (by omega)
  perm e := by
    have hswap := @List.set_set_perm _ (a.set i e) i j (by simpa) (by simpa)
    rw [set_set, getElem_set_self, getElem_set_ne hij] at hswap
    rw [getD_eq_getElem _ _ hj]
    exact hswap

/-! ## The routines -/

/-- The greater of two elements -/
theorem greater_spec (ho : TotalPreorder cmp) {v : Nat → α} {x y p : Nat}
    (hp : p = if cmp (v x) (v y) < 0 then y else x) :
    (p = x ∨ p = y) ∧ cmp (v x) (v p) ≤ 0 ∧ cmp (v y) (v p) ≤ 0 := by
  split at hp
  · next hlt =>
    subst hp
    exact ⟨.inr rfl, Int.le_of_lt hlt, Int.le_of_eq (ho.self _)⟩
  · next hge =>
    subst hp
    exact ⟨.inl rfl, Int.le_of_eq (ho.self _), ho.le_symm (Int.not_lt.mp hge)⟩

theorem maxson_spec (ho : TotalPreorder cmp) (hl : l ≤ a.length) (i : Nat) (d : α) :
    (∃ j, maxson cmp a l i = .ok j ∧ Child 3 l i j ∧
      ∀ c, Child 3 l i c → cmp (a.getD c d) (a.getD j d) ≤ 0) ∨
    maxson cmp a l i = .error (.bottom i) ∧ ∀ c, ¬ Child 3 l i c := by
  simp only [child_iff]
  unfold maxson
  dsimp only
  split
  · next h3 =>
    rw [get_of_lt (by omega) d, get_of_lt (by omega) d, ok_bind, ok_bind]
    generalize hx : (if cmp (a.getD (i + i + i + 1) d) (a.getD (i + i + i + 1 + 1) d) < 0 then
      i + i + i + 1 + 1 else i + i + i + 1) = x
    obtain ⟨hxeq, hx1, hx2⟩ := greater_spec (v := fun k => a.getD k d) ho hx.symm
    rw [get_of_lt (by omega) d, get_of_lt (by omega) d, ok_bind, ok_bind]
    generalize hy : (if cmp (a.getD x d) (a.getD (i + i + i + 1 + 2) d) < 0 then
      i + i + i + 1 + 2 else x) = y
    obtain ⟨hyeq, hy1, hy2⟩ := greater_spec (v := fun k => a.getD k d) ho hy.symm
    refine .inl ⟨y, rfl, ⟨by omega, by omega⟩, ?_⟩
    rintro c ⟨-, rfl | rfl | rfl⟩
    · exact ho.trans _ _ _ hx1 hy1
    · exact ho.trans _ _ _ hx2 hy1
    · exact hy2
  · next h3 =>
    split
    · next h2 =>
      rw [get_of_lt (by omega) d, get_of_lt (by omega) d, ok_bind, ok_bind]
      generalize hx : (if cmp (a.getD (i + i + i + 1) d) (a.getD (i + i + i + 1 + 1) d) < 0 then
        i + i + i + 1 + 1 else i + i + i + 1) = x
      obtain ⟨hxeq, hx1, hx2⟩ := greater_spec (v := fun k => a.getD k d) ho hx.symm
      refine .inl ⟨x, rfl, ⟨by omega, by omega⟩, ?_⟩
      rintro c ⟨hc, rfl | rfl | rfl⟩
      · exact hx1
      · exact hx2
      · omega
    · next h2 =>
      split
      · next h1 =>
        refine .inl ⟨_, rfl, ⟨h1, .inl rfl⟩, ?_⟩
        intro c hc
        obtain rfl : c = i + i + i + 1 := by omega
        exact Int.le_of_eq (ho.self _)
      · next h1 => exact .inr ⟨rfl, fun c hc => by omega⟩

/-- What a routine returns that fills the hole at `i` of `a` with `e`. -/
structure Filled (cmp : α → α → Int) (d : α) (lo l : Nat) (a : List α) (i : Nat) (e : α)
    (a' : List α) : Prop where
  length : a'.length = a.length
  rest : ∀ k, l ≤ k → a'[k]? = a[k]?
  perm : a'.Perm (a.set i e)
  ordered : Ordered (NotAfter cmp) 3 lo l fun k => a'.getD k d

theorem Moved.filled (h : Moved l a i a' j) (hj : j < l) (hl : l ≤ a.length)
    (hh : Hole (NotAfter cmp) 3 lo l (fun k => a'.getD k d) j)
    (habove : ∀ p, Child 3 l p j → lo ≤ p → cmp e (a'.getD p d) ≤ 0)
    (hbelow : ∀ c, Child 3 l j c → cmp (a'.getD c d) e ≤ 0) :
    Filled cmp d lo l a i e (a'.set j e) where
  length := length_set.trans h.length
  rest k hk := (List.getElem?_set_ne (by omega)).trans (h.rest k hk)
  perm := h.perm e
  ordered := by
    rw [getD_set (by have := h.length; omega)]
    exact hh.fill habove hbelow

theorem Moved.trans_filled (h : Moved l a i a' j) {b : List α}
    (h' : Filled cmp d lo l a' j e b) : Filled cmp d lo l a i e b :=
  ⟨h'.length.trans h.length, fun k hk => (h'.rest k hk).trans (h.rest k hk),
    h'.perm.trans (h.perm e), h'.ordered⟩

section

variable (ho : TotalPreorder cmp) (hl : l ≤ a.length) (hi : i < l) (hlo : lo ≤ i)
  (hh : Hole (NotAfter cmp) 3 lo l (fun k => a.getD k d) i)
  (habove : ∀ p, Child 3 l p i → lo ≤ p → cmp e (a.getD p d) ≤ 0)

include ho hl hi hlo hh habove

/-- The element ends in the array, or at a leaf by the exception. -/
theorem trickledown_spec : ∃ b, Filled cmp d lo l a i e b ∧ (trickledown cmp a l i e = .ok b ∨
      ∃ j c, trickledown cmp a l i e = .error (.bottom j, c) ∧ set c j e = .ok b) := by
  induction hn : l - i using Nat.strongRecOn generalizing a i with
  | ind n ih =>
    subst hn
    rw [trickledown]
    rcases maxson_spec ho hl i d with ⟨j, hj, hchild, hmax⟩ | ⟨herr, hnone⟩
    · split
      · next exn heq => exact absurd (hj.symm.trans heq) nofun
      next j' heq =>
      obtain rfl := Except.ok.inj (hj.symm.trans heq)
      have hij := hchild.parent_lt
      have hjl := hchild.lt
      have hia : i < a.length := by omega
      have hja : j < a.length := by omega
      rw [get_of_lt hja d, set_ok hia e]
      dsimp only
      split
      · next hgt =>
        have hmoved := Moved.step hi hia hja (Nat.ne_of_lt hij) d
        have hlen := hmoved.length
        have hdown := hh.down hlo hchild hmax
        rw [← getD_set hia] at hdown
        rw [set_ok hia]
        obtain ⟨b, hfilled, hb⟩ := ih (l - j) (by omega) (by omega) hjl (by omega) hdown
          (fun p hp _ => by
            obtain rfl : i = p := hchild.parent_eq.symm.trans hp.parent_eq
            rw [show (a.set i _).getD i d = _ from congrFun (getD_set hia _) i,
              Function.update_self]
            exact ho.le_symm (by omega)) rfl
        exact ⟨b, hmoved.trans_filled hfilled, hb⟩
      · next hle =>
        refine ⟨a.set i e, (Moved.refl l a i).filled hi hl hh habove ?_, .inl rfl⟩
        exact fun c hc => ho.trans _ _ _ (hmax c hc) (by omega)
    · split
      · next exn heq =>
        obtain rfl := Except.error.inj (herr.symm.trans heq)
        exact ⟨a.set i e, (Moved.refl l a i).filled hi hl hh habove fun c hc => absurd hc (hnone c),
          .inr ⟨i, a, rfl, set_ok (by omega) e⟩⟩
      · next j heq => exact absurd (herr.symm.trans heq) nofun

theorem trickle_spec : ∃ b, trickle cmp a l i e = .ok b ∧ Filled cmp d lo l a i e b := by
  obtain ⟨b, hfilled, hok | ⟨j, c, herr, hset⟩⟩ := trickledown_spec ho hl hi hlo hh habove
  · exact ⟨b, by rw [trickle, hok], hfilled⟩
  · exact ⟨b, by rw [trickle, herr]; dsimp only; rw [hset]; rfl, hfilled⟩

end

/-- The hole ends at a leaf. -/
theorem bubbledown_spec (ho : TotalPreorder cmp) (hl : l ≤ a.length) (hi : i < l)
    (hh : Hole (NotAfter cmp) 3 0 l (fun k => a.getD k d) i) :
    ∃ j c, bubbledown cmp a l i = (.bottom j, c) ∧ Moved l a i c j ∧ i ≤ j ∧ j < l ∧
      (∀ k, ¬ Child 3 l j k) ∧ Hole (NotAfter cmp) 3 0 l (fun k => c.getD k d) j := by
  induction hn : l - i using Nat.strongRecOn generalizing a i with
  | ind n ih =>
    subst hn
    rw [bubbledown]
    rcases maxson_spec ho hl i d with ⟨j, hj, hchild, hmax⟩ | ⟨herr, hnone⟩
    · split
      · next exn heq => exact absurd (hj.symm.trans heq) nofun
      next j' heq =>
      obtain rfl := Except.ok.inj (hj.symm.trans heq)
      have hij := hchild.parent_lt
      have hjl := hchild.lt
      have hia : i < a.length := by omega
      have hja : j < a.length := by omega
      have hmoved := Moved.step hi hia hja (Nat.ne_of_lt hij) d
      have hlen := hmoved.length
      have hdown := hh.down (Nat.zero_le i) hchild hmax
      rw [← getD_set hia] at hdown
      rw [get_of_lt hja d]
      dsimp only
      rw [set_ok hia]
      obtain ⟨k, c, hc, hmoved', hjk, hrest⟩ := ih (l - j) (by omega) (by omega) hjl hdown rfl
      exact ⟨k, c, hc, hmoved.trans hmoved', by omega, hrest⟩
    · split
      · next exn heq =>
        obtain rfl := Except.error.inj (herr.symm.trans heq)
        exact ⟨i, a, rfl, .refl l a i, Nat.le_refl i, hi, hnone, hh⟩
      · next j heq => exact absurd (herr.symm.trans heq) nofun

theorem trickleup_spec (ho : TotalPreorder cmp) (hl : l ≤ a.length) (hi : i < l) (hpos : 0 < i)
    (hh : Hole (NotAfter cmp) 3 0 l (fun k => a.getD k d) i)
    (hbelow : ∀ c, Child 3 l i c → cmp (a.getD c d) e ≤ 0) :
    ∃ b, trickleup cmp a i e = .ok b ∧ Filled cmp d 0 l a i e b := by
  induction i using Nat.strongRecOn generalizing a with
  | ind i ih =>
    have hchild : Child 3 l ((i - 1) / 3) i := ⟨hpos, hi, rfl⟩
    have hlt := hchild.parent_lt
    have : IsTrans α (NotAfter cmp) := ⟨ho.trans⟩
    rw [trickleup]
    have hia : i < a.length := by omega
    have hfa : (i - 1) / 3 < a.length := by omega
    rw [dif_neg (by omega), get_of_lt hfa d]
    dsimp only
    split
    · next hgt =>
      have hmoved := Moved.step hi hia hfa (Nat.ne_of_gt hlt) d
      have hlen := hmoved.length
      have hup := hh.up hchild (Nat.zero_le _)
      have hbelow' := hh.below_up hchild (Nat.zero_le _) (Int.le_of_lt hgt)
      rw [← getD_set hia] at hup hbelow'
      rw [set_ok hia]
      dsimp only
      split
      · next hfather =>
        obtain ⟨b, hb, hfilled⟩ := ih _ hlt (by omega) (by omega) hfather hup hbelow'
        exact ⟨b, hb, hmoved.trans_filled hfilled⟩
      · next hfather =>
        have hzero : (i - 1) / 3 = 0 := by omega
        rw [hzero] at hmoved hup hbelow'
        rw [hzero, set_ok (by rw [length_set]; omega)]
        exact ⟨_, rfl, hmoved.filled (by omega) hl hup
          (fun p hp => absurd hp.pos (Nat.lt_irrefl 0)) hbelow'⟩
    · next hle =>
      rw [set_ok hia]
      refine ⟨_, rfl, (Moved.refl l a i).filled hi hl hh (fun p hp _ => ?_) hbelow⟩
      rw [← hp.parent_eq]
      exact ho.le_symm (Int.not_lt.mp hle)

/-! ## The loops -/

theorem heapify_spec (ho : TotalPreorder cmp) (d : α) : ∀ {n : Nat} {a : List α}, n ≤ a.length →
    Ordered (NotAfter cmp) 3 n a.length (fun k => a.getD k d) →
    ∃ b, heapify cmp a.length n a = .ok b ∧ b.Perm a ∧
      Ordered (NotAfter cmp) 3 0 b.length fun k => b.getD k d
  | 0, a, _, h => ⟨a, rfl, .refl a, h⟩
  | i + 1, a, hn, h => by
    obtain ⟨b, hb, hfilled⟩ := trickle_spec (e := a.getD i d) ho (Nat.le_refl _) hn (Nat.le_refl i)
      h.hole_of_succ fun p hp hlo => absurd hp.parent_lt (Nat.not_lt.mpr hlo)
    have hperm : b.Perm a := by
      have hset : a.set i (a.getD i d) = a := by
        rw [getD_eq_getElem _ _ hn, set_getElem_self]
      exact hset ▸ hfilled.perm
    have hordered := hfilled.ordered
    rw [← hfilled.length] at hordered
    obtain ⟨c, hc, hperm', hordered'⟩ :=
      heapify_spec ho d (by rw [hfilled.length]; omega) hordered
    refine ⟨c, ?_, hperm'.trans hperm, hordered'⟩
    rw [hfilled.length] at hc
    rw [heapify, get_of_lt hn d]
    show (trickle cmp a a.length i (a.getD i d) >>= fun a' => heapify cmp a.length i a') = .ok c
    rw [hb, ok_bind, hc]

/-- The elements from `n` on are in their place, and those before it form a heap. -/
structure Partly (cmp : α → α → Int) (d : α) (n : Nat) (a : List α) : Prop where
  ordered : Ordered (NotAfter cmp) 3 0 n fun k => a.getD k d
  bounded : ∀ x ∈ a.take n, ∀ y ∈ a.drop n, cmp x y ≤ 0
  inOrder : InOrder cmp (a.drop n)

theorem drop_eq_of_rest (h : ∀ k, l ≤ k → a'[k]? = a[k]?) : a'.drop l = a.drop l := by
  refine List.ext_getElem? fun k => ?_
  rw [List.getElem?_drop, List.getElem?_drop, h _ (Nat.le_add_right l k)]

/-- The greatest element of the heap is put in its place. -/
theorem Partly.step (ho : TotalPreorder cmp) {n : Nat} (h : Partly cmp d (n + 3) a)
    (hn : n + 3 ≤ a.length) : ∃ j b c,
      bubble cmp (a.set (n + 2) (a.getD 0 d)) (n + 2) 0 = .ok (j, b) ∧
      trickleup cmp b j (a.getD (n + 2) d) = .ok c ∧ c.Perm a ∧ Partly cmp d (n + 2) c := by
  have : IsTrans α (NotAfter cmp) := ⟨ho.trans⟩
  have : Std.Refl (NotAfter cmp) := ⟨fun x => Int.le_of_eq (ho.self x)⟩
  have hlast : n + 2 < a.length := hn
  have hlen : (a.set (n + 2) (a.getD 0 d)).length = a.length := length_set
  have hhole : Hole (NotAfter cmp) 3 0 (n + 2)
      (fun k => (a.set (n + 2) (a.getD 0 d)).getD k d) 0 := by
    refine h.ordered.hole_root.congr fun k hk _ => ?_
    exact (congrFun (getD_set hlast _) k).trans (Function.update_of_ne (Nat.ne_of_lt hk) _ _)
  obtain ⟨j, b, hb, hmoved, -, hj, hleaf, hhole'⟩ :=
    bubbledown_spec ho (by omega) (Nat.succ_pos _) hhole
  have hpos : 0 < j := Nat.pos_of_ne_zero fun hzero =>
    hleaf 1 (hzero ▸ ⟨Nat.one_pos, by omega, rfl⟩)
  obtain ⟨c, hc, hfilled⟩ := trickleup_spec (e := a.getD (n + 2) d) ho
    (by rw [hmoved.length]; omega) hj hpos hhole' fun k hk => absurd hk (hleaf k)
  have hperm : c.Perm a := by
    refine (hfilled.perm.trans (hmoved.perm _)).trans ?_
    rw [getD_eq_getElem _ _ hlast, getD_eq_getElem _ _ (by omega)]
    exact set_set_perm hlast (by omega)
  have hdrop : c.drop (n + 2) = a.getD 0 d :: a.drop (n + 3) := by
    rw [drop_eq_of_rest fun k hk => (hfilled.rest k hk).trans (hmoved.rest k hk),
      set_eq_take_append_cons_drop, if_pos hlast,
      List.drop_left' (length_take_of_le (Nat.le_of_lt hlast))]
  have htake : ∀ x ∈ c.take (n + 2), x ∈ a.take (n + 3) := by
    have hsplit := hperm
    rw [← take_append_drop (n + 2) c, ← take_append_drop (n + 3) a, hdrop,
      append_cons] at hsplit
    intro x hx
    exact ((perm_append_right_iff _).mp hsplit).subset (mem_append_left _ hx)
  have hroot : ∀ x ∈ a.take (n + 3), cmp x (a.getD 0 d) ≤ 0 := by
    intro x hx
    obtain ⟨k, hk, rfl⟩ := mem_take_iff_getElem.mp hx
    have hroot := h.ordered.root (show k < n + 3 by omega)
    rwa [getD_eq_getElem _ _ (by omega)] at hroot
  refine ⟨j, b, c, by rw [bubble, hb], hc, hperm, hfilled.ordered, ?_, ?_⟩
  · intro x hx y hy
    rw [hdrop] at hy
    rcases mem_cons.mp hy with rfl | hy
    · exact hroot x (htake x hx)
    · exact h.bounded x (htake x hx) y hy
  · rw [hdrop]
    refine pairwise_cons.mpr ⟨fun y hy => h.bounded _ ?_ y hy, h.inOrder⟩
    rw [getD_eq_getElem _ _ (by omega)]
    exact mem_take_iff_getElem.mpr ⟨0, by omega, rfl⟩

theorem extract_spec (ho : TotalPreorder cmp) (d : α) : ∀ {n : Nat} {a : List α}, n ≤ a.length →
    Partly cmp d n a → ∃ b, extract cmp n a = .ok b ∧ b.Perm a ∧ Partly cmp d (min n 2) b
  | 0, a, _, h => ⟨a, rfl, .refl a, h⟩
  | 1, a, _, h => ⟨a, rfl, .refl a, h⟩
  | 2, a, _, h => ⟨a, rfl, .refl a, h⟩
  | n + 3, a, hn, h => by
    obtain ⟨j, b, c, hb, hc, hperm, hpartly⟩ := h.step ho hn
    obtain ⟨s, hs, hperm', hpartly'⟩ :=
      extract_spec ho d (by rw [hperm.length_eq]; omega) hpartly
    refine ⟨s, ?_, hperm'.trans hperm, ?_⟩
    · rw [extract, get_of_lt hn d, get_of_lt (by omega) d]
      show (keep a (set a (n + 2) (a.getD 0 d)) >>= fun a' => bubble cmp a' (n + 2) 0 >>= fun r =>
        trickleup cmp r.2 r.1 (a.getD (n + 2) d) >>= fun a' => extract cmp (n + 2) a') = .ok s
      rw [set_ok hn]
      show (bubble cmp _ (n + 2) 0 >>= fun r => _) = _
      rw [hb, ok_bind, hc, ok_bind, hs]
    · rwa [show min (n + 3) 2 = min (n + 2) 2 by omega]

/-- The last two elements of the heap are in the wrong order. -/
theorem Partly.swap {x0 x1 : α} {t : List α}
    (h : Partly cmp d 2 (x0 :: x1 :: t)) : InOrder cmp (x1 :: x0 :: t) := by
  have hle : cmp x1 x0 ≤ 0 := h.ordered 0 1 ⟨Nat.one_pos, by decide, rfl⟩ (Nat.le_refl 0)
  have h0 : ∀ y ∈ t, cmp x0 y ≤ 0 := h.bounded x0 (by simp)
  have h1 : ∀ y ∈ t, cmp x1 y ≤ 0 := h.bounded x1 (by simp)
  refine pairwise_cons.mpr ⟨?_, pairwise_cons.mpr ⟨h0, h.inOrder⟩⟩
  exact forall_mem_cons.mpr ⟨hle, h1⟩

/-- **`Array.sort` terminates without an exception and leaves the elements in non-decreasing
order.** -/
theorem sort_sorts (ho : TotalPreorder cmp) (a : List α) :
    ∃ s, sort cmp a = .ok s ∧ s.Perm a ∧ s.Pairwise fun x y => cmp x y ≤ 0 := by
  cases ha : a with
  | nil => exact ⟨[], by simp [sort, heapify, extract], .refl [], .nil⟩
  | cons d t =>
    rw [← ha]
    have hpos : 0 < a.length := by rw [ha]; exact Nat.succ_pos _
    have hleaves : Ordered (NotAfter cmp) 3 ((a.length + 1) / 3) a.length
        (fun k => a.getD k d) := by
      intro p c hc hlo
      have := child_iff.mp hc
      omega
    obtain ⟨b, hb, hperm, hordered⟩ := heapify_spec ho d (by omega) hleaves
    have hpartly : Partly cmp d b.length b := by
      refine ⟨hordered, ?_, ?_⟩
      · rw [drop_length]
        exact fun _ _ _ hy => absurd hy not_mem_nil
      · rw [drop_length]
        exact .nil
    obtain ⟨c, hc, hperm', hpartly'⟩ := extract_spec ho d (Nat.le_refl _) hpartly
    have hperm'' := hperm'.trans hperm
    rw [hperm.length_eq] at hc hpartly'
    unfold sort
    dsimp only
    rw [hb, ok_bind, hc, ok_bind]
    match c, hperm''.length_eq with
    | [x0], hlen =>
      rw [← hlen]
      exact ⟨[x0], rfl, hperm'', pairwise_singleton _ x0⟩
    | x0 :: x1 :: t, hlen =>
      rw [← hlen] at hpartly' ⊢
      rw [length_cons, length_cons, show min (t.length + 1 + 1) 2 = 2 by omega] at hpartly'
      rw [if_pos (by simp)]
      exact ⟨x1 :: x0 :: t, rfl, (List.Perm.swap x0 x1 t).trans hperm'', hpartly'.swap⟩
    | [], hlen =>
      rw [← hlen] at hpos
      exact absurd hpos (Nat.lt_irrefl 0)

end Spec

theorem sort_sorts_ints : ∃ s, sort (fun x y : Int => x - y) [3, 1, 4, 1, 5] = .ok s ∧
    s.Perm [3, 1, 4, 1, 5] ∧ s.Pairwise fun x y => x - y ≤ 0 :=
  sort_sorts (TotalPreorder.sub id) _

end TravLang.Arrays
