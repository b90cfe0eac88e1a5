import TravLang.Lib.Result
import Mathlib.Data.List.Basic

/-!
# Height-balanced trees with a slack of two

Binary trees that store their height in every node, and the rebalancing operations on them:
`bal` repairs one step of imbalance, `join` puts two trees of unrelated heights together.
The payload of a node is arbitrary, so the same trees serve for sets and for maps.

The operations can fail (`bal` has no rotation to make when a subtree that must be there is
empty). Two families of facts are proved about them.

* **contents** (`bal_toList`, `join_toList`, `split_toList`): whatever the shapes are, an
  operation that succeeds returns the elements it was given, in order
* **balance** (`bal_grows`, `join_grows`, `split_balanced`): on balanced arguments the operation
  does succeed, the result is balanced, and its height is known up to one
-/

namespace Avl

open Result

/-- A binary tree with the height stored in every node. -/
inductive Tree (β : Type) where
  | empty
  | node (l : Tree β) (x : β) (r : Tree β) (h : Nat)
  deriving Repr, DecidableEq

/-- The exceptions the operations raise. -/
structure Errors (ε : Type) where
  bal : ε
  removeMin : ε
  minElt : ε

namespace Tree

variable {β : Type} {k : Nat}

/-- The stored height. -/
def height : Tree β → Nat
  | empty => 0
  | node _ _ _ h => h

@[simp] theorem height_empty : (empty : Tree β).height = 0 := rfl

@[simp] theorem height_node (l : Tree β) (x : β) (r : Tree β) (h : Nat) :
    (node l x r h).height = h := rfl

/-- The real height. -/
def depth : Tree β → Nat
  | empty => 0
  | node l _ r _ => max l.depth r.depth + 1

/-- The elements from left to right. -/
def toList : Tree β → List β
  | empty => []
  | node l x r _ => l.toList ++ x :: r.toList

/-- The number of elements. -/
def size : Tree β → Nat
  | empty => 0
  | node l _ r _ => l.size + 1 + r.size

theorem length_toList (t : Tree β) : t.toList.length = t.size := by
  induction t with
  | empty => rfl
  | node l x r h ihl ihr => simp only [toList, size, List.length_append, List.length_cons]; omega

/-- Stored heights are real, and the heights of two siblings differ by at most two. -/
def Balanced : Tree β → Prop
  | empty => True
  | node l _ r h => l.Balanced ∧ r.Balanced ∧ h = max l.depth r.depth + 1 ∧
      l.depth ≤ r.depth + 2 ∧ r.depth ≤ l.depth + 2

theorem Balanced.height_eq {t : Tree β} (h : t.Balanced) : t.height = t.depth := by
  cases t with
  | empty => rfl
  | node l x r k => exact h.2.2.1

/-- Balance of a node in terms of the stored heights, which is what the operations look at. -/
theorem balanced_node {l r : Tree β} {x : β} :
    (node l x r k).Balanced ↔ l.Balanced ∧ r.Balanced ∧ k = max l.height r.height + 1 ∧
      l.height ≤ r.height + 2 ∧ r.height ≤ l.height + 2 := by
  constructor
  · rintro ⟨hl, hr, hk⟩
    rw [hl.height_eq, hr.height_eq]
    exact ⟨hl, hr, hk⟩
  · rintro ⟨hl, hr, hk⟩
    rw [hl.height_eq, hr.height_eq] at hk
    exact ⟨hl, hr, hk⟩

theorem Balanced.height_pos {l r : Tree β} {x : β} (h : (node l x r k).Balanced) :
    0 < k := by
  obtain ⟨_, _, hk, _⟩ := h
  omega

end Tree

open Avl.Tree

variable {β ε : Type} {l r t t1 t2 : Tree β} {x : β} {e : Errors ε} {res : Except ε (Tree β)}
  {lo hi lo' hi' : Nat} {c : β → Int}

/-! ## Building nodes -/

/-- A node over two subtrees, with its height computed from theirs. -/
def create (l : Tree β) (x : β) (r : Tree β) : Tree β :=
  .node l x r (if r.height ≤ l.height then l.height + 1 else r.height + 1)

def singleton (x : β) : Tree β := .node .empty x .empty 1

@[simp] theorem height_create (l : Tree β) (x : β) (r : Tree β) :
    (create l x r).height = max l.height r.height + 1 := by
  unfold create
  rw [height_node]
  split <;> omega

@[simp] theorem toList_create (l : Tree β) (x : β) (r : Tree β) :
    (create l x r).toList = l.toList ++ x :: r.toList := rfl

@[simp] theorem toList_singleton (x : β) : (singleton x).toList = [x] := rfl

theorem balanced_singleton (x : β) : (singleton x).Balanced := by
  simp [singleton, Tree.Balanced, Tree.depth]

theorem balanced_create (hl : l.Balanced) (hr : r.Balanced) (h1 : l.height ≤ r.height + 2)
    (h2 : r.height ≤ l.height + 2) :
    (create l x r).Balanced := by
  refine balanced_node.mpr ⟨hl, hr, ?_, h1, h2⟩
  split <;> omega

/-- `create`, with at most one rotation when the heights differ by more than two. -/
def bal (e : Errors ε) (l : Tree β) (x : β) (r : Tree β) : Except ε (Tree β) :=
  if l.height > r.height + 2 then
    match l with
    | .empty => .error e.bal
    | .node ll lx lr _ =>
      if ll.height ≥ lr.height then
        .ok (create ll lx (create lr x r))
      else
        match lr with
        | .empty => .error e.bal
        | .node lrl lrx lrr _ => .ok (create (create ll lx lrl) lrx (create lrr x r))
  else if r.height > l.height + 2 then
    match r with
    | .empty => .error e.bal
    | .node rl rx rr _ =>
      if rr.height ≥ rl.height then
        .ok (create (create l x rl) rx rr)
      else
        match rl with
        | .empty => .error e.bal
        | .node rll rlx rlr _ => .ok (create (create l x rll) rlx (create rlr rx rr))
  else
    .ok (.node l x r (if l.height ≥ r.height then l.height + 1 else r.height + 1))

/-- A successful `bal` keeps the elements and their order. -/
theorem bal_toList (h : bal e l x r = .ok t) :
    t.toList = l.toList ++ x :: r.toList := by
  unfold bal at h
  repeat' split at h
  all_goals cases h
  all_goals simp [Tree.toList]

/--
`res` is a balanced tree whose height lies in `[lo, hi]`.

All operations below return their argument's height or one off it, so this is the form in which
each one's balance is stated.
-/
def Grows (res : Except ε (Tree β)) (lo hi : Nat) : Prop :=
  ∃ t, res = .ok t ∧ t.Balanced ∧ lo ≤ t.height ∧ t.height ≤ hi

theorem Grows.mono (h : Grows res lo hi)
    (h1 : lo' ≤ lo) (h2 : hi ≤ hi') : Grows res lo' hi' := by
  obtain ⟨t, ht, hb, hlo, hhi⟩ := h
  exact ⟨t, ht, hb, by omega, by omega⟩

theorem Grows.bind {f : Tree β → Except ε (Tree β)}
    (h : Grows res lo hi)
    (hf : ∀ t, t.Balanced → lo ≤ t.height → t.height ≤ hi → Grows (f t) lo' hi') :
    Grows (res >>= f) lo' hi' := by
  obtain ⟨t, rfl, hb, hlo, hhi⟩ := h
  exact hf t hb hlo hhi

section

variable (hl : l.Balanced) (hr : r.Balanced)

include hl hr

/-- Siblings that are close enough are put together without a rotation. -/
theorem bal_grows_near (h1 : l.height ≤ r.height + 2) (h2 : r.height ≤ l.height + 2) :
    Grows (bal e l x r) (max l.height r.height + 1) (max l.height r.height + 1) := by
  have hbal : bal e l x r = .ok (create l x r) := by
    unfold bal
    rw [if_neg (by omega), if_neg (by omega)]
    rfl
  exact ⟨_, hbal, balanced_create hl hr h1 h2, by simp, by simp⟩

/-- The left subtree is too high by one: a rotation to the right. -/
theorem bal_grows_left (h : l.height = r.height + 3) :
    Grows (bal e l x r) l.height (l.height + 1) := by
  cases l with
  | empty => simp at h
  | node ll lx lr k =>
    obtain ⟨hll, hlr, hk, hd1, hd2⟩ := balanced_node.mp hl
    simp only [height_node] at h ⊢
    unfold bal
    rw [if_pos (by simp only [height_node]; omega)]
    by_cases hge : ll.height ≥ lr.height
    · simp only [if_pos hge]
      have hin : (create lr x r).Balanced := balanced_create hlr hr (by omega) (by omega)
      refine ⟨_, rfl, balanced_create hll hin ?_ ?_, ?_, ?_⟩ <;> simp only [height_create] <;>
        omega
    · simp only [if_neg hge]
      cases lr with
      | empty => simp at hge
      | node lrl lrx lrr m =>
        obtain ⟨hlrl, hlrr, hm, hd3, hd4⟩ := balanced_node.mp hlr
        simp only [height_node] at hge hk hd1 hd2
        have hin1 : (create ll lx lrl).Balanced := balanced_create hll hlrl (by omega) (by omega)
        have hin2 : (create lrr x r).Balanced := balanced_create hlrr hr (by omega) (by omega)
        refine ⟨_, rfl, balanced_create hin1 hin2 ?_ ?_, ?_, ?_⟩ <;>
          simp only [height_create] <;> omega

/-- The right subtree is too high by one: a rotation to the left. -/
theorem bal_grows_right (h : r.height = l.height + 3) :
    Grows (bal e l x r) r.height (r.height + 1) := by
  cases r with
  | empty => simp at h
  | node rl rx rr k =>
    obtain ⟨hrl, hrr, hk, hd1, hd2⟩ := balanced_node.mp hr
    simp only [height_node] at h ⊢
    unfold bal
    rw [if_neg (by simp only [height_node]; omega), if_pos (by simp only [height_node]; omega)]
    by_cases hge : rr.height ≥ rl.height
    · simp only [if_pos hge]
      have hin : (create l x rl).Balanced := balanced_create hl hrl (by omega) (by omega)
      refine ⟨_, rfl, balanced_create hin hrr ?_ ?_, ?_, ?_⟩ <;> simp only [height_create] <;>
        omega
    · simp only [if_neg hge]
      cases rl with
      | empty => simp at hge
      | node rll rlx rlr m =>
        obtain ⟨hrll, hrlr, hm, hd3, hd4⟩ := balanced_node.mp hrl
        simp only [height_node] at hge hk hd1 hd2
        have hin1 : (create l x rll).Balanced := balanced_create hl hrll (by omega) (by omega)
        have hin2 : (create rlr rx rr).Balanced := balanced_create hrlr hrr (by omega) (by omega)
        refine ⟨_, rfl, balanced_create hin1 hin2 ?_ ?_, ?_, ?_⟩ <;>
          simp only [height_create] <;> omega

/-- `bal` repairs differences of up to three. The tree is one higher than the higher subtree, or as
high if there was a rotation. -/
theorem bal_grows {lo hi : Nat} (h : (l.height ≤ r.height + 3 ∧ r.height ≤ l.height + 3) ∧
    (lo ≤ max l.height r.height + 1 ∧ max l.height r.height + 1 ≤ hi) ∧
    (l.height = r.height + 3 ∨ r.height = l.height + 3 → lo ≤ max l.height r.height)) :
    Grows (bal e l x r) lo hi := by
  by_cases hL : l.height = r.height + 3
  · exact (bal_grows_left hl hr hL).mono (by omega) (by omega)
  · by_cases hR : r.height = l.height + 3
    · exact (bal_grows_right hl hr hR).mono (by omega) (by omega)
    · exact (bal_grows_near hl hr (by omega) (by omega)).mono (by omega) (by omega)

end

/-! ## Adding and removing at the ends -/

/-- Adds an element to the left of all others. -/
def addMin (e : Errors ε) (x : β) : Tree β → Except ε (Tree β)
  | .empty => .ok (singleton x)
  | .node l y r _ => do
    let l' ← addMin e x l
    bal e l' y r

/-- Adds an element to the right of all others. -/
def addMax (e : Errors ε) (x : β) : Tree β → Except ε (Tree β)
  | .empty => .ok (singleton x)
  | .node l y r _ => do
    let r' ← addMax e x r
    bal e l y r'

/-- The leftmost element. -/
def minElt (e : Errors ε) : Tree β → Except ε β
  | .empty => .error e.minElt
  | .node .empty x _ _ => .ok x
  | .node l _ _ _ => minElt e l

/-- Removes the leftmost element. -/
def removeMin (e : Errors ε) : Tree β → Except ε (Tree β)
  | .empty => .error e.removeMin
  | .node .empty _ r _ => .ok r
  | .node l x r _ => do
    let l' ← removeMin e l
    bal e l' x r

theorem addMin_toList : ∀ {t t' : Tree β}, addMin e x t = .ok t' →
    t'.toList = x :: t.toList
  | .empty, t', h => by
    cases h
    rfl
  | .node l y r k, t', h => by
    obtain ⟨l', hl', hb⟩ := bind_eq_ok.mp h
    rw [bal_toList hb, addMin_toList hl']
    rfl

theorem addMax_toList : ∀ {t t' : Tree β}, addMax e x t = .ok t' →
    t'.toList = t.toList ++ [x]
  | .empty, t', h => by
    cases h
    rfl
  | .node l y r k, t', h => by
    obtain ⟨r', hr', hb⟩ := bind_eq_ok.mp h
    rw [bal_toList hb, addMax_toList hr']
    simp [Tree.toList]

theorem addMin_grows : ∀ {t : Tree β}, t.Balanced →
    Grows (addMin e x t) t.height (t.height + 1)
  | .empty, _ => ⟨_, rfl, balanced_singleton x, by simp, by simp [singleton]⟩
  | .node l y r k, ht => by
    obtain ⟨hl, hr, hk, h1, h2⟩ := balanced_node.mp ht
    rw [height_node]
    exact (addMin_grows hl).bind fun l' hb hlo hhi => bal_grows hb hr (by omega)

theorem addMax_grows : ∀ {t : Tree β}, t.Balanced →
    Grows (addMax e x t) t.height (t.height + 1)
  | .empty, _ => ⟨_, rfl, balanced_singleton x, by simp, by simp [singleton]⟩
  | .node l y r k, ht => by
    obtain ⟨hl, hr, hk, h1, h2⟩ := balanced_node.mp ht
    rw [height_node]
    exact (addMax_grows hr).bind fun r' hb hlo hhi => bal_grows hl hb (by omega)

/-- What `minElt` returns and what `removeMin` leaves are the elements of the tree. -/
theorem minElt_cons_removeMin : ∀ {t t' : Tree β} {x : β},
    minElt e t = .ok x → removeMin e t = .ok t' → t.toList = x :: t'.toList
  | .empty, _, _, h, _ => by cases h
  | .node .empty y r k, t', x, h, h' => by
    cases h
    cases h'
    rfl
  | .node (.node ll lx lr m) y r k, t', x, h, h' => by
    obtain ⟨l', hl', hb⟩ := bind_eq_ok.mp h'
    have ih : (Tree.node ll lx lr m).toList = x :: l'.toList := minElt_cons_removeMin h hl'
    rw [bal_toList hb, Tree.toList, ih]
    rfl

theorem minElt_ok : ∀ {t : Tree β}, t ≠ .empty → ∃ x, minElt e t = .ok x
  | .empty, h => absurd rfl h
  | .node .empty x _ _, _ => ⟨x, rfl⟩
  | .node (.node ll lx lr m) x r k, _ => minElt_ok (t := .node ll lx lr m) (by simp)

theorem removeMin_grows : ∀ {t : Tree β}, t ≠ .empty → t.Balanced →
    Grows (removeMin e t) (t.height - 1) t.height
  | .empty, h, _ => absurd rfl h
  | .node .empty x r k, _, ht => by
    obtain ⟨_, hr, hk, h1, h2⟩ := balanced_node.mp ht
    exact ⟨r, rfl, hr, by simp only [height_node, height_empty] at *; omega,
      by simp only [height_node, height_empty] at *; omega⟩
  | .node (.node ll lx lr m) x r k, _, ht => by
    obtain ⟨hl, hr, hk, h1, h2⟩ := balanced_node.mp ht
    refine (removeMin_grows (by simp) hl).bind fun l' hb hlo hhi => bal_grows hb hr ?_
    simp only [height_node] at *
    omega

/-! ## Putting trees together -/

/-- Puts `l`, `x` and `r` together, whatever their heights are. -/
def join (e : Errors ε) (l : Tree β) (x : β) (r : Tree β) : Except ε (Tree β) :=
  match l, r with
  | .empty, _ => addMin e x r
  | _, .empty => addMax e x l
  | .node ll lx lr lh, .node rl rx rr rh =>
    if lh > rh + 2 then do
      let r' ← join e lr x (.node rl rx rr rh)
      bal e ll lx r'
    else if rh > lh + 2 then do
      let l' ← join e (.node ll lx lr lh) x rl
      bal e l' rx rr
    else
      .ok (create (.node ll lx lr lh) x (.node rl rx rr rh))
termination_by sizeOf l + sizeOf r

/-- Puts together two trees whose heights differ by at most two. -/
def glue (e : Errors ε) (t1 t2 : Tree β) : Except ε (Tree β) :=
  match t1, t2 with
  | .empty, t => .ok t
  | t, .empty => .ok t
  | _, _ => do
    let x ← minElt e t2
    let t2' ← removeMin e t2
    bal e t1 x t2'

/-- Puts together two trees of any heights. -/
def concat (e : Errors ε) (t1 t2 : Tree β) : Except ε (Tree β) :=
  match t1, t2 with
  | .empty, t => .ok t
  | t, .empty => .ok t
  | _, _ => do
    let x ← minElt e t2
    let t2' ← removeMin e t2
    join e t1 x t2'

theorem join_toList (h : join e l x r = .ok t) :
    t.toList = l.toList ++ x :: r.toList := by
  induction l, r using join.induct generalizing t with
  | case1 r =>
    rw [join] at h
    rw [addMin_toList h]
    rfl
  | case2 l hl =>
    rw [join] at h
    · rw [addMax_toList h]
      rfl
    · exact hl
  | case3 ll lx lr lh rl rx rr rh hgt ih =>
    rw [join, if_pos hgt] at h
    obtain ⟨r', hr', hb⟩ := bind_eq_ok.mp h
    rw [bal_toList hb, ih hr']
    simp [Tree.toList]
  | case4 ll lx lr lh rl rx rr rh hle hgt ih =>
    rw [join, if_neg hle, if_pos hgt] at h
    obtain ⟨l', hl', hb⟩ := bind_eq_ok.mp h
    rw [bal_toList hb, ih hl']
    simp [Tree.toList]
  | case5 ll lx lr lh rl rx rr rh hle hle' =>
    rw [join, if_neg hle, if_neg hle'] at h
    cases h
    rfl

/-- **`join` builds a balanced tree, at most one higher than the higher of the two.** -/
theorem join_grows (hl : l.Balanced) (hr : r.Balanced) :
    Grows (join e l x r) (max l.height r.height) (max l.height r.height + 1) := by
  induction l, r using join.induct with
  | case1 r =>
    rw [join]
    exact (addMin_grows hr).mono (by simp) (by simp)
  | case2 l hne =>
    rw [join]
    · exact (addMax_grows hl).mono (by simp) (by simp)
    · exact hne
  | case3 ll lx lr lh rl rx rr rh hgt ih =>
    obtain ⟨hll, hlr, hk, h1, h2⟩ := balanced_node.mp hl
    rw [join, if_pos hgt]
    refine (ih hlr hr).bind fun r' hb hlo hhi => bal_grows hll hb ?_
    simp only [height_node] at *
    omega
  | case4 ll lx lr lh rl rx rr rh hle hgt ih =>
    obtain ⟨hrl, hrr, hk, h1, h2⟩ := balanced_node.mp hr
    rw [join, if_neg hle, if_pos hgt]
    refine (ih hl hrl).bind fun l' hb hlo hhi => bal_grows hb hrr ?_
    simp only [height_node] at *
    omega
  | case5 ll lx lr lh rl rx rr rh hle hle' =>
    rw [join, if_neg hle, if_neg hle']
    refine ⟨_, rfl, balanced_create hl hr ?_ ?_, ?_, ?_⟩ <;>
      simp only [height_create, height_node] <;> omega

theorem glue_toList (h : glue e t1 t2 = .ok t) :
    t.toList = t1.toList ++ t2.toList := by
  unfold glue at h
  split at h
  · cases h
    rfl
  · cases h
    simp [Tree.toList]
  · obtain ⟨x, hx, h⟩ := bind_eq_ok.mp h
    obtain ⟨t2', ht2', hb⟩ := bind_eq_ok.mp h
    rw [bal_toList hb, minElt_cons_removeMin hx ht2']

theorem concat_toList (h : concat e t1 t2 = .ok t) :
    t.toList = t1.toList ++ t2.toList := by
  unfold concat at h
  split at h
  · cases h
    rfl
  · cases h
    simp [Tree.toList]
  · obtain ⟨x, hx, h⟩ := bind_eq_ok.mp h
    obtain ⟨t2', ht2', hj⟩ := bind_eq_ok.mp h
    rw [join_toList hj, minElt_cons_removeMin hx ht2']

theorem glue_grows (hb1 : t1.Balanced) (hb2 : t2.Balanced) (h1 : t1.height ≤ t2.height + 2)
    (h2 : t2.height ≤ t1.height + 2) :
    Grows (glue e t1 t2) (max t1.height t2.height) (max t1.height t2.height + 1) := by
  unfold glue
  split
  · exact ⟨_, rfl, hb2, by simp, by simp⟩
  · exact ⟨_, rfl, hb1, by simp, by simp⟩
  · next hne1 hne2 =>
    obtain ⟨x, hx⟩ := minElt_ok (e := e) hne2
    rw [hx, ok_bind]
    exact (removeMin_grows hne2 hb2).bind fun t2' hb hlo hhi => bal_grows hb1 hb (by omega)

theorem concat_balanced (hb1 : t1.Balanced) (hb2 : t2.Balanced) :
    ∃ t, concat e t1 t2 = .ok t ∧ t.Balanced := by
  unfold concat
  split
  · exact ⟨_, rfl, hb2⟩
  · exact ⟨_, rfl, hb1⟩
  · next hne1 hne2 =>
    obtain ⟨x, hx⟩ := minElt_ok (e := e) hne2
    obtain ⟨t2', ht2', hb, -⟩ := removeMin_grows (e := e) hne2 hb2
    obtain ⟨t, ht, hbt, -⟩ := join_grows (e := e) (x := x) hb1 hb
    exact ⟨t, by simp only [hx, ht2', ok_bind, ht], hbt⟩

/-! ## Splitting

`c` compares the point of the cut with an element: it is negative when the cut lies to the left
of the element, and zero when the element is at the cut.
-/

/-- The elements left of the cut, the one at the cut, and those right of it. -/
def split (e : Errors ε) (c : β → Int) : Tree β → Except ε (Tree β × Option β × Tree β)
  | .empty => .ok (.empty, none, .empty)
  | .node l x r _ =>
    if c x = 0 then .ok (l, some x, r)
    else if c x < 0 then do
      let (ll, pres, rl) ← split e c l
      let r' ← join e rl x r
      return (ll, pres, r')
    else do
      let (lr, pres, rr) ← split e c r
      let l' ← join e l x lr
      return (l', pres, rr)

theorem split_toList : ∀ {t l r : Tree β} {m : Option β},
    split e c t = .ok (l, m, r) → t.toList = l.toList ++ m.toList ++ r.toList
  | .empty, l, r, m, h => by
    cases h
    rfl
  | .node tl x tr k, l, r, m, h => by
    rw [split] at h
    split at h
    · cases h
      simp [Tree.toList]
    · split at h
      · obtain ⟨⟨ll, pres, rl⟩, hs, h⟩ := bind_eq_ok.mp h
        obtain ⟨r', hj, h⟩ := bind_eq_ok.mp h
        cases h
        rw [Tree.toList, split_toList hs, join_toList hj]
        simp
      · obtain ⟨⟨lr, pres, rr⟩, hs, h⟩ := bind_eq_ok.mp h
        obtain ⟨l', hj, h⟩ := bind_eq_ok.mp h
        cases h
        rw [Tree.toList, split_toList hs, join_toList hj]
        simp

/-- Elements in increasing order, as seen from the cut. -/
def Ordered (c : β → Int) (xs : List β) : Prop :=
  xs.Pairwise fun a b => (c a ≤ 0 → c b < 0) ∧ (0 ≤ c b → 0 < c a)

theorem Ordered.node {xs ys : List β} (h : Ordered c (xs ++ x :: ys)) :
    Ordered c xs ∧ Ordered c ys ∧ (0 ≤ c x → ∀ a ∈ xs, 0 < c a) ∧
      (c x ≤ 0 → ∀ a ∈ ys, c a < 0) := by
  obtain ⟨hxs, hys, hx⟩ := List.pairwise_append.mp h
  obtain ⟨hy, hys⟩ := List.pairwise_cons.mp hys
  exact ⟨hxs, hys, fun h0 a ha => (hx a ha x List.mem_cons_self).2 h0,
    fun h0 a ha => (hy a ha).1 h0⟩

theorem split_sides : ∀ {t l r : Tree β} {m : Option β},
    Ordered c t.toList → split e c t = .ok (l, m, r) →
    (∀ a ∈ l.toList, 0 < c a) ∧ (∀ a ∈ m, c a = 0) ∧ ∀ a ∈ r.toList, c a < 0
  | .empty, l, r, m, _, h => by
    cases h
    simp [Tree.toList]
  | .node tl x tr k, l, r, m, hs, h => by
    obtain ⟨hsl, hsr, hlow, hhigh⟩ := Ordered.node hs
    rw [split] at h
    split at h
    · next h0 =>
      cases h
      exact ⟨hlow (by omega), by simpa using h0, hhigh (by omega)⟩
    · split at h
      · next hneg =>
        obtain ⟨⟨ll, pres, rl⟩, hsp, h⟩ := bind_eq_ok.mp h
        obtain ⟨r', hj, h⟩ := bind_eq_ok.mp h
        cases h
        obtain ⟨hl, hm, hr⟩ := split_sides hsl hsp
        rw [join_toList hj, List.forall_mem_append, List.forall_mem_cons]
        exact ⟨hl, hm, hr, hneg, hhigh (by omega)⟩
      · next hneg =>
        obtain ⟨⟨lr, pres, rr⟩, hsp, h⟩ := bind_eq_ok.mp h
        obtain ⟨l', hj, h⟩ := bind_eq_ok.mp h
        cases h
        obtain ⟨hl, hm, hr⟩ := split_sides hsr hsp
        rw [join_toList hj, List.forall_mem_append, List.forall_mem_cons]
        exact ⟨⟨hlow (by omega), by omega, hl⟩, hm, hr⟩

/-- Splitting does not make elements: what lies on the two sides was in the tree. -/
theorem split_size {m : Option β} (h : split e c t = .ok (l, m, r)) : l.size + r.size ≤ t.size := by
  have hlen := congrArg List.length (split_toList h)
  simp only [List.length_append, length_toList] at hlen
  omega

theorem split_balanced {e : Errors ε} {c : β → Int} : ∀ {t : Tree β}, t.Balanced →
    ∃ l m r, split e c t = .ok (l, m, r) ∧ l.Balanced ∧ r.Balanced
  | .empty, _ => ⟨.empty, none, .empty, rfl, trivial, trivial⟩
  | .node tl x tr k, ht => by
    obtain ⟨hl, hr, -⟩ := balanced_node.mp ht
    rw [split]
    by_cases h0 : c x = 0
    · exact ⟨tl, some x, tr, by rw [if_pos h0], hl, hr⟩
    · by_cases hneg : c x < 0
      · obtain ⟨ll, pres, rl, hs, hbl, hbr⟩ := split_balanced (e := e) (c := c) hl
        obtain ⟨r', hj, hb, -⟩ := join_grows (e := e) (x := x) hbr hr
        exact ⟨ll, pres, r', by rw [if_neg h0, if_pos hneg, hs]; simp [hj], hbl, hb⟩
      · obtain ⟨lr, pres, rr, hs, hbl, hbr⟩ := split_balanced (e := e) (c := c) hr
        obtain ⟨l', hj, hb, -⟩ := join_grows (e := e) (x := x) hl hbl
        exact ⟨l', pres, rr, by rw [if_neg h0, if_neg hneg, hs]; simp [hj], hb, hbr⟩

end Avl
