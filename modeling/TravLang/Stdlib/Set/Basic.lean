import TravLang.Stdlib.List.SortUniq
import TravLang.Stdlib.Map.Basic

/-!
# `Set.Make` (`stdlib/set.ml`)

A set is a height-balanced tree of its elements. As for maps, the functor argument `Ord.compare` is
`cmp`, functions that can raise return `Except`, and `PhysEq` gives the answers of `==`.
-/

namespace TravLang.Set

open Avl.Tree
open Map (Exn PhysEq)

variable {κ β : Type}

/-- The type `t`. -/
abbrev T (κ : Type) := Avl.Tree κ

def errors : Avl.Errors Exn where
  bal := .invalidArg "Set.bal"
  removeMin := .invalidArg "Set.remove_min_elt"
  minElt := .notFound

def create (l : T κ) (v : κ) (r : T κ) : T κ := Avl.create l v r

def bal (l : T κ) (v : κ) (r : T κ) : Except Exn (T κ) := Avl.bal errors l v r

def singleton (x : κ) : T κ := Avl.singleton x

def empty : T κ := .empty

def isEmpty : T κ → Bool
  | .empty => true
  | _ => false

/-! ## Elements -/

def add (cmp : κ → κ → Int) (phys : PhysEq) (x : κ) : T κ → Except Exn (T κ)
  | .empty => .ok (.node .empty x .empty 1)
  | .node l v r h =>
    if cmp x v = 0 then .ok (.node l v r h)
    else if cmp x v < 0 then do
      let ll ← add cmp (phys.sub 0) x l
      if phys.same 0 l ll then return .node l v r h else bal ll v r
    else do
      let rr ← add cmp (phys.sub 1) x r
      if phys.same 0 r rr then return .node l v r h else bal l v rr

def mem (cmp : κ → κ → Int) (x : κ) : T κ → Bool
  | .empty => false
  | .node l v r _ => cmp x v = 0 || (if cmp x v < 0 then mem cmp x l else mem cmp x r)

def minElt (s : T κ) : Except Exn κ := Avl.minElt errors s

def maxElt : T κ → Except Exn κ
  | .empty => .error .notFound
  | .node _ v .empty _ => .ok v
  | .node _ _ r _ => maxElt r

def minEltOpt : T κ → Option κ
  | .empty => none
  | .node .empty v _ _ => some v
  | .node l _ _ _ => minEltOpt l

def maxEltOpt : T κ → Option κ
  | .empty => none
  | .node _ v .empty _ => some v
  | .node _ _ r _ => maxEltOpt r

def removeMinElt (s : T κ) : Except Exn (T κ) := Avl.removeMin errors s

def elementsAux (accu : List κ) : T κ → List κ
  | .empty => accu
  | .node l v r _ => elementsAux (v :: elementsAux accu r) l

def elements (s : T κ) : List κ := elementsAux [] s

def fold (f : κ → β → β) : T κ → β → β
  | .empty, accu => accu
  | .node l v r _, accu => fold f r (f v (fold f l accu))

/-- `fold` goes through the elements in increasing order. -/
theorem fold_eq (f : κ → β → β) : ∀ (s : T κ) (accu : β),
    fold f s accu = s.toList.foldl (fun accu v => f v accu) accu
  | .empty, accu => rfl
  | .node l v r h, accu => by
    rw [fold, fold_eq f r, fold_eq f l]
    simp [toList]

/-- `iter`, with a function that changes a state and can raise -/
def iter {ε σ : Type} (f : σ → κ → Except ε σ) : T κ → σ → Except ε σ
  | .empty, s => .ok s
  | .node l v r _, s => do
    let s ← iter f l s
    let s ← f s v
    iter f r s

theorem iter_eq {ε σ : Type} (f : σ → κ → Except ε σ) : ∀ (t : T κ) (s : σ),
    iter f t s = t.toList.foldlM f s
  | .empty, s => rfl
  | .node l v r h, s => by
    simp only [iter, toList, List.foldlM_append, List.foldlM_cons, iter_eq f l, iter_eq f r]

/-! ## Joining and splitting -/

def join (l : T κ) (v : κ) (r : T κ) : Except Exn (T κ) := Avl.join errors l v r

/-- The function `merge` of the source. -/
def merge (t1 t2 : T κ) : Except Exn (T κ) := Avl.glue errors t1 t2

def concat (t1 t2 : T κ) : Except Exn (T κ) := Avl.concat errors t1 t2

def remove (cmp : κ → κ → Int) (phys : PhysEq) (x : κ) : T κ → Except Exn (T κ)
  | .empty => .ok .empty
  | .node l v r h =>
    if cmp x v = 0 then merge l r
    else if cmp x v < 0 then do
      let ll ← remove cmp (phys.sub 0) x l
      if phys.same 0 l ll then return .node l v r h else bal ll v r
    else do
      let rr ← remove cmp (phys.sub 1) x r
      if phys.same 0 r rr then return .node l v r h else bal l v rr

def split (cmp : κ → κ → Int) (x : κ) (s : T κ) : Except Exn (T κ × Bool × T κ) := do
  let (l, pres, r) ← Avl.split errors (cmp x) s
  return (l, pres.isSome, r)

theorem split_size {cmp : κ → κ → Int} {x : κ} {s l r : T κ} {pres : Bool}
    (h : split cmp x s = .ok (l, pres, r)) : l.size + r.size ≤ s.size := by
  obtain ⟨⟨l', pres', r'⟩, hs, h⟩ := Result.bind_eq_ok.mp h
  cases h
  exact Avl.split_size hs

/-! ## Set operations -/

def union (cmp : κ → κ → Int) (phys : PhysEq) (s1 s2 : T κ) : Except Exn (T κ) :=
  match s1, s2 with
  | .empty, t2 => .ok t2
  | t1, .empty => .ok t1
  | .node l1 v1 r1 h1, .node l2 v2 r2 h2 =>
    if h1 ≥ h2 then
      if h2 = 1 then add cmp (phys.sub 0) v2 (.node l1 v1 r1 h1)
      else
        match h : split cmp v1 (.node l2 v2 r2 h2) with
        | .error e => .error e
        | .ok (l2', _, r2') => do
          have := split_size h
          let r ← union cmp (phys.sub 1) r1 r2'
          let l ← union cmp (phys.sub 2) l1 l2'
          join l v1 r
    else
      if h1 = 1 then add cmp (phys.sub 0) v1 (.node l2 v2 r2 h2)
      else
        match h : split cmp v2 (.node l1 v1 r1 h1) with
        | .error e => .error e
        | .ok (l1', _, r1') => do
          have := split_size h
          let r ← union cmp (phys.sub 1) r1' r2
          let l ← union cmp (phys.sub 2) l1' l2
          join l v2 r
termination_by s1.size + s2.size
decreasing_by all_goals simp only [size] at *; omega

def inter (cmp : κ → κ → Int) : T κ → T κ → Except Exn (T κ)
  | .empty, _ => .ok .empty
  | _, .empty => .ok .empty
  | .node l1 v1 r1 _, t2 => do
    let (l2, pres, r2) ← split cmp v1 t2
    let r ← inter cmp r1 r2
    let l ← inter cmp l1 l2
    if pres then join l v1 r else concat l r

/-- The type `split_bis`; the right half is computed on demand. -/
inductive SplitBis (κ : Type) where
  | found
  | notFound (l : T κ) (r : Unit → Except Exn (T κ))

def splitBis (cmp : κ → κ → Int) (x : κ) : T κ → Except Exn (SplitBis κ)
  | .empty => .ok (.notFound .empty fun _ => .ok .empty)
  | .node l v r _ =>
    if cmp x v = 0 then .ok .found
    else if cmp x v < 0 then do
      match ← splitBis cmp x l with
      | .found => return .found
      | .notFound ll rl => return .notFound ll fun _ => do join (← rl ()) v r
    else do
      match ← splitBis cmp x r with
      | .found => return .found
      | .notFound lr rr => return .notFound (← join l v lr) rr

def disjoint (cmp : κ → κ → Int) (phys : PhysEq) : T κ → T κ → Except Exn Bool
  | .empty, _ => .ok true
  | _, .empty => .ok true
  | .node l1 v1 r1 h1, t2 =>
    if phys.same 0 (node l1 v1 r1 h1) t2 then .ok false
    else do
      match ← splitBis cmp v1 t2 with
      | .notFound l2 r2 =>
        if ← disjoint cmp (phys.sub 0) l1 l2 then disjoint cmp (phys.sub 1) r1 (← r2 ())
        else return false
      | .found => return false

def diff (cmp : κ → κ → Int) : T κ → T κ → Except Exn (T κ)
  | .empty, _ => .ok .empty
  | t1, .empty => .ok t1
  | .node l1 v1 r1 _, t2 => do
    let (l2, pres, r2) ← split cmp v1 t2
    let r ← diff cmp r1 r2
    let l ← diff cmp l1 l2
    if pres then concat l r else join l v1 r

/-! ## Comparison -/

inductive Enumeration (κ : Type) where
  | done
  | more (v : κ) (t : T κ) (e : Enumeration κ)

/-- The number of elements still to come. -/
def Enumeration.size : Enumeration κ → Nat
  | done => 0
  | more _ t e => 1 + t.size + e.size

def consEnum : T κ → Enumeration κ → Enumeration κ
  | .empty, e => e
  | .node l v r _, e => consEnum l (.more v r e)

theorem size_consEnum : ∀ (s : T κ) (e : Enumeration κ), (consEnum s e).size = s.size + e.size
  | .empty, e => by simp [consEnum, size]
  | .node l v r _, e => by
    rw [consEnum, size_consEnum l]
    simp only [Enumeration.size, size]
    omega

def compareAux (cmp : κ → κ → Int) : Enumeration κ → Enumeration κ → Int
  | .done, .done => 0
  | .done, _ => -1
  | _, .done => 1
  | .more v1 r1 e1, .more v2 r2 e2 =>
    if cmp v1 v2 ≠ 0 then cmp v1 v2 else compareAux cmp (consEnum r1 e1) (consEnum r2 e2)
termination_by e1 => e1.size
decreasing_by simp only [size_consEnum, Enumeration.size]; omega

def compare (cmp : κ → κ → Int) (s1 s2 : T κ) : Int :=
  compareAux cmp (consEnum s1 .done) (consEnum s2 .done)

def equal (cmp : κ → κ → Int) (s1 s2 : T κ) : Bool := compare cmp s1 s2 = 0

/-- The nodes that are made here have a height of 0. -/
def subset (cmp : κ → κ → Int) : T κ → T κ → Bool
  | .empty, _ => true
  | _, .empty => false
  | .node l1 v1 r1 _, .node l2 v2 r2 h2 =>
    if cmp v1 v2 = 0 then subset cmp l1 l2 && subset cmp r1 r2
    else if cmp v1 v2 < 0 then
      subset cmp (.node l1 v1 .empty 0) l2 && subset cmp r1 (.node l2 v2 r2 h2)
    else subset cmp (.node .empty v1 r1 0) r2 && subset cmp l1 (.node l2 v2 r2 h2)
termination_by s1 s2 => s1.size + s2.size
decreasing_by all_goals simp only [size]; omega

/-! ## Maps and filters -/

/-- The function `exists` of the source. -/
def any (p : κ → Bool) : T κ → Bool
  | .empty => false
  | .node l v r _ => p v || any p l || any p r

def filter (phys : PhysEq) (p : κ → Bool) : T κ → Except Exn (T κ)
  | .empty => .ok .empty
  | .node l v r h => do
    let l' ← filter (phys.sub 0) p l
    let r' ← filter (phys.sub 1) p r
    if p v then
      if phys.same 0 l l' && phys.same 1 r r' then return .node l v r h else join l' v r'
    else concat l' r'

def partition (p : κ → Bool) : T κ → Except Exn (T κ × T κ)
  | .empty => .ok (.empty, .empty)
  | .node l v r _ => do
    let (lt, lf) ← partition p l
    let (rt, rf) ← partition p r
    if p v then return (← join lt v rt, ← concat lf rf)
    else return (← concat lt rt, ← join lf v rf)

/-- The first half of the test of `try_join`. -/
def below (cmp : κ → κ → Int) (l : T κ) (v : κ) : Except Exn Bool :=
  if isEmpty l then .ok true else do return decide (cmp (← maxElt l) v < 0)

/-- The second half of the test of `try_join`. -/
def above (cmp : κ → κ → Int) (v : κ) (r : T κ) : Except Exn Bool :=
  if isEmpty r then .ok true else do return decide (cmp v (← minElt r) < 0)

/-- The whole test: the second half is only looked at when the first one holds. -/
def joinable (cmp : κ → κ → Int) (l : T κ) (v : κ) (r : T κ) : Except Exn Bool := do
  if ← below cmp l v then above cmp v r else return false

def tryJoin (cmp : κ → κ → Int) (phys : PhysEq) (l : T κ) (v : κ) (r : T κ) :
    Except Exn (T κ) := do
  if ← joinable cmp l v r then join l v r
  else union cmp (phys.sub 0) l (← add cmp (phys.sub 1) v r)

def map (cmp : κ → κ → Int) (phys : PhysEq) (f : κ → κ) : T κ → Except Exn (T κ)
  | .empty => .ok .empty
  | .node l v r h => do
    let l' ← map cmp (phys.sub 0) f l
    let v' := f v
    let r' ← map cmp (phys.sub 1) f r
    if phys.same 0 l l' && phys.same 1 v v' && phys.same 2 r r' then return .node l v r h
    else tryJoin cmp (phys.sub 2) l' v' r'

def tryConcat (cmp : κ → κ → Int) (phys : PhysEq) (t1 t2 : T κ) : Except Exn (T κ) :=
  match t1, t2 with
  | .empty, t => .ok t
  | t, .empty => .ok t
  | _, _ => do tryJoin cmp phys t1 (← minElt t2) (← removeMinElt t2)

def filterMap (cmp : κ → κ → Int) (phys : PhysEq) (f : κ → Option κ) : T κ → Except Exn (T κ)
  | .empty => .ok .empty
  | .node l v r h => do
    let l' ← filterMap cmp (phys.sub 0) f l
    let r' ← filterMap cmp (phys.sub 1) f r
    match f v with
    | some v' =>
      if phys.same 0 l l' && phys.same 1 v v' && phys.same 2 r r' then return .node l v r h
      else tryJoin cmp (phys.sub 2) l' v' r'
    | none => tryConcat cmp (phys.sub 2) l' r'

/-! ## Construction from lists and sequences -/

/-- The local function `sub` of `of_sorted_list`. -/
def sortedSub (n : Nat) (l : List κ) : Except Exn (T κ × List κ) :=
  match n, l with
  | 0, l => .ok (.empty, l)
  | 1, x0 :: l => .ok (.node .empty x0 .empty 1, l)
  | 2, x0 :: x1 :: l => .ok (.node (.node .empty x0 .empty 1) x1 .empty 2, l)
  | 3, x0 :: x1 :: x2 :: l =>
    .ok (.node (.node .empty x0 .empty 1) x1 (.node .empty x2 .empty 1) 2, l)
  | n + 1, l => do
    let nl := (n + 1) / 2
    let (left, l) ← sortedSub nl l
    match l with
    | [] => .error .assertFailure
    | mid :: l =>
      let (right, l) ← sortedSub (n + 1 - nl - 1) l
      return (create left mid right, l)
termination_by n

def ofSortedList (l : List κ) : Except Exn (T κ) := do return (← sortedSub l.length l).1

def addSeq (cmp : κ → κ → Int) (phys : Nat → PhysEq) : List κ → T κ → Except Exn (T κ)
  | [], s => .ok s
  | x :: i, s => do
    let s' ← add cmp (phys 0) x s
    addSeq cmp (fun n => phys (n + 1)) i s'

def ofSeq (cmp : κ → κ → Int) (phys : Nat → PhysEq) (i : List κ) : Except Exn (T κ) :=
  addSeq cmp phys i empty

/-- The short lists are inserted one by one. -/
def ofList (cmp : κ → κ → Int) (phys : Nat → PhysEq) (l : List κ) : Except Exn (T κ) :=
  match l with
  | [] => .ok empty
  | [x0] => .ok (singleton x0)
  | [x0, x1] => do add cmp (phys 0) x1 (singleton x0)
  | [x0, x1, x2] => do add cmp (phys 1) x2 (← add cmp (phys 0) x1 (singleton x0))
  | [x0, x1, x2, x3] => do
    add cmp (phys 2) x3 (← add cmp (phys 1) x2 (← add cmp (phys 0) x1 (singleton x0)))
  | [x0, x1, x2, x3, x4] => do
    add cmp (phys 3) x4 (← add cmp (phys 2) x3
      (← add cmp (phys 1) x2 (← add cmp (phys 0) x1 (singleton x0))))
  | _ =>
    match ListSort.sortUniq cmp l with
    | some l => ofSortedList l
    | none => .error .assertFailure

end TravLang.Set
