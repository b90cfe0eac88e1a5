import TravLang.Lib.Avl

/-!
# `Map.Make` (`stdlib/map.ml`)

The functor argument `Ord.compare` is `cmp`; a map is a height-balanced tree whose payload is a
binding. Functions that can raise return `Except`.

## Physical equality

`add`, `remove`, `update` and `filter` return their argument when a subtree came back physically
unchanged. What `==` answers depends on how values were allocated, which the model does not see.
All that is known is that physically equal values are equal, so `PhysEq` is an oracle with just
this property. It is asked at a site of the run (a path of recursive calls), hence two tests of
one run may answer differently on equal values.
-/

namespace TravLang.Map

/-- The exceptions raised in `map.ml`. -/
inductive Exn where
  | invalidArg (msg : String)
  | notFound
  | assertFailure
  deriving Repr, DecidableEq

/-- The answers of `==` in one run. -/
structure PhysEq where
  test : List Nat → {α : Type} → α → α → Bool
  sound : ∀ (site : List Nat) {α : Type} {a b : α}, test site a b = true → a = b

namespace PhysEq

/-- The test at place `i` of the current call. -/
def same (phys : PhysEq) (i : Nat) {α : Type} (a b : α) : Bool := phys.test [i] a b

/-- The tests of the `i`-th recursive call. -/
def sub (phys : PhysEq) (i : Nat) : PhysEq where
  test site := phys.test (i :: site)
  sound site := phys.sound (i :: site)

theorem eq_of_same {phys : PhysEq} {i : Nat} {α : Type} {a b : α} (h : phys.same i a b = true) :
    a = b := phys.sound _ h

/-- A run in which no two values are physically equal. -/
def never : PhysEq where
  test _ _ _ _ := false
  sound _ _ _ _ h := by cases h

end PhysEq

variable {κ α β γ σ : Type}

/-- `'a t`. -/
abbrev T (κ α : Type) := Avl.Tree (κ × α)

def errors : Avl.Errors Exn where
  bal := .invalidArg "Map.bal"
  removeMin := .invalidArg "Map.remove_min_elt"
  minElt := .notFound

def create (l : T κ α) (x : κ) (d : α) (r : T κ α) : T κ α := Avl.create l (x, d) r

def singleton (x : κ) (d : α) : T κ α := Avl.singleton (x, d)

def bal (l : T κ α) (x : κ) (d : α) (r : T κ α) : Except Exn (T κ α) :=
  Avl.bal errors l (x, d) r

def empty : T κ α := .empty

def isEmpty : T κ α → Bool
  | .empty => true
  | _ => false

/-! ## Insertion and lookup -/

def add (cmp : κ → κ → Int) (phys : PhysEq) (x : κ) (data : α) :
    T κ α → Except Exn (T κ α)
  | .empty => .ok (.node .empty (x, data) .empty 1)
  | .node l (v, d) r h =>
    if cmp x v = 0 then
      if phys.same 0 d data then .ok (.node l (v, d) r h) else .ok (.node l (x, data) r h)
    else if cmp x v < 0 then do
      let ll ← add cmp (phys.sub 0) x data l
      if phys.same 0 l ll then return .node l (v, d) r h else bal ll v d r
    else do
      let rr ← add cmp (phys.sub 1) x data r
      if phys.same 0 r rr then return .node l (v, d) r h else bal l v d rr

def find (cmp : κ → κ → Int) (x : κ) : T κ α → Except Exn α
  | .empty => .error .notFound
  | .node l (v, d) r _ =>
    if cmp x v = 0 then .ok d else if cmp x v < 0 then find cmp x l else find cmp x r

def findOpt (cmp : κ → κ → Int) (x : κ) : T κ α → Option α
  | .empty => none
  | .node l (v, d) r _ =>
    if cmp x v = 0 then some d else if cmp x v < 0 then findOpt cmp x l else findOpt cmp x r

def mem (cmp : κ → κ → Int) (x : κ) : T κ α → Bool
  | .empty => false
  | .node l (v, _) r _ =>
    cmp x v = 0 || (if cmp x v < 0 then mem cmp x l else mem cmp x r)

def minBinding (m : T κ α) : Except Exn (κ × α) := Avl.minElt errors m

def removeMinBinding (m : T κ α) : Except Exn (T κ α) := Avl.removeMin errors m

/-! ## Removal and update -/

/-- The first `merge` of the file, hidden afterwards by the exported one. -/
def mergeTrees (t1 t2 : T κ α) : Except Exn (T κ α) := Avl.glue errors t1 t2

def remove (cmp : κ → κ → Int) (phys : PhysEq) (x : κ) : T κ α → Except Exn (T κ α)
  | .empty => .ok .empty
  | .node l (v, d) r h =>
    if cmp x v = 0 then mergeTrees l r
    else if cmp x v < 0 then do
      let ll ← remove cmp (phys.sub 0) x l
      if phys.same 0 l ll then return .node l (v, d) r h else bal ll v d r
    else do
      let rr ← remove cmp (phys.sub 1) x r
      if phys.same 0 r rr then return .node l (v, d) r h else bal l v d rr

def update (cmp : κ → κ → Int) (phys : PhysEq) (x : κ) (f : Option α → Option α) :
    T κ α → Except Exn (T κ α)
  | .empty =>
    match f none with
    | none => .ok .empty
    | some data => .ok (.node .empty (x, data) .empty 1)
  | .node l (v, d) r h =>
    if cmp x v = 0 then
      match f (some d) with
      | none => mergeTrees l r
      | some data =>
        if phys.same 0 d data then .ok (.node l (v, d) r h) else .ok (.node l (x, data) r h)
    else if cmp x v < 0 then do
      let ll ← update cmp (phys.sub 0) x f l
      if phys.same 0 l ll then return .node l (v, d) r h else bal ll v d r
    else do
      let rr ← update cmp (phys.sub 1) x f r
      if phys.same 0 r rr then return .node l (v, d) r h else bal l v d rr

def addToList (cmp : κ → κ → Int) (phys : PhysEq) (x : κ) (data : α) (m : T κ (List α)) :
    Except Exn (T κ (List α)) :=
  let add : Option (List α) → Option (List α)
    | none => some [data]
    | some l => some (data :: l)
  update cmp phys x add m

/-! ## Traversals -/

def map (f : α → β) : T κ α → T κ β
  | .empty => .empty
  | .node l (v, d) r h => .node (map f l) (v, f d) (map f r) h

def mapi (f : κ → α → β) : T κ α → T κ β
  | .empty => .empty
  | .node l (v, d) r h => .node (mapi f l) (v, f v d) (mapi f r) h

def cardinal : T κ α → Nat
  | .empty => 0
  | .node l _ r _ => cardinal l + 1 + cardinal r

def bindingsAux (accu : List (κ × α)) : T κ α → List (κ × α)
  | .empty => accu
  | .node l (v, d) r _ => bindingsAux ((v, d) :: bindingsAux accu r) l

def bindings (s : T κ α) : List (κ × α) := bindingsAux [] s

/-! ## Joining and splitting -/

def join (l : T κ α) (v : κ) (d : α) (r : T κ α) : Except Exn (T κ α) :=
  Avl.join errors l (v, d) r

def concat (t1 t2 : T κ α) : Except Exn (T κ α) := Avl.concat errors t1 t2

def concatOrJoin (t1 : T κ α) (v : κ) (d : Option α) (t2 : T κ α) : Except Exn (T κ α) :=
  match d with
  | some d => join t1 v d t2
  | none => concat t1 t2

def split (cmp : κ → κ → Int) (x : κ) (m : T κ α) :
    Except Exn (T κ α × Option α × T κ α) := do
  let (l, pres, r) ← Avl.split errors (fun b => cmp x b.1) m
  return (l, pres.map Prod.snd, r)

/-- The guard of the second case of `merge`: the first tree is a node, and not the lower one. -/
def leads (s1 : T κ α) (s2 : T κ β) : Bool :=
  match s1 with
  | .empty => false
  | .node _ _ _ h1 => h1 ≥ s2.height

theorem split_size {cmp : κ → κ → Int} {x : κ} {m l r : T κ α} {d : Option α}
    (h : split cmp x m = .ok (l, d, r)) : l.size + r.size ≤ m.size := by
  obtain ⟨⟨l', pres, r'⟩, hs, h⟩ := Result.bind_eq_ok.mp h
  cases h
  exact Avl.split_size hs

/--
`merge f s1 s2`. The calls of `f` may have effects, so `f` passes a state along.
The arguments of `concat_or_join` are evaluated from right to left.
-/
def merge (cmp : κ → κ → Int) (f : κ → Option α → Option β → σ → Option γ × σ)
    (s1 : T κ α) (s2 : T κ β) (st : σ) : Except Exn (T κ γ × σ) :=
  match s1, s2 with
  | .empty, .empty => .ok (.empty, st)
  | s1, s2 =>
    if leads s1 s2 then
      match s1 with
      | .empty => .error .assertFailure
      | .node l1 (v1, d1) r1 _ =>
        match h : split cmp v1 s2 with
        | .error e => .error e
        | .ok (l2, d2, r2) => do
          have := split_size h
          let (r, st) ← merge cmp f r1 r2 st
          let (d, st) := f v1 (some d1) d2 st
          let (l, st) ← merge cmp f l1 l2 st
          let t ← concatOrJoin l v1 d r
          return (t, st)
    else
      match s2 with
      | .empty => .error .assertFailure
      | .node l2 (v2, d2) r2 _ =>
        match h : split cmp v2 s1 with
        | .error e => .error e
        | .ok (l1, d1, r1) => do
          have := split_size h
          let (r, st) ← merge cmp f r1 r2 st
          let (d, st) := f v2 d1 (some d2) st
          let (l, st) ← merge cmp f l1 l2 st
          let t ← concatOrJoin l v2 d r
          return (t, st)
termination_by s1.size + s2.size
decreasing_by all_goals simp only [Avl.Tree.size]; omega

def union (cmp : κ → κ → Int) (f : κ → α → α → Option α) (s1 s2 : T κ α) :
    Except Exn (T κ α) :=
  match s1, s2 with
  | .empty, s => .ok s
  | s, .empty => .ok s
  | .node l1 (v1, d1) r1 h1, .node l2 (v2, d2) r2 h2 =>
    if h1 ≥ h2 then
      match h : split cmp v1 (.node l2 (v2, d2) r2 h2) with
      | .error e => .error e
      | .ok (l2', d2', r2') => do
        have := split_size h
        let r ← union cmp f r1 r2'
        let l ← union cmp f l1 l2'
        match d2' with
        | none => join l v1 d1 r
        | some d2 => concatOrJoin l v1 (f v1 d1 d2) r
    else
      match h : split cmp v2 (.node l1 (v1, d1) r1 h1) with
      | .error e => .error e
      | .ok (l1', d1', r1') => do
        have := split_size h
        let r ← union cmp f r1' r2
        let l ← union cmp f l1' l2
        match d1' with
        | none => join l v2 d2 r
        | some d1 => concatOrJoin l v2 (f v2 d1 d2) r
termination_by s1.size + s2.size
decreasing_by all_goals simp only [Avl.Tree.size] at *; omega

def filter (phys : PhysEq) (p : κ → α → Bool) : T κ α → Except Exn (T κ α)
  | .empty => .ok .empty
  | .node l (v, d) r h => do
    let l' ← filter (phys.sub 0) p l
    let r' ← filter (phys.sub 1) p r
    if p v d then
      if phys.same 0 l l' && phys.same 1 r r' then return .node l (v, d) r h else join l' v d r'
    else
      concat l' r'

def filterMap (f : κ → α → Option β) : T κ α → Except Exn (T κ β)
  | .empty => .ok .empty
  | .node l (v, d) r _ => do
    let l' ← filterMap f l
    let r' ← filterMap f r
    match f v d with
    | some d' => join l' v d' r'
    | none => concat l' r'

def partition (p : κ → α → Bool) : T κ α → Except Exn (T κ α × T κ α)
  | .empty => .ok (.empty, .empty)
  | .node l (v, d) r _ => do
    let (lt, lf) ← partition p l
    let (rt, rf) ← partition p r
    if p v d then do
      let t ← join lt v d rt
      let f ← concat lf rf
      return (t, f)
    else do
      let t ← concat lt rt
      let f ← join lf v d rf
      return (t, f)

/-! ## Enumerations

An enumeration is the part of a traversal that is still to come: the next binding, the tree to
its right, and the rest.
-/

inductive Enumeration (κ α : Type) where
  | done
  | more (v : κ) (d : α) (t : T κ α) (e : Enumeration κ α)

namespace Enumeration

/-- The number of bindings still to come. -/
def size : Enumeration κ α → Nat
  | done => 0
  | more _ _ t e => 1 + t.size + e.size

end Enumeration

def consEnum : T κ α → Enumeration κ α → Enumeration κ α
  | .empty, e => e
  | .node l (v, d) r _, e => consEnum l (.more v d r e)

def snocEnum : T κ α → Enumeration κ α → Enumeration κ α
  | .empty, e => e
  | .node l (v, d) r _, e => snocEnum r (.more v d l e)

theorem size_consEnum : ∀ (m : T κ α) (e : Enumeration κ α),
    (consEnum m e).size = m.size + e.size
  | .empty, e => by simp [consEnum, Avl.Tree.size]
  | .node l (v, d) r _, e => by
    rw [consEnum, size_consEnum l]
    simp only [Enumeration.size, Avl.Tree.size]
    omega

def compareAux (cmp : κ → κ → Int) (cmpd : α → α → Int) :
    Enumeration κ α → Enumeration κ α → Int
  | .done, .done => 0
  | .done, _ => -1
  | _, .done => 1
  | .more v1 d1 r1 e1, .more v2 d2 r2 e2 =>
    if cmp v1 v2 ≠ 0 then cmp v1 v2
    else if cmpd d1 d2 ≠ 0 then cmpd d1 d2
    else compareAux cmp cmpd (consEnum r1 e1) (consEnum r2 e2)
termination_by e1 => e1.size
decreasing_by simp only [size_consEnum, Enumeration.size]; omega

def compare (cmp : κ → κ → Int) (cmpd : α → α → Int) (m1 m2 : T κ α) : Int :=
  compareAux cmp cmpd (consEnum m1 .done) (consEnum m2 .done)

def equalAux (cmp : κ → κ → Int) (eqd : α → α → Bool) :
    Enumeration κ α → Enumeration κ α → Bool
  | .done, .done => true
  | .done, _ => false
  | _, .done => false
  | .more v1 d1 r1 e1, .more v2 d2 r2 e2 =>
    cmp v1 v2 = 0 && eqd d1 d2 && equalAux cmp eqd (consEnum r1 e1) (consEnum r2 e2)
termination_by e1 => e1.size
decreasing_by simp only [size_consEnum, Enumeration.size]; omega

def equal (cmp : κ → κ → Int) (eqd : α → α → Bool) (m1 m2 : T κ α) : Bool :=
  equalAux cmp eqd (consEnum m1 .done) (consEnum m2 .done)

/-! ## Sequences

A sequence is given by the enumeration it is suspended on; forcing it gives the head and the
enumeration of the tail. `seqToList` forces a sequence to its end.
-/

/-- Forcing `seq_of_enum_ c`. -/
def seqOfEnum : Enumeration κ α → Option ((κ × α) × Enumeration κ α)
  | .done => none
  | .more k v t rest => some ((k, v), consEnum t rest)

/-- Forcing `rev_seq_of_enum_ c`. -/
def revSeqOfEnum : Enumeration κ α → Option ((κ × α) × Enumeration κ α)
  | .done => none
  | .more k v t rest => some ((k, v), snocEnum t rest)

/-- What a sequence yields when it is forced `n` times. -/
def seqTake (force : Enumeration κ α → Option ((κ × α) × Enumeration κ α)) :
    Nat → Enumeration κ α → List (κ × α)
  | 0, _ => []
  | n + 1, c =>
    match force c with
    | none => []
    | some (b, c') => b :: seqTake force n c'

def toSeq (m : T κ α) : Enumeration κ α := consEnum m .done

def toRevSeq (m : T κ α) : Enumeration κ α := snocEnum m .done

def toSeqFromAux (cmp : κ → κ → Int) (low : κ) : T κ α → Enumeration κ α → Enumeration κ α
  | .empty, c => c
  | .node l (v, d) r _, c =>
    if cmp v low = 0 then .more v d r c
    else if cmp v low < 0 then toSeqFromAux cmp low r c
    else toSeqFromAux cmp low l (.more v d r c)

def toSeqFrom (cmp : κ → κ → Int) (low : κ) (m : T κ α) : Enumeration κ α :=
  toSeqFromAux cmp low m .done

/-! ## Construction from lists and sequences

`phys i` are the answers of `==` in the insertion of the `i`-th binding.
-/

def addSeq (cmp : κ → κ → Int) (phys : Nat → PhysEq) :
    List (κ × α) → T κ α → Except Exn (T κ α)
  | [], m => .ok m
  | (k, v) :: i, m => do
    let m' ← add cmp (phys 0) k v m
    addSeq cmp (fun n => phys (n + 1)) i m'

def ofSeq (cmp : κ → κ → Int) (phys : Nat → PhysEq) (i : List (κ × α)) :
    Except Exn (T κ α) := addSeq cmp phys i empty

def ofList (cmp : κ → κ → Int) (phys : Nat → PhysEq) (bs : List (κ × α)) :
    Except Exn (T κ α) := addSeq cmp phys bs empty

end TravLang.Map
