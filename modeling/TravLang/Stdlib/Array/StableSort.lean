import Mathlib.Data.List.Induction
import TravLang.Lib.Segment
import TravLang.Lib.StableSort
import TravLang.Stdlib.Array.Basic

/-!
# `Array.stable_sort` (`stdlib/array.ml`)

A merge sort that moves the elements between the array and a temporary one of half of its length.
The functions write to one of the two arrays while they read from both. What makes this work is in
`Clear`: an element is read before another one is written over it.
-/

namespace TravLang.Arrays.Stable

open Result SortedAssoc Segment List
open StableSort (Rearranges InOrder Sorts le le_iff)

variable {α : Type}

/-- The two arrays -/
inductive Arr where
  | a
  | t
  deriving DecidableEq, Repr

structure Mem (α : Type) where
  a : List α
  t : List α

namespace Mem

def arr (m : Mem α) : Arr → List α
  | .a => m.a
  | .t => m.t

def put (m : Mem α) (l : List α) : Arr → Mem α
  | .a => { m with a := l }
  | .t => { m with t := l }

def get (m : Mem α) (w : Arr) (i : Nat) : Except Exn α := Arrays.get (m.arr w) i

def set (m : Mem α) (w : Arr) (i : Nat) (x : α) : Except Exn (Mem α) := do
  let l ← Arrays.set (m.arr w) i x
  return m.put l w

/-- The elements are read before any of them is written. -/
def blit (m : Mem α) (w1 : Arr) (ofs1 : Nat) (w2 : Arr) (ofs2 len : Nat) : Except Exn (Mem α) :=
  if ofs1 + len > (m.arr w1).length ∨ ofs2 + len > (m.arr w2).length then
    .error (.invalidArg "Array.blit")
  else
    .ok (m.put ((m.arr w2).take ofs2 ++ ((m.arr w1).drop ofs1).take len ++
      (m.arr w2).drop (ofs2 + len)) w2)

end Mem

def cutoff : Nat := 5

def mergeLoop (cmp : α → α → Int) (src1r : Nat) (src2 : Arr) (src2r : Nat) (dst : Arr) (m : Mem α)
    (i1 : Nat) (s1 : α) (i2 : Nat) (s2 : α) (d : Nat) : Except Exn (Mem α) :=
  if cmp s1 s2 ≤ 0 then do
    let m ← m.set dst d s1
    if _h : i1 + 1 < src1r then
      let s1 ← m.get .a (i1 + 1)
      mergeLoop cmp src1r src2 src2r dst m (i1 + 1) s1 i2 s2 (d + 1)
    else m.blit src2 i2 dst (d + 1) (src2r - i2)
  else do
    let m ← m.set dst d s2
    if _h : i2 + 1 < src2r then
      let s2 ← m.get src2 (i2 + 1)
      mergeLoop cmp src1r src2 src2r dst m i1 s1 (i2 + 1) s2 (d + 1)
    else m.blit .a i1 dst (d + 1) (src1r - i1)
termination_by (src1r - i1) + (src2r - i2)

def merge (cmp : α → α → Int) (m : Mem α) (src1ofs src1len : Nat) (src2 : Arr)
    (src2ofs src2len : Nat) (dst : Arr) (dstofs : Nat) : Except Exn (Mem α) := do
  let src1r := src1ofs + src1len
  let src2r := src2ofs + src2len
  let s1 ← m.get .a src1ofs
  let s2 ← m.get src2 src2ofs
  mergeLoop cmp src1r src2 src2r dst m src1ofs s1 src2ofs s2 dstofs

/-- The loop over `!j`, which is `p - 1` -/
def insertLoop (cmp : α → α → Int) (dst : Arr) (dstofs : Nat) (e : α) (m : Mem α) (p : Nat) :
    Except Exn (Mem α) :=
  if _h : p > dstofs then do
    let x ← m.get dst (p - 1)
    if cmp x e > 0 then
      let m ← m.set dst p x
      insertLoop cmp dst dstofs e m (p - 1)
    else m.set dst p e
  else m.set dst p e
termination_by p

/-- The iterations from `i` on -/
def isorttoLoop (cmp : α → α → Int) (srcofs : Nat) (dst : Arr) (dstofs len : Nat) (m : Mem α)
    (i : Nat) : Except Exn (Mem α) :=
  if _h : i < len then do
    let e ← m.get .a (srcofs + i)
    let m ← insertLoop cmp dst dstofs e m (dstofs + i)
    isorttoLoop cmp srcofs dst dstofs len m (i + 1)
  else .ok m
termination_by len - i

def isortto (cmp : α → α → Int) (m : Mem α) (srcofs : Nat) (dst : Arr) (dstofs len : Nat) :
    Except Exn (Mem α) := isorttoLoop cmp srcofs dst dstofs len m 0

def sortto (cmp : α → α → Int) (m : Mem α) (srcofs : Nat) (dst : Arr) (dstofs len : Nat) :
    Except Exn (Mem α) :=
  if _h : len ≤ cutoff then isortto cmp m srcofs dst dstofs len
  else do
    let l1 := len / 2
    let l2 := len - l1
    let m ← sortto cmp m (srcofs + l1) dst (dstofs + l1) l2
    let m ← sortto cmp m srcofs .a (srcofs + l2) l1
    merge cmp m (srcofs + l2) l1 dst (dstofs + l1) l2 dst dstofs
termination_by len
decreasing_by all_goals (unfold cutoff at _h; omega)

def stableSort (cmp : α → α → Int) (a : List α) : Except Exn (List α) := do
  let l := a.length
  if l ≤ cutoff then
    let m ← isortto cmp { a, t := [] } 0 .a 0 l
    return m.a
  else
    let l1 := l / 2
    let l2 := l - l1
    let x ← get a 0
    let m ← sortto cmp { a, t := List.replicate l2 x } l1 .t 0 l2
    let m ← sortto cmp m 0 .a l2 l1
    let m ← merge cmp m l2 l1 .t 0 l2 .a 0
    return m.a

/-! ## Reads and writes -/

section Spec

variable {cmp : α → α → Int} {m m' m'' : Mem α} {w w' dst : Arr} {i j d n dstofs srcofs : Nat}
  {x : α} {xs l : List α} {T T' : Arr → Nat → Prop}

/-- Only the positions in `touched` are written. -/
structure Frame (touched : Arr → Nat → Prop) (m m' : Mem α) : Prop where
  length : ∀ w, (m'.arr w).length = (m.arr w).length
  same : ∀ w k, ¬ touched w k → (m'.arr w)[k]? = (m.arr w)[k]?

/-- Positions of one array -/
def Between (w : Arr) (lo hi : Nat) (w' : Arr) (k : Nat) : Prop := w' = w ∧ lo ≤ k ∧ k < hi

theorem Frame.mono (h : Frame T m m') (hT : ∀ w k, T w k → T' w k) : Frame T' m m' :=
  ⟨h.length, fun w k hk => h.same w k fun hk' => hk (hT w k hk')⟩

theorem Frame.trans (h : Frame T m m') (h' : Frame T m' m'') : Frame T m m'' :=
  ⟨fun w => (h'.length w).trans (h.length w),
    fun w k hk => (h'.same w k hk).trans (h.same w k hk)⟩

theorem Frame.seg (h : Frame T m m') (hseg : Seg (m.arr w) i xs)
    (hT : ∀ k, i ≤ k → k < i + xs.length → ¬ T w k) : Seg (m'.arr w) i xs :=
  hseg.congr fun k hk hk' => h.same w k (hT k hk hk')

theorem arr_put_self (m : Mem α) (l : List α) (w : Arr) : (m.put l w).arr w = l := by
  cases w <;> rfl

theorem arr_put_of_ne (m : Mem α) (l : List α) (h : w' ≠ w) : (m.put l w).arr w' = m.arr w' := by
  cases w <;> cases w' <;> first | rfl | exact absurd rfl h

theorem get_of_seg (h : Seg (m.arr w) i (x :: xs)) : m.get w i = .ok x :=
  get_ok (seg_cons.mp h).1

theorem set_spec (h : i < (m.arr w).length) (x : α) : ∃ m', m.set w i x = .ok m' ∧
    Frame (Between w i (i + 1)) m m' ∧ (m'.arr w)[i]? = some x := by
  refine ⟨m.put ((m.arr w).set i x) w, ?_, ⟨?_, ?_⟩, ?_⟩
  · rw [Mem.set, set_ok h]
    rfl
  · intro w'
    by_cases hw : w' = w
    · rw [hw, arr_put_self, length_set]
    · rw [arr_put_of_ne m _ hw]
  · intro w' k hk
    by_cases hw : w' = w
    · subst hw
      rw [arr_put_self]
      exact List.getElem?_set_ne fun hik => hk ⟨rfl, by omega, by omega⟩
    · rw [arr_put_of_ne m _ hw]
  · rw [arr_put_self]
    exact List.getElem?_set_self h

theorem blit_spec (hseg : Seg (m.arr w) i xs) (hi : i + xs.length ≤ (m.arr w).length)
    (hj : j + xs.length ≤ (m.arr w').length) : ∃ m', m.blit w i w' j xs.length = .ok m' ∧
    Frame (Between w' j (j + xs.length)) m m' ∧ Seg (m'.arr w') j xs := by
  have htake : ((m.arr w).drop i).take xs.length = xs := hseg.take_drop hi
  have hlen : ((m.arr w').take j).length = j := length_take_of_le (by omega)
  refine ⟨m.put ((m.arr w').take j ++ xs ++ (m.arr w').drop (j + xs.length)) w', ?_, ⟨?_, ?_⟩, ?_⟩
  · rw [Mem.blit, if_neg (by omega), htake]
  · intro v
    by_cases hv : v = w'
    · rw [hv, arr_put_self, length_append, length_append, hlen, length_drop]
      omega
    · rw [arr_put_of_ne m _ hv]
  · intro v k hk
    by_cases hv : v = w'
    · subst hv
      rw [arr_put_self, append_assoc]
      rcases Nat.lt_or_ge k j with hkj | hjk
      · rw [List.getElem?_append_left (by omega), List.getElem?_take_of_lt hkj]
      · have hk' : j + xs.length ≤ k := Nat.not_lt.mp fun hlt => hk ⟨rfl, hjk, hlt⟩
        rw [List.getElem?_append_right (by omega), List.getElem?_append_right (by omega),
          List.getElem?_drop, hlen]
        congr 1
        omega
    · rw [arr_put_of_ne m _ hv]
  · rw [arr_put_self, append_assoc]
    intro k x hx
    obtain ⟨hk, -⟩ := List.getElem?_eq_some_iff.mp hx
    rw [List.getElem?_append_right (by omega), hlen, Nat.add_sub_cancel_left,
      List.getElem?_append_left hk, hx]

/-! ## Merging -/

/-- Elements of `w` from `i` on are still there when they are to be read, while they and `n` other
ones are written to `dst` from `d` on. -/
def Clear (dst : Arr) (d : Nat) (w : Arr) (i len n : Nat) : Prop :=
  dst = w → d + (len + n) ≤ i ∨ i + len ≤ d ∨ i = d + n

section

variable (hframe : Frame (Between dst d (d + 1)) m m')

include hframe

/-- The element at `i` has been read. -/
theorem seg_read (hclear : Clear dst d w i (xs.length + 1) n) (hseg : Seg (m.arr w) i (x :: xs)) :
    Seg (m'.arr w) (i + 1) xs := by
  refine hframe.seg (seg_cons.mp hseg).2 ?_
  rintro k hk hk' ⟨rfl, hdk, hkd⟩
  have := hclear rfl
  omega

/-- The element comes from the other array. -/
theorem seg_unread (hseg : Seg (m.arr w) i xs) (hclear : Clear dst d w i xs.length (n + 1)) :
    Seg (m'.arr w) i xs := by
  refine hframe.seg hseg ?_
  rintro k hk hk' ⟨rfl, hdk, hkd⟩
  have := hclear rfl
  omega

/-- An element that is written, and then those after it -/
theorem write_then (hx : (m'.arr dst)[d]? = some x)
    (hframe' : Frame (Between dst (d + 1) n) m' m'') (hseg : Seg (m''.arr dst) (d + 1) xs)
    (hn : d < n) : Frame (Between dst d n) m m'' ∧ Seg (m''.arr dst) d (x :: xs) := by
  refine ⟨(hframe.mono ?_).trans (hframe'.mono ?_), seg_cons.mpr ⟨?_, hseg⟩⟩
  · rintro v k ⟨rfl, hk, hk'⟩
    exact ⟨rfl, hk, by omega⟩
  · rintro v k ⟨rfl, hk, hk'⟩
    exact ⟨rfl, by omega, hk'⟩
  · rw [hframe'.same dst d fun h => by have := h.2.1; omega, hx]

end

/-- **The merge of two segments is written, whatever of them it is written over.** -/
theorem mergeLoop_spec (cmp : α → α → Int) {dst src2 : Arr} {xs1 xs2 : List α} {m : Mem α}
    {i1 i2 d : Nat}
    {s1 s2 : α} (h1 : Seg (m.arr .a) i1 (s1 :: xs1)) (h2 : Seg (m.arr src2) i2 (s2 :: xs2))
    (hd : d + (xs1.length + 1) + (xs2.length + 1) ≤ (m.arr dst).length)
    (hclear1 : Clear dst d .a i1 (xs1.length + 1) (xs2.length + 1))
    (hclear2 : Clear dst d src2 i2 (xs2.length + 1) (xs1.length + 1)) :
    ∃ m', mergeLoop cmp (i1 + (xs1.length + 1)) src2 (i2 + (xs2.length + 1)) dst m i1 s1 i2 s2 d =
        .ok m' ∧
      Frame (Between dst d (d + (xs1.length + 1) + (xs2.length + 1))) m m' ∧
      Seg (m'.arr dst) d (List.merge (s1 :: xs1) (s2 :: xs2) (le cmp)) := by
  rw [mergeLoop]
  by_cases hle : cmp s1 s2 ≤ 0
  · obtain ⟨m1, hset, hframe, hx⟩ := set_spec (show d < (m.arr dst).length by omega) s1
    have h1' := seg_read hframe hclear1 h1
    have h2' := seg_unread hframe h2 hclear2
    have hlen2 := h2'.length_le (cons_ne_nil s2 xs2)
    have hlen := hframe.length dst
    rw [if_pos hle, hset, ok_bind, cons_merge_cons_pos _ _ _ (le_iff.mpr hle)]
    cases xs1 with
    | nil =>
      obtain ⟨m2, hblit, hframe', hseg⟩ := blit_spec h2' hlen2
        (show d + 1 + (s2 :: xs2).length ≤ (m1.arr dst).length by
          rw [hlen, length_cons, length_nil] at *; omega)
      rw [dif_neg (by simp), Nat.add_sub_cancel_left, nil_merge]
      exact ⟨m2, hblit, write_then hframe hx hframe' hseg (by omega)⟩
    | cons s1' xs1 =>
      rw [length_cons] at hd hclear1 hclear2
      obtain ⟨m2, hloop, hframe', hseg⟩ := mergeLoop_spec cmp (d := d + 1) h1' h2'
        (show d + 1 + (xs1.length + 1) + (xs2.length + 1) ≤ (m1.arr dst).length by omega)
        (fun h => by have := hclear1 h; omega) (fun h => by have := hclear2 h; omega)
      rw [length_cons, dif_pos (by omega), get_of_seg h1', ok_bind,
        show i1 + (xs1.length + 1 + 1) = i1 + 1 + (xs1.length + 1) by omega, hloop,
        show d + (xs1.length + 1 + 1) = d + 1 + (xs1.length + 1) by omega]
      exact ⟨m2, rfl, write_then hframe hx hframe' hseg (by omega)⟩
  · obtain ⟨m1, hset, hframe, hx⟩ := set_spec (show d < (m.arr dst).length by omega) s2
    have h1' := seg_unread hframe h1 hclear1
    have h2' := seg_read hframe hclear2 h2
    have hlen1 := h1'.length_le (cons_ne_nil s1 xs1)
    have hlen := hframe.length dst
    rw [if_neg hle, hset, ok_bind,
      cons_merge_cons_neg _ _ _ (fun h => hle (le_iff.mp h))]
    cases xs2 with
    | nil =>
      obtain ⟨m2, hblit, hframe', hseg⟩ := blit_spec h1' hlen1
        (show d + 1 + (s1 :: xs1).length ≤ (m1.arr dst).length by
          rw [hlen, length_cons, length_nil] at *; omega)
      rw [dif_neg (by simp), Nat.add_sub_cancel_left, List.merge_right]
      rw [show d + 1 + (s1 :: xs1).length = d + (xs1.length + 1) + 1 by rw [length_cons]; omega]
        at hframe'
      exact ⟨m2, hblit, write_then hframe hx hframe' hseg (by omega)⟩
    | cons s2' xs2 =>
      rw [length_cons] at hd hclear1 hclear2
      obtain ⟨m2, hloop, hframe', hseg⟩ := mergeLoop_spec cmp (d := d + 1) h1' h2'
        (show d + 1 + (xs1.length + 1) + (xs2.length + 1) ≤ (m1.arr dst).length by omega)
        (fun h => by have := hclear1 h; omega) (fun h => by have := hclear2 h; omega)
      rw [length_cons, dif_pos (by omega), get_of_seg h2', ok_bind,
        show i2 + (xs2.length + 1 + 1) = i2 + 1 + (xs2.length + 1) by omega, hloop,
        show d + (xs1.length + 1) + (xs2.length + 1 + 1) =
          d + 1 + (xs1.length + 1) + (xs2.length + 1) by omega]
      exact ⟨m2, rfl, write_then hframe hx hframe' hseg (by omega)⟩
termination_by xs1.length + xs2.length

theorem merge_spec (cmp : α → α → Int) (dst : Arr) {src2 : Arr} {xs1 xs2 : List α} {i1 i2 : Nat}
    (hne1 : xs1 ≠ []) (hne2 : xs2 ≠ []) (h1 : Seg (m.arr .a) i1 xs1) (h2 : Seg (m.arr src2) i2 xs2)
    (hd : d + xs1.length + xs2.length ≤ (m.arr dst).length)
    (hclear1 : Clear dst d .a i1 xs1.length xs2.length)
    (hclear2 : Clear dst d src2 i2 xs2.length xs1.length) :
    ∃ m', merge cmp m i1 xs1.length src2 i2 xs2.length dst d = .ok m' ∧
      Frame (Between dst d (d + xs1.length + xs2.length)) m m' ∧
      Seg (m'.arr dst) d (List.merge xs1 xs2 (le cmp)) := by
  cases xs1 with
  | nil => exact absurd rfl hne1
  | cons s1 xs1 =>
    cases xs2 with
    | nil => exact absurd rfl hne2
    | cons s2 xs2 =>
      obtain ⟨m', hloop, hrest⟩ := mergeLoop_spec cmp h1 h2 hd hclear1 hclear2
      refine ⟨m', ?_, hrest⟩
      rw [merge, get_of_seg h1, ok_bind, get_of_seg h2, ok_bind]
      exact hloop

/-! ## Insertion -/

/-- The element has come to its place. -/
theorem insert_place (ho : TotalPreorder cmp) {e : α} {s1 s2 : List α}
    (hsorts : Sorts cmp l (s1 ++ s2)) (hle : ∀ y ∈ s1, cmp y e ≤ 0) (hgt : ∀ y ∈ s2, cmp y e > 0)
    (h1 : Seg (m.arr dst) dstofs s1) (h2 : Seg (m.arr dst) (dstofs + s1.length + 1) s2)
    (hlt : dstofs + l.length < (m.arr dst).length) :
    ∃ m' s, m.set dst (dstofs + s1.length) e = .ok m' ∧
      Frame (Between dst dstofs (dstofs + l.length + 1)) m m' ∧
      Seg (m'.arr dst) dstofs s ∧ Sorts cmp (l ++ [e]) s := by
  have hlen : s1.length + s2.length = l.length := by
    rw [← length_append, hsorts.perm.length_eq]
  obtain ⟨m', hset, hframe, hx⟩ :=
    set_spec (show dstofs + s1.length < (m.arr dst).length by omega) e
  refine ⟨m', s1 ++ e :: s2, hset, hframe.mono ?_, ?_, hsorts.insert ho hle hgt⟩
  · rintro v k ⟨rfl, hk, hk'⟩
    exact ⟨rfl, by omega, by omega⟩
  · refine seg_append.mpr ⟨hframe.seg h1 ?_, seg_cons.mpr ⟨hx, hframe.seg h2 ?_⟩⟩
    · rintro k _ hk ⟨-, hk', -⟩
      omega
    · rintro k hk _ ⟨-, -, hk'⟩
      omega

/-- The elements of `s2` have moved up by one position, and `e` goes down past those of `s1` that
are after it. -/
theorem insertLoop_spec (ho : TotalPreorder cmp) {e : α} (s1 : List α) :
    ∀ {s2 : List α} {m : Mem α}, Sorts cmp l (s1 ++ s2) → (∀ y ∈ s2, cmp y e > 0) →
    Seg (m.arr dst) dstofs s1 → Seg (m.arr dst) (dstofs + s1.length + 1) s2 →
    dstofs + l.length < (m.arr dst).length → ∃ m' s,
      insertLoop cmp dst dstofs e m (dstofs + s1.length) = .ok m' ∧
      Frame (Between dst dstofs (dstofs + l.length + 1)) m m' ∧
      Seg (m'.arr dst) dstofs s ∧ Sorts cmp (l ++ [e]) s := by
  induction s1 using List.reverseRecOn with
  | nil =>
    intro s2 m hsorts hgt h1 h2 hlt
    rw [insertLoop, dif_neg (by simp)]
    exact insert_place ho hsorts nofun hgt h1 h2 hlt
  | append_singleton s1 x ih =>
    intro s2 m hsorts hgt h1 h2 hlt
    have hlen : s1.length + 1 + s2.length = l.length := by
      rw [← hsorts.perm.length_eq, length_append, length_append, length_singleton]
    obtain ⟨hs1, hx⟩ := seg_append.mp h1
    rw [insertLoop, length_append, length_singleton, dif_pos (by omega),
      show dstofs + (s1.length + 1) - 1 = dstofs + s1.length by omega, get_of_seg hx, ok_bind]
    split
    · next hxe =>
      obtain ⟨m1, hset, hframe, hm1⟩ :=
        set_spec (show dstofs + (s1.length + 1) < (m.arr dst).length by omega) x
      have hsorts' : Sorts cmp l (s1 ++ x :: s2) := by
        rwa [append_assoc, singleton_append] at hsorts
      have hs1' : Seg (m1.arr dst) dstofs s1 := by
        refine hframe.seg hs1 ?_
        rintro k _ hk ⟨-, hk', -⟩
        omega
      have hs2' : Seg (m1.arr dst) (dstofs + s1.length + 1) (x :: s2) := by
        refine seg_cons.mpr ⟨hm1, hframe.seg ?_ ?_⟩
        · rwa [length_append, length_singleton] at h2
        · rintro k hk _ ⟨-, -, hk'⟩
          omega
      obtain ⟨m', s, hloop, hframe', hseg, hsorted⟩ :=
        ih hsorts' (forall_mem_cons.mpr ⟨hxe, hgt⟩) hs1' hs2' (by rw [hframe.length]; exact hlt)
      refine ⟨m', s, by rw [hset, ok_bind, hloop], (hframe.mono ?_).trans hframe', hseg, hsorted⟩
      rintro v k ⟨rfl, hk, hk'⟩
      exact ⟨rfl, by omega, by omega⟩
    · next hxe =>
      have hle : ∀ y ∈ s1 ++ [x], cmp y e ≤ 0 := by
        have hx' : cmp x e ≤ 0 := Int.not_lt.mp hxe
        intro y hy
        rcases mem_append.mp hy with hy | hy
        · have hin := (pairwise_append.mp (pairwise_append.mp hsorts.inOrder).1).2.2
          exact ho.trans y x e (hin y hy x mem_cons_self) hx'
        · rwa [mem_singleton.mp hy]
      have hplace := insert_place ho hsorts hle hgt h1 h2 hlt
      rwa [length_append, length_singleton] at hplace

/-! ## Sorting into an array -/

/-- The elements from `srcofs` on can be read after some of them are written from `dstofs` on. -/
def Apart (srcofs : Nat) (dst : Arr) (dstofs len : Nat) : Prop :=
  dst = .a → srcofs + len ≤ dstofs ∨ srcofs = dstofs

theorem isorttoLoop_spec (ho : TotalPreorder cmp) {len i : Nat} {xs s : List α}
    (hsorts : Sorts cmp l s) (hl : l.length = i) (hlen : i + xs.length = len)
    (hseg : Seg (m.arr dst) dstofs s) (hxs : Seg (m.arr .a) (srcofs + i) xs)
    (hdst : dstofs + len ≤ (m.arr dst).length) (hapart : Apart srcofs dst dstofs len) :
    ∃ m' s', isorttoLoop cmp srcofs dst dstofs len m i = .ok m' ∧
      Frame (Between dst dstofs (dstofs + len)) m m' ∧
      Seg (m'.arr dst) dstofs s' ∧ Sorts cmp (l ++ xs) s' := by
  have hs : s.length = i := by rw [hsorts.perm.length_eq, hl]
  induction xs generalizing m l s i with
  | nil =>
    rw [isorttoLoop, dif_neg (by rw [length_nil] at hlen; omega), append_nil]
    exact ⟨m, s, rfl, ⟨fun _ => rfl, fun _ _ _ => rfl⟩, hseg, hsorts⟩
  | cons e xs ih =>
    rw [length_cons] at hlen
    rw [isorttoLoop, dif_pos (by omega), get_of_seg hxs, ok_bind]
    obtain ⟨m1, s1, hloop, hframe, hseg1, hsorts1⟩ := insertLoop_spec (e := e) ho s
      (show Sorts cmp l (s ++ []) by rwa [append_nil]) nofun hseg (seg_nil _ _) (by omega)
    rw [hs] at hloop
    have hxs1 : Seg (m1.arr .a) (srcofs + (i + 1)) xs := by
      refine hframe.seg (seg_cons.mp hxs).2 ?_
      rintro k hk hk' ⟨hdst', hk1, hk2⟩
      have := hapart hdst'.symm
      omega
    have hl1 : (l ++ [e]).length = i + 1 := by rw [length_append, hl, length_singleton]
    obtain ⟨m2, s2, hrest, hframe', hseg2, hsorts2⟩ := ih hsorts1 hl1 (by omega) hseg1 hxs1
      (by rw [hframe.length]; exact hdst) (by rw [hsorts1.perm.length_eq, hl1])
    refine ⟨m2, s2, by rw [hloop, ok_bind, hrest], (hframe.mono ?_).trans hframe', hseg2, ?_⟩
    · rintro v k ⟨rfl, hk, hk'⟩
      exact ⟨rfl, hk, by omega⟩
    · rwa [append_assoc, singleton_append] at hsorts2

theorem isortto_spec (ho : TotalPreorder cmp) (dst : Arr) (hxs : Seg (m.arr .a) srcofs xs)
    (hdst : dstofs + xs.length ≤ (m.arr dst).length) (hapart : Apart srcofs dst dstofs xs.length) :
    ∃ m' s, isortto cmp m srcofs dst dstofs xs.length = .ok m' ∧
      Frame (Between dst dstofs (dstofs + xs.length)) m m' ∧
      Seg (m'.arr dst) dstofs s ∧ Sorts cmp xs s := by
  have hnil : Sorts cmp ([] : List α) [] := InOrder.self_sorts .nil
  exact isorttoLoop_spec ho hnil rfl (Nat.zero_add _) (seg_nil _ _) hxs hdst hapart

/-- `sortto` sorts `n` elements of the array into another segment, and may write over the first
one. -/
def SortsInto (cmp : α → α → Int) (n : Nat) : Prop :=
  ∀ {m : Mem α} (dst : Arr) {srcofs : Nat} (dstofs : Nat) {xs : List α}, xs.length = n →
    Seg (m.arr .a) srcofs xs → dstofs + n ≤ (m.arr dst).length →
    (dst = .a → srcofs + n ≤ dstofs) →
    ∃ m' s, sortto cmp m srcofs dst dstofs n = .ok m' ∧
      Frame (fun w k => Between dst dstofs (dstofs + n) w k ∨
        Between .a srcofs (srcofs + n) w k) m m' ∧
      Seg (m'.arr dst) dstofs s ∧ Sorts cmp xs s

/-- The second half is sorted into `dst` and the first one over the place of both. -/
theorem halves_spec {ys zs : List α} (h1 : SortsInto cmp ys.length) (h2 : SortsInto cmp zs.length)
    (dst : Arr) (dstofs : Nat) (hle : ys.length ≤ zs.length)
    (hxs : Seg (m.arr .a) srcofs (ys ++ zs)) (hdst : dstofs + zs.length ≤ (m.arr dst).length)
    (hsrc : srcofs + ys.length + zs.length ≤ m.a.length)
    (hapart : dst = .a → srcofs + ys.length + zs.length ≤ dstofs) :
    ∃ m1 m2 s1 s2,
      sortto cmp m (srcofs + ys.length) dst dstofs zs.length = .ok m1 ∧
      sortto cmp m1 srcofs .a (srcofs + zs.length) ys.length = .ok m2 ∧
      Frame (fun w k => Between dst dstofs (dstofs + zs.length) w k ∨
        Between .a srcofs (srcofs + ys.length + zs.length) w k) m m2 ∧
      Seg (m2.arr .a) (srcofs + zs.length) s1 ∧ Sorts cmp ys s1 ∧
      Seg (m2.arr dst) dstofs s2 ∧ Sorts cmp zs s2 := by
  obtain ⟨hys, hzs⟩ := seg_append.mp hxs
  obtain ⟨m1, s2, hsort2, hframe2, hseg2, hsorts2⟩ := h2 dst dstofs rfl hzs hdst hapart
  have hys' : Seg (m1.arr .a) srcofs ys := by
    refine hframe2.seg hys ?_
    rintro k hk hk' (⟨hw, hlo, hhi⟩ | ⟨-, hlo, hhi⟩)
    · have := hapart hw.symm
      omega
    · omega
  have hlen : (m1.arr .a).length = m.a.length := hframe2.length .a
  obtain ⟨m2, s1, hsort1, hframe1, hseg1, hsorts1⟩ := h1 .a (srcofs + zs.length) rfl hys'
    (by omega) (fun _ => by omega)
  refine ⟨m1, m2, s1, s2, hsort2, hsort1, (hframe2.mono ?_).trans (hframe1.mono ?_), hseg1, hsorts1,
    hframe1.seg hseg2 ?_, hsorts2⟩
  · rintro w k (h | ⟨hw, hlo, hhi⟩)
    · exact .inl h
    · exact .inr ⟨hw, by omega, by omega⟩
  · rintro w k (⟨hw, hlo, hhi⟩ | ⟨hw, hlo, hhi⟩)
    · exact .inr ⟨hw, by omega, by omega⟩
    · exact .inr ⟨hw, by omega, by omega⟩
  · have hlen2 := hsorts2.perm.length_eq
    rintro k hk hk' (⟨hw, hlo, hhi⟩ | ⟨hw, hlo, hhi⟩)
    · have := hapart hw
      omega
    · have := hapart hw
      omega

/-- The two halves of a list, the second of which may be longer -/
theorem exists_halves (xs : List α) : ∃ ys zs, ys.length = xs.length / 2 ∧
    zs.length = xs.length - xs.length / 2 ∧ xs = ys ++ zs :=
  ⟨xs.take (xs.length / 2), xs.drop (xs.length / 2), by rw [length_take]; omega,
    length_drop, (take_append_drop _ _).symm⟩

theorem sortsInto (ho : TotalPreorder cmp) (n : Nat) : SortsInto cmp n := by
  induction n using Nat.strongRecOn with
  | ind n ih =>
    intro m dst srcofs dstofs xs hn hxs hdst hapart
    subst hn
    rw [sortto]
    split
    · obtain ⟨m', s, hsort, hframe, hrest⟩ := isortto_spec ho dst hxs hdst fun h => .inl (hapart h)
      exact ⟨m', s, hsort, hframe.mono fun w k => .inl, hrest⟩
    · next hlong =>
      have hlong : 5 < xs.length := Nat.not_le.mp hlong
      have hfit := hxs.length_le (ne_nil_of_length_pos (by omega))
      obtain ⟨ys, zs, hys, hzs, rfl⟩ := exists_halves xs
      have hlen : (ys ++ zs).length = ys.length + zs.length := length_append
      have hsrc : srcofs + ys.length + zs.length ≤ m.a.length := by
        rw [hlen, ← Nat.add_assoc] at hfit
        exact hfit
      obtain ⟨m1, m2, s1, s2, hsort2, hsort1, hframe, hseg1, hsorts1, hseg2, hsorts2⟩ :=
        halves_spec (ih ys.length (by omega)) (ih zs.length (by omega)) dst (dstofs + ys.length)
          (by omega) hxs (by omega) hsrc fun h => by have := hapart h; omega
      have hlen1 := hsorts1.perm.length_eq
      have hlen2 := hsorts2.perm.length_eq
      obtain ⟨m3, hmerge, hframe3, hseg3⟩ := merge_spec cmp dst (d := dstofs)
        (ne_nil_of_length_pos (by omega)) (ne_nil_of_length_pos (by omega)) hseg1 hseg2
        (by rw [hframe.length]; omega) (fun h => by have := hapart h; omega)
        (fun _ => by omega)
      rw [hlen1, hlen2] at hmerge
      refine ⟨m3, _, ?_, (hframe.mono ?_).trans (hframe3.mono ?_), hseg3, hsorts1.merge ho hsorts2⟩
      · dsimp only
        rw [← hzs, ← hys, hsort2, ok_bind, hsort1, ok_bind, hmerge]
      · rintro w k (⟨hw, hlo, hhi⟩ | ⟨hw, hlo, hhi⟩)
        · exact .inl ⟨hw, by omega, by omega⟩
        · exact .inr ⟨hw, by omega, by omega⟩
      · rintro w k ⟨hw, hlo, hhi⟩
        exact .inl ⟨hw, by omega, by omega⟩

/-- **`stable_sort` terminates without an exception and leaves the elements in non-decreasing order,
where those that compare as equal keep their order.** -/
theorem stable_sort_sorts (ho : TotalPreorder cmp) (a : List α) :
    ∃ s, stableSort cmp a = .ok s ∧ s.Perm a ∧ (s.Pairwise fun x y => cmp x y ≤ 0) ∧
      ∀ x, s.filter (fun y => cmp x y = 0) = a.filter (fun y => cmp x y = 0) := by
  have hsorts : ∃ s, stableSort cmp a = .ok s ∧ Sorts cmp a s := by
    unfold stableSort
    dsimp only
    split
    · obtain ⟨m', s, hsort, hframe, hseg, hsorts⟩ := isortto_spec (m := { a, t := [] }) ho .a
        (seg_self a) (Nat.le_of_eq (Nat.zero_add _)) fun _ => .inr rfl
      have hs : m'.a = s := hseg.eq (by rw [hsorts.perm.length_eq]; exact (hframe.length .a).symm)
      exact ⟨s, by rw [hsort, ok_bind, hs]; rfl, hsorts⟩
    · next hlong =>
      have hlong : 5 < a.length := Nat.not_le.mp hlong
      obtain ⟨x, hx⟩ : ∃ x, a[0]? = some x := ⟨_, List.getElem?_eq_getElem (by omega)⟩
      rw [get_ok hx, ok_bind]
      obtain ⟨ys, zs, hys, hzs, ha⟩ := exists_halves a
      have hlen : ys.length + zs.length = a.length := by rw [ha, length_append]
      have hseg : Seg (Mem.arr { a, t := List.replicate zs.length x } .a) 0 (ys ++ zs) :=
        ha ▸ seg_self a
      obtain ⟨m1, m2, s1, s2, hsort2, hsort1, hframe, hseg1, hsorts1, hseg2, hsorts2⟩ :=
        halves_spec (sortsInto ho ys.length) (sortsInto ho zs.length) .t 0 (by omega) hseg
          (by rw [Nat.zero_add]; exact Nat.le_of_eq length_replicate.symm)
          (by dsimp only; omega) nofun
      have hlen1 := hsorts1.perm.length_eq
      have hlen2 := hsorts2.perm.length_eq
      have hlena : (m2.arr .a).length = a.length := hframe.length .a
      -- the merge writes over the first half, from the place of the second one on
      obtain ⟨m3, hmerge, hframe3, hseg3⟩ := merge_spec cmp .a (d := 0)
        (ne_nil_of_length_pos (by omega)) (ne_nil_of_length_pos (by omega)) hseg1 hseg2
        (by omega) (fun _ => by omega) nofun
      have hsorts := hsorts1.merge ho hsorts2
      have hs : m3.a = List.merge s1 s2 (le cmp) := hseg3.eq (by
        rw [hsorts.perm.length_eq, length_append, hlen, hframe3.length, hlena])
      rw [hlen1, hlen2, Nat.zero_add] at hmerge
      rw [Nat.zero_add] at hsort1 hsort2
      refine ⟨_, ?_, ha ▸ hsorts⟩
      rw [← hzs, ← hys, hsort2, ok_bind, hsort1, ok_bind, hmerge, ok_bind, hs]
      rfl
  obtain ⟨s, hs, hsorts⟩ := hsorts
  exact ⟨s, hs, hsorts.perm, hsorts.inOrder, hsorts.stable⟩

end Spec

/-- Pairs are compared by their first component. There are more of them than `cutoff`. -/
theorem stable_sort_sorts_byKey : let byKey := fun x y : Int × Nat => x.1 - y.1
    let l := [(2, 0), (1, 1), (2, 2), (0, 3), (1, 4), (0, 5), (2, 6)]
    ∃ s, stableSort byKey l = .ok s ∧ s.Perm l ∧ (s.Pairwise fun x y => byKey x y ≤ 0) ∧
      ∀ x, s.filter (fun y => byKey x y = 0) = l.filter (fun y => byKey x y = 0) :=
  stable_sort_sorts (TotalPreorder.sub Prod.fst) _

end TravLang.Arrays.Stable
