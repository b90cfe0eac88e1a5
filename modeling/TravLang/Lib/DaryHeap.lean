import Mathlib.Algebra.Order.Ring.Nat

/-!
# Heaps in level order

The values at the positions below `n` form a tree in which each node has at most `d` children, and
no value is after that of its parent. `Ordered` says this of the parents from position `lo` on, so
that a heap can be built from the leaves up.

A `Hole` is a position whose value does not matter. It can move to the greatest child or to the
parent of its position, and a value that fits there ends it.
-/

namespace DaryHeap

open Function

variable {α : Type} {r : α → α → Prop} {d lo n h j : Nat} {v : Nat → α} {e : α} {c : Nat}

def parent (d c : Nat) : Nat := (c - 1) / d

theorem parent_lt (hc : 0 < c) : parent d c < c :=
  Nat.lt_of_le_of_lt (Nat.div_le_self _ _) (Nat.sub_lt hc Nat.one_pos)

/-- `c` is a child of `p`. -/
structure Child (d n p c : Nat) : Prop where
  pos : 0 < c
  lt : c < n
  parent_eq : parent d c = p

theorem Child.parent_lt {p c : Nat} (hc : Child d n p c) : p < c :=
  hc.parent_eq ▸ DaryHeap.parent_lt hc.pos

/-- Each value is at most that of its parent. -/
def Ordered (r : α → α → Prop) (d lo n : Nat) (v : Nat → α) : Prop :=
  ∀ p c, Child d n p c → lo ≤ p → r (v c) (v p)

/-- The values around a position are in order without it. -/
structure Hole (r : α → α → Prop) (d lo n : Nat) (v : Nat → α) (h : Nat) : Prop where
  except : ∀ p c, Child d n p c → lo ≤ p → c ≠ h → p ≠ h → r (v c) (v p)
  grand : ∀ p c, Child d n p h → lo ≤ p → Child d n h c → r (v c) (v p)

theorem Ordered.hole_of_succ (ho : Ordered r d (lo + 1) n v) : Hole r d lo n v lo where
  except p c hc hlo _ hp := ho p c hc (Nat.lt_of_le_of_ne hlo (Ne.symm hp))
  grand _ _ hp hlo _ := absurd hlo (Nat.not_le.mpr hp.parent_lt)

/-- The value at the root may be taken away, and the last one as well. -/
theorem Ordered.hole_root (ho : Ordered r d 0 (n + 1) v) : Hole r d 0 n v 0 where
  except p c hc hlo _ _ := ho p c ⟨hc.pos, Nat.lt_succ_of_lt hc.lt, hc.parent_eq⟩ hlo
  grand _ _ hp _ _ := absurd hp.pos (Nat.lt_irrefl 0)

section

variable (hh : Hole r d lo n v h)

include hh

theorem Hole.congr {v' : Nat → α} (hv : ∀ i, i < n → i ≠ h → v' i = v i) : Hole r d lo n v' h where
  except p c hc hlo hch hph := by
    have hp : p < n := hc.parent_lt.trans hc.lt
    rw [hv c hc.lt hch, hv p hp hph]
    exact hh.except p c hc hlo hch hph
  grand p c hp hlo hc := by
    have hph : p < h := hp.parent_lt
    have hhc : h < c := hc.parent_lt
    rw [hv c hc.lt (Nat.ne_of_gt hhc), hv p (hph.trans hp.lt) (Nat.ne_of_lt hph)]
    exact hh.grand p c hp hlo hc

/-- The hole moves to a greatest child. -/
theorem Hole.down (hlo : lo ≤ h) (hj : Child d n h j) (hmax : ∀ c, Child d n h c → r (v c) (v j)) :
    Hole r d lo n (update v h (v j)) j where
  except p c hc hlo' hcj hpj := by
    by_cases hch : c = h
    · subst hch
      have hpc : p ≠ c := Nat.ne_of_lt (hc.parent_lt)
      rw [update_self, update_of_ne hpc]
      exact hh.grand p j hc hlo' hj
    · rw [update_of_ne hch]
      by_cases hph : p = h
      · subst hph
        rw [update_self]
        exact hmax c hc
      · rw [update_of_ne hph]
        exact hh.except p c hc hlo' hch hph
  grand p c hp _ hc := by
    obtain rfl : h = p := hj.parent_eq.symm.trans hp.parent_eq
    have hhj : h < j := hj.parent_lt
    have hjc : j < c := hc.parent_lt
    rw [update_self, update_of_ne (Nat.ne_of_gt (hhj.trans hjc))]
    exact hh.except j c hc (hlo.trans (Nat.le_of_lt hhj)) (Nat.ne_of_gt (hhj.trans hjc))
      (Nat.ne_of_gt hhj)

/-- A value that is between those of the parent and of the children fills the hole. -/
theorem Hole.fill (habove : ∀ p, Child d n p h → lo ≤ p → r e (v p))
    (hbelow : ∀ c, Child d n h c → r (v c) e) : Ordered r d lo n (update v h e) := by
  intro p c hc hlo
  have hpc : p < c := hc.parent_lt
  by_cases hch : c = h
  · subst hch
    rw [update_self, update_of_ne (Nat.ne_of_lt hpc)]
    exact habove p hc hlo
  · rw [update_of_ne hch]
    by_cases hph : p = h
    · subst hph
      rw [update_self]
      exact hbelow c hc
    · rw [update_of_ne hph]
      exact hh.except p c hc hlo hch hph

variable [IsTrans α r] {p : Nat}

/-- The hole moves to the parent. -/
theorem Hole.up (hp : Child d n p h) (hlo : lo ≤ p) :
    Hole r d lo n (update v h (v p)) p := by
  have hph : p < h := hp.parent_lt
  refine ⟨?_, ?_⟩
  · intro q c hc hlo' hcp hqp
    have hch : c ≠ h := fun hch => hqp (hc.parent_eq.symm.trans (hch ▸ hp.parent_eq))
    rw [update_of_ne hch]
    by_cases hqh : q = h
    · subst hqh
      rw [update_self]
      exact hh.grand p c hp hlo hc
    · rw [update_of_ne hqh]
      exact hh.except q c hc hlo' hch hqh
  · intro q c hq hlo' hc
    have hqp : q < p := hq.parent_lt
    have hpq := hh.except q p hq hlo' (Nat.ne_of_lt hph) (Nat.ne_of_lt (hqp.trans hph))
    rw [update_of_ne (Nat.ne_of_lt (hqp.trans hph))]
    by_cases hch : c = h
    · rw [hch, update_self]
      exact hpq
    · rw [update_of_ne hch]
      exact IsTrans.trans _ _ _ (hh.except p c hc hlo hch (Nat.ne_of_lt hph)) hpq

/-- A value that is after the parent's is after those of the children of the parent. -/
theorem Hole.below_up (hp : Child d n p h) (hlo : lo ≤ p)
    (he : r (v p) e) (c : Nat) (hc : Child d n p c) : r (update v h (v p) c) e := by
  have hph : p < h := hp.parent_lt
  by_cases hch : c = h
  · rw [hch, update_self]
    exact he
  · rw [update_of_ne hch]
    exact IsTrans.trans _ _ _ (hh.except p c hc hlo hch (Nat.ne_of_lt hph)) he

end

/-- The value at the root is a greatest one. -/
theorem Ordered.root [IsTrans α r] [Std.Refl r] (ho : Ordered r d 0 n v)
    (hc : c < n) : r (v c) (v 0) := by
  induction c using Nat.strongRecOn with
  | ind c ih =>
    rcases Nat.eq_zero_or_pos c with rfl | hpos
    · exact Std.Refl.refl _
    · have hlt := parent_lt (d := d) hpos
      exact IsTrans.trans _ _ _ (ho _ c ⟨hpos, hc, rfl⟩ (Nat.zero_le _)) (ih _ hlt (hlt.trans hc))

end DaryHeap
