import Mathlib.Data.List.Basic

/-!
# Segments of an array

`Seg l i xs` says that the elements of `l` from position `i` on are those of `xs`. What is done to
other positions does not matter.
-/

namespace Segment

open List

variable {α : Type} {l l' xs ys : List α} {i j : Nat} {x y : α}

def Seg (l : List α) (i : Nat) (xs : List α) : Prop :=
  ∀ k x, xs[k]? = some x → l[i + k]? = some x

@[simp] theorem seg_nil (l : List α) (i : Nat) : Seg l i [] := nofun

theorem seg_cons : Seg l i (x :: xs) ↔ l[i]? = some x ∧ Seg l (i + 1) xs := by
  constructor
  · intro h
    refine ⟨h 0 x rfl, fun k y hy => ?_⟩
    rw [Nat.add_assoc, Nat.add_comm 1]
    exact h (k + 1) y hy
  · rintro ⟨hx, hxs⟩ (_ | k) y hy
    · exact hx.trans hy
    · have := hxs k y hy
      rwa [Nat.add_assoc, Nat.add_comm 1] at this

theorem seg_append : Seg l i (xs ++ ys) ↔ Seg l i xs ∧ Seg l (i + xs.length) ys := by
  induction xs generalizing i with
  | nil => simp
  | cons x xs ih =>
    rw [cons_append, seg_cons, seg_cons, ih, and_assoc, length_cons, Nat.add_assoc,
      Nat.add_comm 1]

theorem seg_self (l : List α) : Seg l 0 l := by
  intro k x h
  rwa [Nat.zero_add]

theorem Seg.congr (h : Seg l i xs) (hl : ∀ k, i ≤ k → k < i + xs.length → l'[k]? = l[k]?) :
    Seg l' i xs := by
  intro k x hx
  obtain ⟨hk, -⟩ := List.getElem?_eq_some_iff.mp hx
  rw [hl (i + k) (Nat.le_add_right i k) (Nat.add_lt_add_left hk i)]
  exact h k x hx

theorem Seg.length_le (h : Seg l i xs) (hxs : xs ≠ []) : i + xs.length ≤ l.length := by
  obtain ⟨hlt, -⟩ := List.getElem?_eq_some_iff.mp
    (h (xs.length - 1) _ (List.getElem?_eq_getElem (Nat.sub_lt (length_pos_iff.mpr hxs)
      Nat.one_pos)))
  omega

theorem Seg.take_drop (h : Seg l i xs) (hlen : i + xs.length ≤ l.length) :
    (l.drop i).take xs.length = xs := by
  refine ext_getElem (by rw [length_take, length_drop]; omega) fun k _ hk => ?_
  have hx := h k _ (List.getElem?_eq_getElem hk)
  rw [getElem_take, getElem_drop]
  exact (List.getElem?_eq_some_iff.mp hx).2

/-- A segment that is the whole list -/
theorem Seg.eq (h : Seg l 0 xs) (hlen : xs.length = l.length) : l = xs := by
  refine ext_getElem hlen.symm fun k _ hk => ?_
  have := h k _ (List.getElem?_eq_getElem hk)
  rw [Nat.zero_add] at this
  exact (List.getElem?_eq_some_iff.mp this).2

end Segment
