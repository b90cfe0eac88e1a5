import Mathlib.Data.Ordering.Basic
import TravLang.Runtime.Mlvalues

/-!
# The order of values, by recursion

A shape is a value without its addresses and without Forward links, made of integers, strings and
blocks of fields. Shapes are ordered by recursion: integers come before blocks, strings are compared
lexicographically, blocks by tag, then by size, then by their fields from left to right.
-/

namespace TravLang.Runtime.Compare

/-- A value without addresses and Forward links. -/
inductive Shape where
  | int (n : Int)
  | string (s : Bytes)
  | block (tag : Fin stringTag) (fields : List Shape)

mutual

/-- The specification of structural comparison -/
def Shape.compare : Shape → Shape → Ordering
  | .int n1, .int n2 => Ord.compare n1 n2
  | .int _, .string _ => .lt
  | .int _, .block _ _ => .lt
  | .string _, .int _ => .gt
  | .string s1, .string s2 => Ord.compare s1 s2
  | .string _, .block tag2 _ => Ord.compare stringTag tag2.val
  | .block _ _, .int _ => .gt
  | .block tag1 _, .string _ => Ord.compare tag1.val stringTag
  | .block tag1 fields1, .block tag2 fields2 =>
    (Ord.compare tag1.val tag2.val).then
      ((Ord.compare fields1.length fields2.length).then (compareFields fields1 fields2))

/-- Fields from left to right -/
def compareFields : List Shape → List Shape → Ordering
  | x :: xs, y :: ys => (x.compare y).then (compareFields xs ys)
  | [], [] => .eq
  | [], _ :: _ => .lt
  | _ :: _, [] => .gt

end

/-! ## The order of shapes -/

mutual

theorem Shape.compare_swap : ∀ x y : Shape, (x.compare y).swap = y.compare x
  | .int n1, .int n2 => by
    rw [Shape.compare, Shape.compare, ← Std.OrientedCmp.eq_swap]
  | .int _, .string _ | .int _, .block _ _ | .string _, .int _ | .block _ _, .int _ => rfl
  | .string _, .string _ | .string _, .block _ _ | .block _ _, .string _ => by
    rw [Shape.compare, Shape.compare, ← Std.OrientedCmp.eq_swap]
  | .block tag1 fields1, .block tag2 fields2 => by
    rw [Shape.compare, Shape.compare, Ordering.swap_then, Ordering.swap_then,
      ← Std.OrientedCmp.eq_swap, ← Std.OrientedCmp.eq_swap, compareFields_swap fields1 fields2]

theorem compareFields_swap : ∀ xs ys : List Shape,
    (compareFields xs ys).swap = compareFields ys xs
  | x :: xs, y :: ys => by
    rw [compareFields, compareFields, Ordering.swap_then, Shape.compare_swap x y,
      compareFields_swap xs ys]
  | [], [] => rfl
  | [], _ :: _ => rfl
  | _ :: _, [] => rfl

end

mutual

theorem Shape.eq_of_compare : ∀ {x y : Shape}, x.compare y = .eq → x = y
  | .int n1, .int n2, h => by
    rw [Shape.compare] at h
    rw [Std.LawfulEqCmp.eq_of_compare h]
  | .int _, .string _, h | .int _, .block _ _, h | .string _, .int _, h
  | .block _ _, .int _, h => by
    cases h
  | .string s1, .string s2, h => by
    rw [Shape.compare] at h
    rw [Std.LawfulEqCmp.eq_of_compare h]
  | .string _, .block tag2 _, h => by
    rw [Shape.compare] at h
    exact absurd (Std.LawfulEqCmp.eq_of_compare h).symm (Nat.ne_of_lt tag2.isLt)
  | .block tag1 _, .string _, h => by
    rw [Shape.compare] at h
    exact absurd (Std.LawfulEqCmp.eq_of_compare h) (Nat.ne_of_lt tag1.isLt)
  | .block tag1 fields1, .block tag2 fields2, h => by
    rw [Shape.compare, Ordering.then_eq_eq, Ordering.then_eq_eq] at h
    obtain ⟨htag, -, hfields⟩ := h
    rw [Fin.ext (Std.LawfulEqCmp.eq_of_compare htag), compareFields_eq hfields]

theorem compareFields_eq : ∀ {xs ys : List Shape}, compareFields xs ys = .eq → xs = ys
  | x :: xs, y :: ys, h => by
    rw [compareFields, Ordering.then_eq_eq] at h
    rw [Shape.eq_of_compare h.1, compareFields_eq h.2]
  | [], [], _ => rfl
  | [], _ :: _, h => by cases h
  | _ :: _, [], h => by cases h

end

/-- Two comparisons one after the other, of which the first one decides unless it finds equals. -/
theorem then_lt_trans {α : Type} {cmp : α → α → Ordering} (heq : ∀ {a b}, cmp a b = .eq → a = b)
    {a b c : α} {o₁ o₂ o₃ : Ordering} (h : (cmp a b).then o₁ = .lt) (h' : (cmp b c).then o₂ = .lt)
    (hhead : cmp a b = .lt → cmp b c = .lt → cmp a c = .lt)
    (htail : o₁ = .lt → o₂ = .lt → o₃ = .lt) : (cmp a c).then o₃ = .lt := by
  rw [Ordering.then_eq_lt] at h h' ⊢
  rcases h with h | ⟨h, ho₁⟩
  · rcases h' with h' | ⟨h', -⟩
    · exact .inl (hhead h h')
    · exact .inl (heq h' ▸ h)
  · rcases h' with h' | ⟨h', ho₂⟩
    · exact .inl (heq h ▸ h')
    · exact .inr ⟨heq h ▸ h', htail ho₁ ho₂⟩

mutual

theorem Shape.compare_lt_trans : ∀ {x y z : Shape}, x.compare y = .lt → y.compare z = .lt →
    x.compare z = .lt
  | .int n1, .int n2, .int n3, h, h' => by
    rw [Shape.compare] at h h' ⊢
    exact Std.TransCmp.lt_trans h h'
  | .int _, _, .string _, _, _ | .int _, _, .block _ _, _, _ => rfl
  | .string _, .int _, _, h, _ | .block _ _, .int _, _, h, _ => by cases h
  | _, .string _, .int _, _, h | _, .block _ _, .int _, _, h => by cases h
  | .string s1, .string s2, .string s3, h, h' => by
    rw [Shape.compare] at h h' ⊢
    exact Std.TransCmp.lt_trans h h'
  | .string _, .string _, .block _ _, _, h' => by
    rw [Shape.compare] at h' ⊢
    exact h'
  | .string _, .block tag _, _, h, _ | .block _ _, .string _, .block tag _, _, h => by
    rw [Shape.compare, Nat.compare_eq_lt] at h
    exact absurd h (Nat.not_lt_of_lt tag.isLt)
  | .block _ _, .string _, .string _, h, _ => by
    rw [Shape.compare] at h ⊢
    exact h
  | .block tag1 _, .block _ _, .string _, _, _ => by
    rw [Shape.compare, Nat.compare_eq_lt]
    exact tag1.isLt
  | .block tag1 fields1, .block tag2 fields2, .block tag3 fields3, h, h' => by
    have heq : ∀ {n m : Nat}, Ord.compare n m = .eq → n = m := Std.LawfulEqCmp.eq_of_compare
    rw [Shape.compare] at h h' ⊢
    exact then_lt_trans heq h h' Std.TransCmp.lt_trans fun h h' =>
      then_lt_trans heq h h' Std.TransCmp.lt_trans compareFields_lt_trans

theorem compareFields_lt_trans : ∀ {xs ys zs : List Shape}, compareFields xs ys = .lt →
    compareFields ys zs = .lt → compareFields xs zs = .lt
  | x :: xs, y :: ys, z :: zs, h, h' => by
    rw [compareFields] at h h' ⊢
    exact then_lt_trans Shape.eq_of_compare h h' Shape.compare_lt_trans compareFields_lt_trans
  | [], _, _ :: _, _, _ => rfl
  | [], [], [], h, _ | _ :: _, [], _, h, _ => by cases h
  | _, _ :: _, [], _, h => by cases h

end

instance : Std.OrientedCmp Shape.compare where
  eq_swap := (Shape.compare_swap _ _).symm

/-- **Shapes are totally ordered.** -/
instance : Std.TransCmp Shape.compare where
  isLE_trans := by
    intro x y z h h'
    rw [Ordering.isLE_iff_eq_lt_or_eq_eq] at h h' ⊢
    rcases h with h | h
    · rcases h' with h' | h'
      · exact .inl (Shape.compare_lt_trans h h')
      · exact .inl (Shape.eq_of_compare h' ▸ h)
    · rw [Shape.eq_of_compare h]
      exact h'

instance : Std.LawfulEqCmp Shape.compare where
  compare_self := by
    intro x
    have h := Shape.compare_swap x x
    cases hc : x.compare x with
    | eq => rfl
    | lt | gt =>
      rw [hc] at h
      cases h
  eq_of_compare := Shape.eq_of_compare

theorem compareFields_append : ∀ {xs ys xs' ys' : List Shape}, xs.length = ys.length →
    compareFields (xs ++ xs') (ys ++ ys') = (compareFields xs ys).then (compareFields xs' ys')
  | [], [], _, _, _ => rfl
  | x :: xs, y :: ys, xs', ys', h => by
    rw [List.cons_append, List.cons_append, compareFields, compareFields,
      compareFields_append (Nat.succ.inj h), Ordering.then_assoc]

end TravLang.Runtime.Compare
