import Mathlib.Algebra.Order.BigOperators.Group.List

/-!
# Mixed-radix numbers

A list of radices, the most significant one first, and a digit below each of them.

* `value_lt`, `value_inj`, `exists_value` — digits and the numbers below the product of the radices
  correspond to each other
* `value_append` — digits of which the first ones are fixed
-/

namespace MixedRadix

open List

/-- A digit below each radix. -/
abbrev Digits (ds is : List Nat) : Prop := List.Forall₂ (· < ·) is ds

def value : List Nat → List Nat → Nat
  | _ :: ds, i :: is => i * ds.prod + value ds is
  | _, _ => 0

@[simp] theorem value_nil (is : List Nat) : value [] is = 0 := rfl

@[simp] theorem value_cons (d i : Nat) (ds is : List Nat) :
    value (d :: ds) (i :: is) = i * ds.prod + value ds is := rfl

variable {ds is : List Nat}

theorem exists_lt_of_mem (h : Digits ds is) {i : Nat} (hi : i ∈ is) : ∃ d ∈ ds, i < d := by
  induction h with
  | nil => exact absurd hi not_mem_nil
  | @cons j d _ _ hlt _ ih =>
    rcases mem_cons.mp hi with rfl | hi
    · exact ⟨d, mem_cons_self, hlt⟩
    · obtain ⟨d', hd', hlt'⟩ := ih hi
      exact ⟨d', mem_cons_of_mem d hd', hlt'⟩

theorem value_lt (h : Digits ds is) : value ds is < ds.prod := by
  induction h with
  | nil => exact Nat.zero_lt_one
  | @cons i d is ds hi _ ih =>
    rw [value, prod_cons]
    calc i * ds.prod + value ds is < i * ds.prod + ds.prod := Nat.add_lt_add_left ih _
      _ = (i + 1) * ds.prod := (Nat.succ_mul i ds.prod).symm
      _ ≤ d * ds.prod := Nat.mul_le_mul_right _ hi

theorem value_inj (h : Digits ds is) {is' : List Nat} (h' : Digits ds is')
    (heq : value ds is = value ds is') : is = is' := by
  induction h generalizing is' with
  | nil =>
    cases h'
    rfl
  | @cons i d is ds _ hs ih =>
    cases h' with
    | @cons i' _ is' _ _ hs' =>
      rw [value, value] at heq
      have hlt := value_lt hs
      have hlt' := value_lt hs'
      have hdiv : ∀ (a b : Nat), b < ds.prod → (a * ds.prod + b) / ds.prod = a := by
        intro a b hb
        rw [Nat.mul_comm, Nat.mul_add_div (Nat.zero_lt_of_lt hb), Nat.div_eq_of_lt hb, Nat.add_zero]
      have hi : i = i' := by
        rw [← hdiv i _ hlt, heq, hdiv i' _ hlt']
      subst hi
      rw [ih hs' (Nat.add_left_cancel heq)]

theorem exists_value : ∀ {ds : List Nat} {n : Nat}, n < ds.prod →
    ∃ is, Digits ds is ∧ value ds is = n
  | [], n, h => ⟨[], .nil, (Nat.lt_one_iff.mp h).symm⟩
  | d :: ds, n, h => by
    rw [prod_cons] at h
    have hpos : 0 < ds.prod := Nat.pos_of_ne_zero fun hz => by
      rw [hz, Nat.mul_zero] at h
      exact Nat.not_lt_zero n h
    obtain ⟨is, his, hval⟩ := exists_value (Nat.mod_lt n hpos)
    refine ⟨n / ds.prod :: is, .cons (Nat.div_lt_of_lt_mul (Nat.mul_comm d _ ▸ h)) his, ?_⟩
    rw [value, hval, Nat.div_add_mod']

theorem of_append : ∀ {is is' ds : List Nat}, Digits ds (is ++ is') →
    Digits (ds.take is.length) is ∧ Digits (ds.drop is.length) is'
  | [], _, _, h => ⟨.nil, h⟩
  | _ :: _, _, _ :: _, .cons hi h => ⟨.cons hi (of_append h).1, (of_append h).2⟩

theorem value_replicate_zero : ∀ (ds : List Nat) (n : Nat), value ds (List.replicate n 0) = 0
  | [], n => rfl
  | _ :: _, 0 => rfl
  | _ :: ds, n + 1 => by
    rw [replicate_succ, value_cons, value_replicate_zero ds n, Nat.zero_mul]

theorem value_append (h : Digits ds is) (ds' is' : List Nat) :
    value (ds ++ ds') (is ++ is') = value ds is * ds'.prod + value ds' is' := by
  induction h with
  | nil =>
    show value ds' is' = 0 * ds'.prod + value ds' is'
    rw [Nat.zero_mul, Nat.zero_add]
  | cons _ _ ih =>
    rw [cons_append, cons_append, value, ih, value, prod_append, Nat.add_mul,
      Nat.mul_assoc, Nat.add_assoc]

end MixedRadix
