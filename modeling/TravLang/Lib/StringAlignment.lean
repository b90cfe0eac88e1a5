import Mathlib.Algebra.Ring.Nat
import Mathlib.Order.Lattice.Nat

/-!
# The optimal string alignment distance

A script turns one word into another, from the left to the right, by keeping, replacing, inserting
and deleting letters and by swapping two adjacent ones; no letter is edited twice. The distance of
two words is the least number of edits. A table of distances may be exact up to a bound only: the
usual recurrence holds for such entries too.
-/

namespace StringAlignment

open List

variable {α : Type} {a b : List α} {n : Nat} {x y : α} {c v vDelete vInsert vAlign : Int}

inductive Edit (α : Type) where
  | keep (x : α)
  | substitute (x y : α)
  | insert (y : α)
  | delete (x : α)
  | swap (x y : α)

namespace Edit

def source : Edit α → List α
  | keep x => [x]
  | substitute x _ => [x]
  | insert _ => []
  | delete x => [x]
  | swap x y => [x, y]

def target : Edit α → List α
  | keep x => [x]
  | substitute _ y => [y]
  | insert y => [y]
  | delete _ => []
  | swap x y => [y, x]

def cost : Edit α → Nat
  | keep _ => 0
  | substitute _ _ | insert _ | delete _ | swap _ _ => 1

end Edit

/-- `n` edits turn `a` into `b`. -/
def Turns (a b : List α) (n : Nat) : Prop :=
  ∃ s : List (Edit α), s.flatMap Edit.source = a ∧ s.flatMap Edit.target = b ∧
    (s.map Edit.cost).sum = n

theorem turns_nil : Turns ([] : List α) [] 0 := ⟨[], rfl, rfl, rfl⟩

theorem Turns.concat (h : Turns a b n) (e : Edit α) :
    Turns (a ++ e.source) (b ++ e.target) (n + e.cost) := by
  obtain ⟨s, rfl, rfl, rfl⟩ := h
  exact ⟨s ++ [e], by simp, by simp, by simp⟩

/-- The last edit -/
theorem Turns.cases (h : Turns a b n) : (a = [] ∧ b = [] ∧ n = 0) ∨
    ∃ (e : Edit α) (a' b' : List α) (n' : Nat),
      Turns a' b' n' ∧ a = a' ++ e.source ∧ b = b' ++ e.target ∧ n = n' + e.cost := by
  obtain ⟨s, rfl, rfl, rfl⟩ := h
  rcases eq_nil_or_concat s with rfl | ⟨s, e, rfl⟩
  · exact .inl ⟨rfl, rfl, rfl⟩
  · exact .inr ⟨e, _, _, _, ⟨s, rfl, rfl, rfl⟩, by simp, by simp, by simp⟩

theorem Turns.length_le (h : Turns a b n) : a.length ≤ b.length + n ∧ b.length ≤ a.length + n := by
  obtain ⟨s, rfl, rfl, rfl⟩ := h
  induction s with
  | nil => simp
  | cons e s ih =>
    simp only [flatMap_cons, length_append, map_cons, sum_cons]
    cases e <;> simp only [Edit.source, Edit.target, Edit.cost, length_cons, length_nil] <;>
      omega

theorem turns_insert (b : List α) : Turns [] b b.length := by
  induction b using List.reverseRecOn with
  | nil => exact turns_nil
  | append_singleton b y ih =>
    simpa [Edit.source, Edit.target, Edit.cost] using ih.concat (.insert y)

theorem turns_delete (a : List α) : Turns a [] a.length := by
  induction a using List.reverseRecOn with
  | nil => exact turns_nil
  | append_singleton a x ih =>
    simpa [Edit.source, Edit.target, Edit.cost] using ih.concat (.delete x)

/-- There are never more edits to make than letters in the longer word. -/
theorem exists_turns (a b : List α) : ∃ n ≤ max a.length b.length, Turns a b n := by
  induction a using List.reverseRecOn generalizing b with
  | nil => exact ⟨b.length, by simp, turns_insert b⟩
  | append_singleton a x ih =>
    rcases eq_nil_or_concat b with rfl | ⟨b, y, hb⟩
    · exact ⟨_, by simp, turns_delete _⟩
    · obtain ⟨n, hn, h⟩ := ih b
      rw [hb, concat_eq_append]
      refine ⟨n + 1, ?_, h.concat (.substitute x y)⟩
      simp only [length_append, length_singleton]
      omega

/-- The least number of edits -/
noncomputable def distance (a b : List α) : Nat := sInf {n | Turns a b n}

theorem turns_distance (a b : List α) : Turns a b (distance a b) := by
  obtain ⟨n, _, h⟩ := exists_turns a b
  exact Nat.sInf_mem (s := {n | Turns a b n}) ⟨n, h⟩

theorem Turns.distance_le (h : Turns a b n) : distance a b ≤ n := Nat.sInf_le h

theorem distance_le_max (a b : List α) : distance a b ≤ max a.length b.length := by
  obtain ⟨n, hn, h⟩ := exists_turns a b
  exact Nat.le_trans h.distance_le hn

/-! ## The recurrence -/

section

variable [DecidableEq α]

def mismatch (x y : α) : Nat := if x = y then 0 else 1

theorem Turns.align (h : Turns a b n) (x y : α) :
    Turns (a ++ [x]) (b ++ [y]) (n + mismatch x y) := by
  unfold mismatch
  split
  · next hxy =>
    subst hxy
    exact h.concat (.keep x)
  · exact h.concat (.substitute x y)

/-- A swap, which costs nothing if the letters are the same. -/
theorem Turns.swap (h : Turns a b n) (x y : α) :
    Turns (a ++ [y] ++ [x]) (b ++ [x] ++ [y]) (n + mismatch x y) := by
  unfold mismatch
  split
  · next hxy =>
    subst hxy
    exact (h.concat (.keep x)).concat (.keep x)
  · rw [append_assoc, append_assoc]
    exact h.concat (.swap y x)

/-- What is left to do before the last edit of two words that are not empty -/
theorem Turns.concat_cases (h : Turns (a ++ [x]) (b ++ [y]) n) :
    (∃ n', Turns a (b ++ [y]) n' ∧ n' + 1 ≤ n) ∨ (∃ n', Turns (a ++ [x]) b n' ∧ n' + 1 ≤ n) ∨
    (∃ n', Turns a b n' ∧ n' + mismatch x y ≤ n) ∨
    ∃ a' b' n', a = a' ++ [y] ∧ b = b' ++ [x] ∧ Turns a' b' n' ∧ n' + mismatch x y ≤ n := by
  have hone : mismatch x y ≤ 1 := by
    unfold mismatch
    split <;> omega
  rcases h.cases with ⟨ha, _, _⟩ | ⟨e, a', b', n', h', ha, hb, hn⟩
  · simp at ha
  · cases e with
    | keep z =>
      obtain ⟨rfl, hx⟩ := List.append_inj' ha rfl
      obtain ⟨rfl, hy⟩ := List.append_inj' hb rfl
      cases hx
      cases hy
      exact .inr (.inr (.inl ⟨n', h', by simp [mismatch, hn, Edit.cost]⟩))
    | substitute z w =>
      obtain ⟨rfl, _⟩ := List.append_inj' ha rfl
      obtain ⟨rfl, _⟩ := List.append_inj' hb rfl
      exact .inr (.inr (.inl ⟨n', h', by rw [hn, Edit.cost]; omega⟩))
    | insert w =>
      obtain ⟨rfl, _⟩ := List.append_inj' hb rfl
      rw [Edit.source, append_nil] at ha
      exact .inr (.inl ⟨n', ha ▸ h', by rw [hn, Edit.cost]⟩)
    | delete z =>
      obtain ⟨rfl, _⟩ := List.append_inj' ha rfl
      rw [Edit.target, append_nil] at hb
      exact .inl ⟨n', hb ▸ h', by rw [hn, Edit.cost]⟩
    | swap z w =>
      have ha' : a ++ [x] = (a' ++ [z]) ++ [w] := by rw [ha, append_assoc]; rfl
      have hb' : b ++ [y] = (b' ++ [w]) ++ [z] := by rw [hb, append_assoc]; rfl
      obtain ⟨hza, hw⟩ := List.append_inj' ha' rfl
      obtain ⟨hwb, hz⟩ := List.append_inj' hb' rfl
      cases hw
      cases hz
      exact .inr (.inr (.inr ⟨a', b', n', hza, hwb, h', by rw [hn, Edit.cost]; omega⟩))

end

/-! ## Tables -/

/-- The entry `v` of a table that is exact up to `c` -/
structure Entry (c : Int) (a b : List α) (v : Int) : Prop where
  reached : v ≤ c → ∃ n : Nat, v = n ∧ Turns a b n
  le : ∀ n : Nat, n ≤ c → Turns a b n → v ≤ n

theorem entry_nil_left (b : List α) : Entry c [] b b.length := by
  refine ⟨fun _ => ⟨_, rfl, turns_insert b⟩, fun n _ h => ?_⟩
  have := h.length_le.2
  rw [length_nil] at this
  omega

theorem entry_nil_right (a : List α) : Entry c a [] a.length := by
  refine ⟨fun _ => ⟨_, rfl, turns_delete a⟩, fun n _ h => ?_⟩
  have := h.length_le.1
  rw [length_nil] at this
  omega

/-- Words of very different lengths are too far from each other. -/
theorem entry_far (h : b.length + c < a.length ∨ a.length + c < b.length) :
    Entry c a b (c + 1) := by
  refine ⟨fun hv => by omega, fun n hn hturns => ?_⟩
  have := hturns.length_le
  omega

/-- **The recurrence**: the least of the costs of the possible last edits -/
theorem Entry.concat [DecidableEq α] (hdelete : Entry c a (b ++ [y]) vDelete)
    (hinsert : Entry c (a ++ [x]) b vInsert) (halign : Entry c a b vAlign)
    (hle : v ≤ vDelete + 1 ∧ v ≤ vInsert + 1 ∧ v ≤ vAlign + mismatch x y)
    (hswap : ∀ a' b', a = a' ++ [y] → b = b' ++ [x] →
      ∃ w, Entry c a' b' w ∧ v ≤ w + mismatch x y)
    (hv : v = vDelete + 1 ∨ v = vInsert + 1 ∨ v = vAlign + mismatch x y ∨
      ∃ a' b' w, a = a' ++ [y] ∧ b = b' ++ [x] ∧ Entry c a' b' w ∧ v = w + mismatch x y) :
    Entry c (a ++ [x]) (b ++ [y]) v := by
  constructor
  · intro hvc
    rcases hv with hv | hv | hv | ⟨a', b', w, rfl, rfl, hw, hv⟩
    · obtain ⟨n, hn, h⟩ := hdelete.reached (by omega)
      have hturns := h.concat (.delete x)
      rw [Edit.target, append_nil] at hturns
      exact ⟨n + 1, by omega, hturns⟩
    · obtain ⟨n, hn, h⟩ := hinsert.reached (by omega)
      have hturns := h.concat (.insert y)
      rw [Edit.source, append_nil] at hturns
      exact ⟨n + 1, by omega, hturns⟩
    · obtain ⟨n, hn, h⟩ := halign.reached (by omega)
      exact ⟨n + mismatch x y, by omega, h.align x y⟩
    · obtain ⟨n, hn, h⟩ := hw.reached (by omega)
      exact ⟨n + mismatch x y, by omega, h.swap x y⟩
  · intro n hn h
    rcases h.concat_cases with ⟨m, h, hm⟩ | ⟨m, h, hm⟩ | ⟨m, h, hm⟩ | ⟨a', b', m, ha, hb, h, hm⟩
    · have := hdelete.le m (by omega) h
      omega
    · have := hinsert.le m (by omega) h
      omega
    · have := halign.le m (by omega) h
      omega
    · obtain ⟨w, hw, hle'⟩ := hswap a' b' ha hb
      have := hw.le m (by omega) h
      omega

/-- What an entry says about the distance -/
theorem Entry.eq_distance (h : Entry c a b v) (hv : v ≤ c) : v = distance a b := by
  obtain ⟨n, hn, hturns⟩ := h.reached hv
  have hle := hturns.distance_le
  have := h.le (distance a b) (by omega) (turns_distance a b)
  omega

theorem Entry.lt_distance (h : Entry c a b v) (hv : c < v) : c < distance a b := by
  by_contra hd
  have := h.le (distance a b) (by omega) (turns_distance a b)
  omega

end StringAlignment
