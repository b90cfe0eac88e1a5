import Mathlib.Init

/-!
# Computations that may fail

Fallible code is modelled in `Except`. A proof peels such a computation with two kinds of facts:
what a successful `bind` consisted of, and how a `bind` goes on once its first part is known.
-/

namespace Result

open List

variable {ε α β : Type} {b : β} {l : List α} {f : β → α → Except ε β} {I : β → Prop}

/-- A sequence succeeds exactly when both of its parts do. -/
theorem bind_eq_ok {x : Except ε α} {f : α → Except ε β} :
    (x >>= f) = .ok b ↔ ∃ a, x = .ok a ∧ f a = .ok b := by
  cases x with
  | error e => simp [bind, Except.bind]
  | ok a => simp [bind, Except.bind]

@[simp] theorem ok_bind (a : α) (f : α → Except ε β) : ((Except.ok a : Except ε α) >>= f) = f a :=
  rfl

@[simp] theorem error_bind (e : ε) (f : α → Except ε β) :
    ((Except.error e : Except ε α) >>= f) = .error e := rfl

theorem bind_ok (x : Except ε α) : (x >>= fun a => .ok a) = x := by
  cases x <;> rfl

@[simp] theorem pure_eq_ok (a : α) : (pure a : Except ε α) = .ok a := rfl

/-- A loop in which no step fails. -/
theorem foldlM_eq_ok {f : β → α → Except ε β} {g : β → α → β} (h : ∀ b a, f b a = .ok (g b a)) :
    ∀ (l : List α) (b : β), l.foldlM f b = .ok (l.foldl g b)
  | [], _ => rfl
  | a :: l, b => by
    rw [foldlM_cons, h, ok_bind, foldlM_eq_ok h l, foldl_cons]

/-- The rule of loops over a list. `I` speaks of the elements that were seen. -/
theorem foldlM_rule {I : List α → β → Prop}
    (h : ∀ done a rest b, l = done ++ a :: rest → I done b → ∃ b', f b a = .ok b' ∧
      I (done ++ [a]) b')
    (h0 : I [] b) : ∃ b', l.foldlM f b = .ok b' ∧ I l b' := by
  suffices hgen : ∀ (rest done : List α) (b : β), l = done ++ rest → I done b →
      ∃ b', rest.foldlM f b = .ok b' ∧ I l b' from hgen l [] b rfl h0
  intro rest
  induction rest with
  | nil =>
    intro done b hl hb
    rw [append_nil] at hl
    exact ⟨b, rfl, hl ▸ hb⟩
  | cons a rest ih =>
    intro done b hl hb
    obtain ⟨b', hf, hb'⟩ := h done a rest b hl hb
    rw [foldlM_cons, hf, ok_bind]
    exact ih (done ++ [a]) b' (by rw [hl, append_assoc, singleton_append]) hb'

/-- The rule of loops, for an invariant that does not speak of the elements. -/
theorem foldlM_inv (h : ∀ a ∈ l, ∀ b, I b → ∃ b', f b a = .ok b' ∧ I b') (h0 : I b) :
    ∃ b', l.foldlM f b = .ok b' ∧ I b' := by
  refine foldlM_rule (I := fun _ => I) (fun done a rest b hl hb => ?_) h0
  exact h a (hl ▸ mem_append_right _ mem_cons_self) b hb

/-- The rule of loops over the numbers from `s` on. `I i` holds before the round of `i`. -/
theorem foldlM_range' {f : β → Nat → Except ε β} {I : Nat → β → Prop} : ∀ (s n : Nat) {b : β},
    I s b → (∀ i b, s ≤ i → i < s + n → I i b → ∃ b', f b i = .ok b' ∧ I (i + 1) b') →
    ∃ b', (List.range' s n).foldlM f b = .ok b' ∧ I (s + n) b'
  | s, 0, b, h0, _ => ⟨b, rfl, h0⟩
  | s, n + 1, b, h0, hstep => by
    obtain ⟨b', hf, hb'⟩ := hstep s b (Nat.le_refl s) (by omega) h0
    obtain ⟨b'', hrun, hb''⟩ := foldlM_range' (s + 1) n hb' fun i b hi hlt =>
      hstep i b (by omega) (by omega)
    rw [List.range'_succ, foldlM_cons, hf, ok_bind, hrun]
    exact ⟨b'', rfl, by rwa [show s + (n + 1) = s + 1 + n by omega]⟩

/-- What a loop that succeeds has kept. -/
theorem foldlM_preserves {b' : β} (h : ∀ a ∈ l, ∀ b b', I b → f b a = .ok b' → I b')
    (h0 : I b) (hrun : l.foldlM f b = .ok b') :
    I b' := by
  induction l generalizing b with
  | nil => exact Except.ok.inj hrun ▸ h0
  | cons a l ih =>
    rw [foldlM_cons] at hrun
    obtain ⟨b1, hstep, hrest⟩ := bind_eq_ok.mp hrun
    exact ih (fun a' ha' => h a' (mem_cons_of_mem a ha'))
      (h a mem_cons_self b b1 h0 hstep) hrest

/-- A map in which no call fails. -/
theorem mapM_ok {f : α → Except ε β} : ∀ (l : List α), (∀ a ∈ l, ∃ b, f a = .ok b) →
    ∃ r, l.mapM f = .ok r ∧ r.length = l.length ∧
      ∀ (i : Nat) (a : α) (b : β), l[i]? = some a → r[i]? = some b → f a = .ok b
  | [], _ => ⟨[], rfl, rfl, fun i a b ha => by simp at ha⟩
  | a :: l, h => by
    obtain ⟨b, hb⟩ := h a mem_cons_self
    obtain ⟨r, hr, hlen, hget⟩ := mapM_ok l fun c hc => h c (mem_cons_of_mem _ hc)
    refine ⟨b :: r, by rw [mapM_cons, hb, ok_bind, hr]; rfl, by simp [hlen], ?_⟩
    intro i c d hc hd
    cases i with
    | zero =>
      simp only [List.getElem?_cons_zero, Option.some.injEq] at hc hd
      rw [← hc, ← hd, hb]
    | succ i =>
      rw [List.getElem?_cons_succ] at hc hd
      exact hget i c d hc hd

/-! ## Related computations -/

/-- Both succeed with related values, or both fail in the same way. -/
def Rel (R : α → β → Prop) : Except ε α → Except ε β → Prop
  | .ok a, .ok b => R a b
  | .error e, .error e' => e = e'
  | _, _ => False

section Rel

variable {α' β' : Type} {R : α → β → Prop} {S : α' → β' → Prop} {x : Except ε α} {y : Except ε β}

theorem Rel.cases (h : Rel R x y) :
    (∃ a b, x = .ok a ∧ y = .ok b ∧ R a b) ∨ ∃ e, x = .error e ∧ y = .error e := by
  cases x with
  | ok a =>
    cases y with
    | ok b => exact .inl ⟨a, b, rfl, rfl, h⟩
    | error e => exact h.elim
  | error e =>
    cases y with
    | ok b => exact h.elim
    | error e' =>
      obtain rfl : e = e' := h
      exact .inr ⟨e, rfl, rfl⟩

theorem Rel.bind {f : α → Except ε α'} {g : β → Except ε β'} (h : Rel R x y)
    (hfg : ∀ a b, R a b → Rel S (f a) (g b)) : Rel S (x >>= f) (y >>= g) := by
  rcases h.cases with ⟨a, b, rfl, rfl, hab⟩ | ⟨e, rfl, rfl⟩
  · exact hfg a b hab
  · exact rfl

/-- The same computation on both sides goes first. -/
theorem Rel.bind_same {f : α → Except ε α'} {g : α → Except ε β'}
    (hfg : ∀ a, x = .ok a → Rel S (f a) (g a)) : Rel S (x >>= f) (x >>= g) := by
  cases x with
  | ok a => exact hfg a rfl
  | error e => exact rfl

theorem Rel.mono {R' : α → β → Prop} (h : Rel R x y) (hR : ∀ a b, R a b → R' a b) : Rel R' x y := by
  rcases h.cases with ⟨a, b, rfl, rfl, hab⟩ | ⟨e, rfl, rfl⟩
  · exact hR a b hab
  · exact rfl

end Rel

end Result
