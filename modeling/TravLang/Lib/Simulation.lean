import Mathlib.Logic.Relation

/-!
# Deterministic machines and simulation

A machine is a step function: from a state it goes on to another state, or halts with a result. A
simulation relates the states of a machine to those of another one that takes smaller steps, up to
results that are excused. It carries halting over in both directions: a rank excludes that the
first machine stutters forever.
-/

namespace Machine

variable {σ τ ρ : Type}

/-- The result after at most `n` steps. -/
def run (step : σ → σ ⊕ ρ) : Nat → σ → Option ρ
  | 0, _ => none
  | n + 1, s =>
    match step s with
    | .inl s' => run step n s'
    | .inr r => some r

def Halts (step : σ → σ ⊕ ρ) (s : σ) (r : ρ) : Prop := ∃ n, run step n s = some r

/-- One step or more. -/
def Reaches (step : σ → σ ⊕ ρ) : σ → σ → Prop :=
  Relation.TransGen fun s s' => step s = .inl s'

section Halts

variable {step : σ → σ ⊕ ρ} {s s' : σ} {r r' : ρ}

theorem run_succ_of_inl (h : step s = .inl s') (n : Nat) : run step (n + 1) s = run step n s' := by
  rw [run, h]

/-- More steps than needed do no harm. -/
theorem run_mono {n m : Nat} (h : run step n s = some r) (hnm : n ≤ m) : run step m s = some r := by
  induction n generalizing s m with
  | zero => cases h
  | succ n ih =>
    obtain ⟨m, rfl⟩ : ∃ k, m = k + 1 := ⟨m - 1, by omega⟩
    rw [run] at h ⊢
    cases hs : step s with
    | inl s' =>
      rw [hs] at h
      exact ih h (Nat.le_of_succ_le_succ hnm)
    | inr q =>
      rw [hs] at h
      exact h

theorem halts_of_inr (h : step s = .inr r) : Halts step s r := by
  refine ⟨1, ?_⟩
  rw [run, h]

theorem halts_of_inl (h : step s = .inl s') : Halts step s' r → Halts step s r := by
  rintro ⟨n, hn⟩
  exact ⟨n + 1, by rw [run_succ_of_inl h, hn]⟩

theorem halts_of_reaches (h : Reaches step s s') : Halts step s' r → Halts step s r := by
  induction h using Relation.TransGen.head_induction_on with
  | single h => exact halts_of_inl h
  | head h _ ih => exact fun hr => halts_of_inl h (ih hr)

/-- A state that is reached is closer to the result. -/
theorem run_of_reaches (h : Reaches step s s') :
    ∀ {n : Nat}, run step n s = some r → ∃ m, m < n ∧ run step m s' = some r := by
  have hstep : ∀ {a b : σ} {n : Nat}, step a = .inl b → run step n a = some r →
      ∃ m, m < n ∧ run step m b = some r := by
    intro a b n hab hn
    cases n with
    | zero => cases hn
    | succ n => exact ⟨n, Nat.lt_succ_self n, by rwa [run_succ_of_inl hab] at hn⟩
  induction h using Relation.TransGen.head_induction_on with
  | single h => exact hstep h
  | head h _ ih =>
    intro n hn
    obtain ⟨m, hm, hrun⟩ := hstep h hn
    obtain ⟨k, hk, hrun'⟩ := ih hrun
    exact ⟨k, Nat.lt_trans hk hm, hrun'⟩

/-- What comes after a state depends on its step only. -/
theorem halts_congr (h : step s = step s') : Halts step s r ↔ Halts step s' r := by
  have hrun : ∀ n, run step n s = run step n s' := by
    intro n
    cases n with
    | zero => rfl
    | succ n => rw [run, run, h]
  exact exists_congr fun n => by rw [hrun]

theorem reaches_congr {u : σ} (h : step s = step s') : Reaches step s u ↔ Reaches step s' u := by
  unfold Reaches
  rw [Relation.TransGen.head'_iff, Relation.TransGen.head'_iff, h]

theorem Halts.unique (h : Halts step s r) (h' : Halts step s r') : r = r' := by
  obtain ⟨n, hn⟩ := h
  obtain ⟨m, hm⟩ := h'
  induction n generalizing s m with
  | zero => cases hn
  | succ n ih =>
    cases m with
    | zero => cases hm
    | succ m =>
      rw [run] at hn hm
      cases hs : step s with
      | inl s' =>
        rw [hs] at hn hm
        exact ih hn m hm
      | inr q =>
        rw [hs] at hn hm
        exact Option.some.inj (hn.symm.trans hm)

end Halts

/-! ## Simulation -/

/-- Each step of the first machine is matched by steps of the second one, or lowers the rank. A
result of the first machine is a result of the second one, unless it is excused. -/
structure Simulation (step : σ → σ ⊕ ρ) (fine : τ → τ ⊕ ρ) (R : σ → τ → Prop)
    (excused : ρ → Prop) (rank : σ → Nat) : Prop where
  advance : ∀ {s s' : σ} {t : τ}, R s t → step s = .inl s' →
    ∃ t', R s' t' ∧ (t' = t ∧ rank s' < rank s ∨ Reaches fine t t')
  halt : ∀ {s : σ} {t : τ} {r : ρ}, R s t → step s = .inr r → excused r ∨ Halts fine t r

section Simulation

variable {step : σ → σ ⊕ ρ} {fine : τ → τ ⊕ ρ} {R : σ → τ → Prop} {excused : ρ → Prop}
  {rank : σ → Nat} {t : τ}

/-- A result of the first machine. -/
theorem Simulation.forward (sim : Simulation step fine R excused rank) {s : σ} {r : ρ}
    (hR : R s t) : Halts step s r → excused r ∨ Halts fine t r := by
  rintro ⟨n, hn⟩
  induction n generalizing s t with
  | zero => cases hn
  | succ n ih =>
    cases hs : step s with
    | inr r' =>
      rw [run, hs, Option.some.injEq] at hn
      subst hn
      exact sim.halt hR hs
    | inl s' =>
      rw [run_succ_of_inl hs] at hn
      obtain ⟨t', hR', hreach⟩ := sim.advance hR hs
      rcases ih hR' hn with he | hhalt
      · exact .inl he
      · rcases hreach with ⟨rfl, -⟩ | hreach
        · exact .inr hhalt
        · exact .inr (halts_of_reaches hreach hhalt)

/-- A result of the second machine: the induction is on the number of its steps, and on the rank
where the first machine stutters. -/
theorem Simulation.backward (sim : Simulation step fine R excused rank) {s : σ} {r : ρ}
    (hR : R s t) (h : Halts fine t r) : ∃ r', Halts step s r' ∧ (excused r' ∨ r' = r) := by
  obtain ⟨n, hn⟩ := h
  induction n using Nat.strongRecOn generalizing s t with
  | _ n ih =>
    induction hk : rank s using Nat.strongRecOn generalizing s with
    | _ k ihk =>
      cases hs : step s with
      | inr r' => exact ⟨r', halts_of_inr hs, (sim.halt hR hs).imp_right fun h => h.unique ⟨n, hn⟩⟩
      | inl s' =>
        obtain ⟨t', hR', ⟨rfl, hrank⟩ | hreach⟩ := sim.advance hR hs
        · obtain ⟨r', hhalt, hr'⟩ := ihk (rank s') (hk ▸ hrank) hR' rfl
          exact ⟨r', halts_of_inl hs hhalt, hr'⟩
        · obtain ⟨m, hm, hrun⟩ := run_of_reaches hreach hn
          obtain ⟨r', hhalt, hr'⟩ := ih m hm hR' hrun
          exact ⟨r', halts_of_inl hs hhalt, hr'⟩

/-- Two machines that simulate the same one have the same results, if none of them is excused. -/
theorem Simulation.halts_iff {σ' : Type} {step' : σ' → σ' ⊕ ρ} {R' : σ' → τ → Prop}
    {excused' : ρ → Prop} {rank' : σ' → Nat} (sim : Simulation step fine R excused rank)
    (sim' : Simulation step' fine R' excused' rank') {s : σ} {s' : σ'} (hR : R s t)
    (hR' : R' s' t) (hs : ∀ r, Halts step s r → ¬ excused r)
    (hs' : ∀ r, Halts step' s' r → ¬ excused' r) (r : ρ) : Halts step s r ↔ Halts step' s' r := by
  constructor
  · intro h
    have hfine := (sim.forward hR h).resolve_left (hs r h)
    obtain ⟨r', hr', hexc | rfl⟩ := sim'.backward hR' hfine
    · exact absurd hexc (hs' r' hr')
    · exact hr'
  · intro h
    have hfine := (sim'.forward hR' h).resolve_left (hs' r h)
    obtain ⟨r', hr', hexc | rfl⟩ := sim.backward hR hfine
    · exact absurd hexc (hs r' hr')
    · exact hr'

end Simulation

end Machine
