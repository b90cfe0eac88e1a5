import TravLang.Runtime.Marshal.Writing

/-!
# The writer comes to its end

With sharing, each block is written once; the fields of the blocks that have not been written yet
bound what is left to do.
-/

namespace TravLang.Runtime.Marshal

open List

variable {D : Type} {w : Host} {flags : Flags} {heap : Heap (Custom D)} {em : List Nat}
  {o : Obj Value (Custom D)} {v : Value}

/-- The writer comes to its end if some number goes down with each of its rounds. -/
theorem exists_halts {R : Nat → List Nat → List Value → Prop}
    (hobjs : ∀ a o, heap.get a = some o → ObjOk w heap o)
    (hR : ∀ {k em v rest items em' vs}, R k em (v :: rest) → Emit w flags heap em v items em' vs →
      ∃ k' < k, R k' em' (vs ++ rest)) (k : Nat) :
    ∀ {em : List Nat} {s : ExternState} {v : Value} {stack : List (List Value)},
      R k em (v :: stack.flatten) → Written w flags s em →
      (∀ u ∈ v :: stack.flatten, ValueOk w heap u) →
      ∃ r, Machine.Halts (externStep w flags heap) (s, v, stack) r := by
  induction k using Nat.strongRecOn with
  | _ k ih =>
  intro em s v stack hk hs hvs
  have hround := externItem_ok stack hs (hvs v mem_cons_self) hobjs
  cases hitem : externItem w flags heap s stack v with
  | error e => exact ⟨.error e, Machine.halts_of_inr (by simp only [externStep, hitem])⟩
  | ok p =>
    obtain ⟨s₁, next⟩ := p
    rw [hitem] at hround
    obtain ⟨items, em₁, vs, hemit, -, hwritten, hpending⟩ := hround
    obtain ⟨k', hlt, hk'⟩ := hR hk hemit
    rw [← hpending] at hk'
    have hpend : ∀ u ∈ next.pending, ValueOk w heap u := hpending ▸ hemit.valueOk hobjs hvs
    cases next with
    | value v' stack' =>
      obtain ⟨r, hr⟩ := ih k' hlt hk' hwritten hpend
      exact ⟨r, Machine.halts_of_inl (by simp only [externStep, hitem]) hr⟩
    | nextItem stack' =>
      cases hpop : popItem stack' with
      | none => exact ⟨.ok s₁, Machine.halts_of_inr (by simp only [externStep, hitem, hpop])⟩
      | some p =>
        obtain ⟨v', stack''⟩ := p
        have hnext : (Next.nextItem stack').pending = v' :: stack''.flatten :=
          popItem_some stack' hpop
        rw [hnext] at hk' hpend
        obtain ⟨r, hr⟩ := ih k' hlt hk' hwritten hpend
        exact ⟨r, Machine.halts_of_inl (by simp only [externStep, hitem, hpop]) hr⟩

/-! ## With sharing -/

/-- Two rounds at most for a value: the first one skips a forwarding block. -/
def weight (heap : Heap (Custom D)) : Value → Nat
  | .block a => if ((heap.get a).bind (shortCircuit heap)).isSome then 2 else 1
  | _ => 1

/-- The rounds for the blocks of a heap that have not been written. -/
def unwritten (em : List Nat) : Heap (Custom D) → Nat
  | [] => 0
  | (a, o) :: heap => (if a ∈ em then 0 else 2 * o.fields.length + 1) + unwritten em heap

theorem weight_le (heap : Heap (Custom D)) (v : Value) : weight heap v ≤ 2 := by
  unfold weight
  split
  · split <;> omega
  · omega

theorem weight_pos (heap : Heap (Custom D)) (v : Value) : 1 ≤ weight heap v := by
  unfold weight
  split
  · split <;> omega
  · omega

theorem sum_weight_le (heap : Heap (Custom D)) (vs : List Value) :
    (vs.map (weight heap)).sum ≤ 2 * vs.length := by
  induction vs with
  | nil => exact Nat.le_refl 0
  | cons v vs ih =>
    have := weight_le heap v
    rw [map_cons, sum_cons, length_cons]
    omega

theorem unwritten_mono (em : List Nat) (a : Nat) : ∀ heap : Heap (Custom D),
    unwritten (em ++ [a]) heap ≤ unwritten em heap
  | [] => Nat.le_refl 0
  | (b, o) :: heap => by
    have ih := unwritten_mono em a heap
    rw [unwritten, unwritten]
    by_cases hb : b ∈ em
    · rw [if_pos hb, if_pos (mem_append_left _ hb)]
      omega
    · rw [if_neg hb]
      split <;> omega

/-- A block that is written is not counted any more. -/
theorem unwritten_append {a : Nat} (ha : a ∉ em) :
    ∀ {heap : Heap (Custom D)}, heap.lookup a = some o →
      unwritten (em ++ [a]) heap + (2 * o.fields.length + 1) ≤ unwritten em heap
  | (b, x) :: heap, h => by
    have hm := unwritten_mono em a heap
    rw [unwritten, unwritten]
    by_cases hab : a = b
    · subst hab
      rw [lookup_cons_self, Option.some.injEq] at h
      subst h
      rw [if_pos (by simp), if_neg ha]
      omega
    · rw [lookup_cons, beq_false_of_ne hab] at h
      have ih := unwritten_append ha h
      have hsame : (b ∈ em ++ [a]) ↔ b ∈ em := by
        rw [mem_append, mem_singleton]
        exact ⟨fun h => h.resolve_right fun hba => hab hba.symm, .inl⟩
      simp only [hsame]
      omega

/-- The target of a forwarding block is not one itself. -/
theorem shortCircuit_target {f : Value}
    (h : shortCircuit heap o = some f) : weight heap f = 1 := by
  unfold shortCircuit at h
  split at h
  · split at h
    · next hfwd =>
      cases h
      cases f with
      | block b =>
        rw [weight, if_neg]
        intro hsome
        obtain ⟨u, hu⟩ := Option.isSome_iff_exists.mp hsome
        obtain ⟨x, hx, hxu⟩ := Option.bind_eq_some_iff.mp hu
        -- a block that is skipped has the tag of forwarding blocks
        unfold shortCircuit at hxu
        split at hxu
        · split at hxu
          · next hx' =>
            apply hfwd.2
            rw [Heap.tagVal, hx, Option.map_some, Obj.tag, hx'.1]
            exact mem_cons_self
          · cases hxu
        · cases hxu
      | _ => rfl
    · cases h
  · cases h

/-- Each round with sharing lowers the number of rounds that are left. -/
theorem Emit.rounds_lt (hsharing : flags.noSharing = false) {items : List (Item D)}
    {em' : List Nat} {vs rest : List Value} (h : Emit w flags heap em v items em' vs) :
    unwritten em' heap + ((vs ++ rest).map (weight heap)).sum <
      unwritten em heap + ((v :: rest).map (weight heap)).sum := by
  have hv := weight_pos heap v
  rw [map_append, sum_append, map_cons, sum_cons]
  cases h with
  | @forward a o f hget hforward =>
    have htwo : weight heap (.block a) = 2 := by
      rw [weight, hget, Option.bind_some, hforward]
      rfl
    rw [map_singleton, sum_singleton, shortCircuit_target hforward, htwo]
    omega
  | @fresh a o item hget hforward hsize hnew hitem =>
    have hdrop := unwritten_append (hnew hsharing) hget
    have hfields := sum_weight_le heap o.fields
    omega
  | _ =>
    rw [map_nil, sum_nil]
    omega

/-- **With sharing, the writer comes to its end.** -/
theorem exists_halts_sharing (hsharing : flags.noSharing = false)
    (hobjs : ∀ a o, heap.get a = some o → ObjOk w heap o) {s : ExternState}
    (hs : Written w flags s em) (hv : ValueOk w heap v) :
    ∃ r, Machine.Halts (externStep w flags heap) (s, v, []) r := by
  refine exists_halts
    (R := fun k em vs => k = unwritten em heap + (vs.map (weight heap)).sum) hobjs ?_ _ rfl hs
    (by simpa using hv)
  rintro k em v rest items em' vs rfl hemit
  exact ⟨_, hemit.rounds_lt hsharing, rfl⟩

end TravLang.Runtime.Marshal
