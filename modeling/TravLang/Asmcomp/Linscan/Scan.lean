import TravLang.Asmcomp.Linscan.Allocation

/-!
# The scan

The two ways to find a register, and the walk through all intervals.
-/

namespace TravLang.Linscan

open TravLang.Asmcomp List Result Function
open TravLang.Interval (Sorted Covers overlapRanges_iff)
open Map (PhysEq)

variable {proc : Proc} {table : Int → Interval.T} {intervals fixed done : List Int} {pos i : Int}
  {st : State proc} {cl : Fin proc.numRegisterClasses} {e ilast : Elt}

/-! ## Stack slots -/

/-- The slot `ss` of a class is taken: a free one, or else a new one. -/
def TakesSlot (cl : Fin proc.numRegisterClasses) (free : Set.T Nat)
    (num : Fin proc.numRegisterClasses → Nat) (ss : Nat) (free' : Set.T Nat)
    (num' : Fin proc.numRegisterClasses → Nat) : Prop :=
  (ss ∈ free.toList ∧ num' = num ∧ ∀ s, s ∈ free'.toList ↔ s ∈ free.toList ∧ s ≠ ss) ∨
    (ss = num cl ∧ num' = update num cl (ss + 1) ∧ free' = free)

/-- `allocate_stack_slot` only changes the location of the interval, and the slots of its class. -/
theorem allocateStackSlot_eq (phys : PhysEq) (st : State proc) (i : Int)
    (hcl : registerClass st i = cl) (hfree : Set.WellFormed slotCompare (st.active cl).freeSlots)
    (hspilled : Set.WellFormed compare (st.active cl).spilled) :
    ∃ ss freeSlots spilled num,
      allocateStackSlot phys st i = .ok (st.relocate i (.stack (.local ss)) true cl
        { st.active cl with freeSlots, spilled } num) ∧
      Set.WellFormed slotCompare freeSlots ∧ Set.WellFormed compare spilled ∧
      (∀ e, e ∈ spilled.toList ↔ e = st.elt i ∨ e ∈ (st.active cl).spilled.toList) ∧
      TakesSlot cl (st.active cl).freeSlots st.numStackSlots ss freeSlots num := by
  obtain ⟨spilled, hadd, hwf, hmem⟩ := ofSet_gives
    (Set.add_gives totalOrder_compare (phys.sub 1) (st.elt i) hspilled)
  unfold allocateStackSlot
  dsimp only
  rw [hcl]
  cases hmin : Set.minEltOpt (st.active cl).freeSlots with
  | some ss =>
    obtain ⟨freeSlots, hremove, hwff, hmemf⟩ := ofSet_gives
      (Set.remove_gives totalOrder_slotCompare (phys.sub 0) ss hfree)
    refine ⟨ss, freeSlots, spilled, st.numStackSlots, ?_, hwff, hwf, hmem,
      .inl ⟨Set.minEltOpt_mem hmin, rfl, hmemf⟩⟩
    simp only [hremove, ok_bind, hadd, pure_eq_ok]
    rfl
  | none =>
    refine ⟨st.numStackSlots cl, (st.active cl).freeSlots, spilled,
      update st.numStackSlots cl (st.numStackSlots cl + 1), ?_, hfree, hwf, hmem,
      .inr ⟨rfl, rfl, rfl⟩⟩
    simp only [ok_bind, hadd, pure_eq_ok]
    rfl

/-- The current interval goes to the stack. -/
theorem allocateStackSlot_spec (phys : PhysEq) (h : Inv proc table intervals fixed done pos st)
    (hp : Problem proc table intervals fixed) (hi : i ∈ intervals) (hnew : i ∉ done) :
    ∃ st', allocateStackSlot phys st i = .ok st' ∧
      Inv proc table intervals fixed (done ++ [i]) pos st' := by
  have hok := h.classOk (classOf proc table i)
  have hwalked : ∀ e, (e ∈ (st.active (classOf proc table i)).active.toList ∨
      e ∈ (st.active (classOf proc table i)).inactive.toList) → e.stamp ≠ i := fun e he heq =>
    hnew (heq ▸ (hok.walkedMem e he).1.1)
  obtain ⟨ss, freeSlots, spilled, num, hrun, hwff, hwfs, hmem, -⟩ :=
    allocateStackSlot_eq phys st i (h.registerClass_eq i) hok.wfFree hok.wfSpilled
  have hspills : Spills table i (st.active (classOf proc table i))
      { st.active (classOf proc table i) with freeSlots, spilled } := by
    refine ⟨rfl, rfl, hok.wfActive, hwfs, hwff, fun e => ?_, fun e => ?_,
      fun e he => hwalked e (.inr he)⟩
    · exact ⟨fun he => ⟨he, hwalked e (.inl he)⟩, And.left⟩
    · rw [hmem, h.elt_eq]
  exact ⟨_, hrun, h.spill hp hi (fun x => by simp) hspills ss true num⟩

/-! ## The register mask -/

/-- The registers that satisfy `taken` are not in the mask. -/
structure Masked (rn : Nat) (taken : Nat → Prop) (mask : List Bool) : Prop where
  length : mask.length = rn
  out : ∀ k, taken k → mask[k]? ≠ some true

section Mask

variable {rn : Nat} {taken : Nat → Prop} {mask : List Bool}

theorem Masked.start (rn : Nat) : Masked rn (fun _ => False) (List.replicate rn true) :=
  ⟨length_replicate, fun _ h => h.elim⟩

section

variable (h : Masked rn taken mask)

include h

theorem Masked.congr {taken' : Nat → Prop} (hsub : ∀ k, taken' k → taken k) :
    Masked rn taken' mask :=
  ⟨h.length, fun k hk => h.out k (hsub k hk)⟩

variable {k : Nat} {r0 : Int}

theorem Masked.clear (hk : k < rn) :
    ∃ mask', ofArray (Arrays.setAt mask k false) = .ok mask' ∧
      Masked rn (fun j => taken j ∨ j = k) mask' := by
  refine ⟨_, by rw [Arrays.setAt_ok (h.length ▸ hk)]; rfl, by rw [length_set, h.length], ?_⟩
  intro j hj
  rw [List.getElem?_set]
  split
  · split <;> nofun
  · next hkj =>
    rcases hj with hj | rfl
    · exact h.out j hj
    · exact absurd rfl hkj

/-- A register that is not in the mask, or beyond it -/
theorem Masked.of_ge (hk : rn ≤ k) : mask[k]? ≠ some true := by
  rw [List.getElem?_eq_none (h.length ▸ hk)]
  nofun

theorem maskActive_spec (hloc : (st.intervals e.stamp).loc = .reg (r0 + k)) :
    ∃ mask', maskActive st r0 rn mask e = .ok mask' ∧
      Masked rn (fun j => taken j ∨ j = k) mask' := by
  have hsub : r0 + (k : Int) - r0 = k := by omega
  unfold maskActive
  rw [hloc]
  dsimp only
  rw [hsub]
  split
  · next hlt => exact h.clear (by omega)
  · next hge =>
    refine ⟨mask, rfl, h.length, fun j hj => ?_⟩
    rcases hj with hj | rfl
    · exact h.out j hj
    · exact h.of_ge (by omega)

theorem removeBoundOverlapping_spec (hloc : (st.intervals e.stamp).loc = .reg (r0 + k)) :
    ∃ mask', removeBoundOverlapping st r0 rn i mask e = .ok mask' ∧
      Masked rn (fun j => taken j ∨ j = k ∧
        Interval.overlap (st.intervals e.stamp) (st.intervals i) = true) mask' := by
  have hsub : r0 + (k : Int) - r0 = k := by omega
  unfold removeBoundOverlapping
  rw [hloc]
  dsimp only
  rw [hsub]
  split
  · next hlt =>
    have hk : k < mask.length := by rw [h.length]; omega
    have hget : mask[k]? = some (mask.get ⟨k, hk⟩) := List.getElem?_eq_getElem _
    rw [Arrays.getAt_ok hget]
    simp only [ofArray, Except.mapError, ok_bind]
    split
    · obtain ⟨mask', hrun, h'⟩ := h.clear (k := k) (by omega)
      exact ⟨mask', hrun, h'.congr fun j hj => hj.imp id And.left⟩
    · next hnot =>
      refine ⟨mask, rfl, h.length, fun j hj => ?_⟩
      rcases hj with hj | ⟨rfl, hover⟩
      · exact h.out j hj
      · rw [hover, Bool.and_true, Bool.not_eq_true] at hnot
        rw [hget, hnot]
        nofun
  · next hge =>
    refine ⟨mask, rfl, h.length, fun j hj => ?_⟩
    rcases hj with hj | ⟨rfl, -⟩
    · exact h.out j hj
    · exact h.of_ge (by omega)

end

/-- A loop that masks the registers of the intervals of a set -/
theorem masked_iter {f : List Bool → Elt → Except Exn (List Bool)} {P : Elt → Nat → Prop}
    {s : IntervalSet}
    (hf : ∀ e ∈ s.toList, ∀ taken mask, Masked rn taken mask →
      ∃ mask', f mask e = .ok mask' ∧ Masked rn (fun k => taken k ∨ P e k) mask')
    (h : Masked rn taken mask) :
    ∃ mask', Set.iter f s mask = .ok mask' ∧
      Masked rn (fun k => taken k ∨ ∃ e ∈ s.toList, P e k) mask' := by
  rw [Set.iter_eq]
  refine foldlM_rule
    (I := fun seen mask => Masked rn (fun k => taken k ∨ ∃ e ∈ seen, P e k) mask)
    (fun seen e rest mask hsplit h => ?_) (h.congr fun k hk => hk.elim id fun ⟨e, he, _⟩ =>
      (not_mem_nil he).elim)
  obtain ⟨mask', hrun, h'⟩ := hf e (hsplit ▸ mem_append_right _ mem_cons_self) _ _ h
  refine ⟨mask', hrun, h'.congr fun k hk => ?_⟩
  rcases hk with hk | ⟨x, hx, hk⟩
  · exact .inl (.inl hk)
  · rcases mem_append.mp hx with hx | hx
    · exact .inl (.inr ⟨x, hx, hk⟩)
    · exact .inr (mem_singleton.mp hx ▸ hk)

end Mask

theorem firstFree_spec : ∀ (mask : List Bool) (r : Nat),
    firstFree r mask = .error .notFound ∨
      ∃ k, firstFree r mask = .ok (r + k) ∧ mask[k]? = some true
  | [], r => .inl rfl
  | true :: mask, r => .inr ⟨0, rfl, rfl⟩
  | false :: mask, r => by
    rcases firstFree_spec mask (r + 1) with herr | ⟨k, hrun, hk⟩
    · exact .inl herr
    · refine .inr ⟨k + 1, ?_, by simpa using hk⟩
      rw [firstFree, hrun, Nat.add_assoc, Nat.add_comm 1 k]

/-! ## Free registers -/

section

variable (h : Inv proc table intervals fixed done pos st) (hp : Problem proc table intervals fixed)
  (hi : i ∈ intervals) (hnew : i ∉ done)

include h hp hi hnew

/-- Two intervals that do not overlap share no position. -/
theorem Inv.not_covers_of_overlap (he : Held (st.active cl) e)
    (hover : Interval.overlap (st.intervals e.stamp) (st.intervals i) ≠ true) (p : Int)
    (hcov : Covers (st.intervals e.stamp).ranges p) : ¬Covers (table i).ranges p := by
  intro hcov'
  rw [← h.fresh i hi hnew] at hcov'
  exact hover ((overlapRanges_iff (h.sorted hp (h.mem_all (h.held_mem he).1))
    (h.sorted hp (mem_append_right _ hi))).mpr ⟨p, hcov, hcov'⟩)

/-- **A register of the final mask is free.** -/
theorem regmask_spec (hcl : classOf proc table i = cl) (rn : Nat) : ∃ mask1 mask2 mask3,
      Set.iter (maskActive st (proc.firstAvailableRegister cl) rn) (st.active cl).active
        (List.replicate rn true) = .ok mask1 ∧
      Set.iter (removeBoundOverlapping st (proc.firstAvailableRegister cl) rn i)
        (st.active cl).inactive mask1 = .ok mask2 ∧
      Set.iter (removeBoundOverlapping st (proc.firstAvailableRegister cl) rn i)
        (st.active cl).fixed mask2 = .ok mask3 ∧
      ∀ k : Nat, mask3[k]? = some true →
        FreeFor table i (proc.firstAvailableRegister cl + k) st := by
  -- the register of an interval, as a number in the class
  let has : Elt → Nat → Prop := fun e k =>
    (st.intervals e.stamp).loc = .reg (proc.firstAvailableRegister cl + k)
  let overlaps : Elt → Prop := fun e =>
    Interval.overlap (st.intervals e.stamp) (st.intervals i) = true
  have hinj : ∀ e k j, has e k → has e j → j = k := fun e k j hk hj => by
    have := Location.reg.inj (hj.symm.trans hk)
    omega
  have hbound : ∀ e, Held (st.active cl) e → ∀ taken mask, Masked rn taken mask →
      ∃ mask', removeBoundOverlapping st (proc.firstAvailableRegister cl) rn i mask e = .ok mask' ∧
        Masked rn (fun k => taken k ∨ has e k ∧ overlaps e) mask' := by
    intro e he taken mask hm
    obtain ⟨k, hk⟩ := h.held_reg hp he
    obtain ⟨mask', hrun, hm'⟩ := removeBoundOverlapping_spec (i := i) hm hk
    exact ⟨mask', hrun, hm'.congr fun j hj => hj.imp id fun hj => ⟨hinj e k j hk hj.1, hj.2⟩⟩
  obtain ⟨mask1, hrun1, hm1⟩ := masked_iter (P := has) (s := (st.active cl).active)
    (fun e he taken mask hm => by
      obtain ⟨k, hk⟩ := h.held_reg hp (.inr (.inl he))
      obtain ⟨mask', hrun, hm'⟩ := maskActive_spec hm hk
      exact ⟨mask', hrun, hm'.congr fun j hj => hj.imp id (hinj e k j hk)⟩) (Masked.start rn)
  obtain ⟨mask2, hrun2, hm2⟩ := masked_iter (P := fun e k => has e k ∧ overlaps e)
    (s := (st.active cl).inactive)
    (fun e he taken mask hm => hbound e (.inr (.inr he)) taken mask hm) hm1
  obtain ⟨mask3, hrun3, hm3⟩ := masked_iter (P := fun e k => has e k ∧ overlaps e)
    (s := (st.active cl).fixed) (fun e he taken mask hm => hbound e (.inl he) taken mask hm) hm2
  refine ⟨mask1, mask2, mask3, hrun1, hrun2, hrun3, fun k hk e he hloc p hcov => ?_⟩
  rw [hcl] at he
  have hnot := fun htaken => hm3.out k htaken hk
  refine h.not_covers_of_overlap hp hi hnew he (fun hover => hnot ?_) p hcov
  rcases he with he | he | he
  · exact .inr ⟨e, he, hloc, hover⟩
  · exact .inl (.inl (.inr ⟨e, he, hloc⟩))
  · exact .inl (.inr ⟨e, he, hloc, hover⟩)

end

theorem allocateFreeRegister_spec (phys : PhysEq)
    (h : Inv proc table intervals fixed done pos st) (hp : Problem proc table intervals fixed)
    (hi : i ∈ intervals) (hnew : i ∉ done) (hpos : pos ≤ (table i).ibegin) :
    (∃ st', allocateFreeRegister phys st i = .ok st' ∧
      Inv proc table intervals fixed (done ++ [i]) pos st') ∨
    allocateFreeRegister phys st i = .error .notFound := by
  unfold allocateFreeRegister
  split
  · exact .inl (allocateStackSlot_spec phys h hp hi hnew)
  · dsimp only
    rw [h.registerClass_eq]
    split
    · exact .inr rfl
    · have hok := h.classOk (classOf proc table i)
      obtain ⟨mask1, mask2, mask3, hrun1, hrun2, hrun3, hfree⟩ := regmask_spec h hp hi hnew rfl
        (proc.numAvailableRegisters (classOf proc table i))
      rw [hrun1, ok_bind, hrun2, ok_bind, hrun3, ok_bind]
      rcases firstFree_spec mask3 0 with herr | ⟨k, hrun, hk⟩
      · rw [herr]
        exact .inr rfl
      · obtain ⟨active, hadd, hwf, hmem⟩ := ofSet_gives
          (Set.add_gives totalOrder_compare phys (st.elt i) hok.wfActive)
        rw [hrun, ok_bind, hadd, ok_bind, Nat.zero_add]
        have hactivates : Activates table i (st.active (classOf proc table i))
            { st.active (classOf proc table i) with active } :=
          ⟨rfl, rfl, rfl, rfl, hwf, fun e => by rw [hmem, h.elt_eq]⟩
        exact .inl ⟨_, rfl, h.assign hp hi hnew hpos (hfree k hk) hactivates false
          st.numStackSlots⟩
  · next hne hne' =>
    refine .inl ⟨st, rfl, h.skip hi fun k => ?_⟩
    rw [h.fresh i hi hnew]
    exact hp.noReg i hi k

/-! ## Blocked registers -/

/-- `i` takes the register `r`, and the active intervals of its class change. -/
abbrev State.take (st : State proc) (i r : Int) (cl : Fin proc.numRegisterClasses)
    (active : IntervalSet) : State proc :=
  (st.setInterval i { st.intervals i with loc := .reg r }).setClass cl { st.active cl with active }

theorem take_active (r : Int) (active : IntervalSet) :
    (st.take i r cl active).active cl = { st.active cl with active } := update_self ..

/-- The active interval that has lost its register goes to the stack. -/
theorem evict_eq (phys : PhysEq) (h : Inv proc table intervals fixed done pos st) (hnew : i ∉ done)
    (hlast : ilast ∈ (st.active cl).active.toList) (r : Int) (active : IntervalSet) :
    ilast.stamp ≠ i ∧ ∃ ss freeSlots spilled num,
      allocateStackSlot phys (st.take i r cl active) ilast.stamp =
        .ok ((st.take i r cl active).relocate ilast.stamp (.stack (.local ss)) true cl
          { st.active cl with active, freeSlots, spilled } num) ∧
      Set.WellFormed slotCompare freeSlots ∧ Set.WellFormed compare spilled ∧
      (∀ e, e ∈ spilled.toList ↔ e = handle table ilast.stamp ∨ e ∈ (st.active cl).spilled.toList) ∧
      TakesSlot cl (st.active cl).freeSlots st.numStackSlots ss freeSlots num := by
  have hok := h.classOk cl
  obtain ⟨⟨hldone, hlcl, -⟩, -⟩ := hok.walkedMem ilast (.inl hlast)
  have hli : ilast.stamp ≠ i := fun he => hnew (he ▸ hldone)
  have hlast1 : (st.take i r cl active).intervals ilast.stamp = st.intervals ilast.stamp :=
    update_of_ne hli ..
  have hcl : registerClass (st.take i r cl active) ilast.stamp = cl := by
    rw [registerClass, hlast1, (h.trimmed _).typ]
    exact hlcl
  have heq := allocateStackSlot_eq phys _ ilast.stamp hcl (by rw [take_active]; exact hok.wfFree)
    (by rw [take_active]; exact hok.wfSpilled)
  rw [take_active, State.elt, hlast1, (h.trimmed _).iend] at heq
  exact ⟨hli, heq⟩

section

variable (phys : PhysEq) (h : Inv proc table intervals fixed done pos st)
  (hp : Problem proc table intervals fixed) (hi : i ∈ intervals) (hnew : i ∉ done)
  (hpos : pos ≤ (table i).ibegin)

include phys h hp hi hnew hpos

/-- An active interval goes to the stack, and the current one gets its register. -/
theorem steal_spec (hcl : classOf proc table i = cl)
    (hlast : ilast ∈ (st.active cl).active.toList) {k : Nat}
    {il active : IntervalSet} (hwfil : Set.WellFormed compare il)
    (hil : ∀ e, e ∈ il.toList ↔ e ∈ (st.active cl).active.toList ∧ e ≠ ilast)
    (hwfactive : Set.WellFormed compare active)
    (hactive : ∀ e, e ∈ active.toList ↔ e = st.elt i ∨ e ∈ il.toList)
    (hfree : ∀ e, Held (st.active cl) e → e ≠ ilast →
      (st.intervals e.stamp).loc = .reg (proc.firstAvailableRegister cl + k) →
      ∀ p, Covers (st.intervals e.stamp).ranges p → ¬Covers (table i).ranges p) :
    ∃ st', allocateStackSlot phys (st.take i (proc.firstAvailableRegister cl + k) cl active)
        ilast.stamp = .ok st' ∧ Inv proc table intervals fixed (done ++ [i]) pos st' := by
  subst hcl
  have hok := h.classOk (classOf proc table i)
  obtain ⟨⟨hldone, hlcl, hleq⟩, -⟩ := hok.walkedMem ilast (.inl hlast)
  have hsame : ∀ e, Held (st.active (classOf proc table i)) e →
      (e.stamp = ilast.stamp ↔ e = ilast) := by
    refine fun e he => ⟨fun hs => ?_, fun hs => hs ▸ rfl⟩
    rw [(h.held_mem he).2.2, hs, ← hleq]
  obtain ⟨hli, ss, freeSlots, spilled, num, hrun, hwff, hwfs, hmem, -⟩ := evict_eq phys h hnew hlast
    (proc.firstAvailableRegister (classOf proc table i) + k) active
  refine ⟨_, hrun, ?_⟩
  -- the same state is reached when the other interval is spilled first
  let ciA : ClassIntervals :=
    { st.active (classOf proc table i) with active := il, freeSlots, spilled }
  have hA : Inv proc table intervals fixed done pos
      (st.relocate ilast.stamp (.stack (.local ss)) true (classOf proc table i) ciA num) := by
    rw [← hlcl]
    refine h.spill hp (h.doneMem _ hldone) (fun x => ⟨.inl, fun hx => hx.elim id fun hx =>
      hx ▸ hldone⟩) ?_ ss true num
    rw [hlcl]
    refine ⟨rfl, rfl, hwfil, hwfs, hwff, fun e => ?_, fun e => ?_, fun e he hs => ?_⟩
    · rw [hil]
      exact and_congr_right fun he => (hsame e (.inr (.inl he))).not.symm
    · exact hmem e
    · rw [(hsame e (.inr (.inr he))).mp hs] at he
      exact hok.disjoint ilast hlast he
  let ciB : ClassIntervals := { ciA with active }
  have hfreeA : FreeFor table i (proc.firstAvailableRegister (classOf proc table i) + k)
      (st.relocate ilast.stamp (.stack (.local ss)) true (classOf proc table i) ciA num) := by
    intro e he hloc' p hcov
    rw [relocate_active_self] at he
    have hold : Held (st.active (classOf proc table i)) e ∧ e ≠ ilast := by
      rcases he with he | he | he
      · refine ⟨.inl he, fun heq => ?_⟩
        exact hp.not_mem_fixed (h.doneMem _ hldone) (heq ▸ (hok.fixedMem e he).1)
      · exact ⟨.inr (.inl ((hil e).mp he).1), ((hil e).mp he).2⟩
      · exact ⟨.inr (.inr he), fun heq => hok.disjoint ilast hlast (heq ▸ he)⟩
    have hstamp : e.stamp ≠ ilast.stamp := fun hs => hold.2 ((hsame e hold.1).mp hs)
    rw [relocate_of_ne hstamp] at hloc' hcov
    exact hfree e hold.1 hold.2 hloc' p hcov
  have hactivates : Activates table i ((st.relocate ilast.stamp (.stack (.local ss)) true
      (classOf proc table i) ciA num).active (classOf proc table i)) ciB := by
    rw [relocate_active_self]
    refine ⟨rfl, rfl, rfl, rfl, hwfactive, fun e => ?_⟩
    rw [hactive, h.elt_eq]
  have hB := hA.assign hp hi hnew hpos hfreeA hactivates (st.intervals i).spill num
  convert hB using 1
  simp only [State.setClass, State.setInterval, State.relocate, State.mk.injEq, and_true]
  refine ⟨?_, ?_⟩
  · rw [update_of_ne hli, update_of_ne hli.symm]
    exact update_comm hli.symm _ _ _
  · rw [update_idem]
    exact (update_idem ..).symm

theorem allocateBlockedRegister_spec (hlive : ∀ cl, Live pos st cl) :
    ∃ st', allocateBlockedRegister phys st i = .ok st' ∧
      Inv proc table intervals fixed (done ++ [i]) pos st' := by
  have hok := h.classOk (classOf proc table i)
  have hspill := allocateStackSlot_spec (phys.sub 2) h hp hi hnew
  unfold allocateBlockedRegister
  dsimp only
  rw [h.registerClass_eq]
  rcases Set.maxEltOpt_spec totalOrder_compare.toTotalPreorder hok.wfActive.sorted with
    ⟨-, hnone⟩ | ⟨ilast, hlast, hsome, -⟩
  · rw [hnone]
    exact hspill
  · rw [hsome]
    dsimp only
    split
    · next hcond =>
      obtain ⟨-, hchk⟩ := hcond
      obtain ⟨⟨hldone, hlcl, hleq⟩, k, hloc⟩ := hok.walkedMem ilast (.inl hlast)
      obtain ⟨il, hremove, hwfil, hil⟩ := ofSet_gives
        (Set.remove_gives totalOrder_compare (phys.sub 0) ilast hok.wfActive)
      obtain ⟨active, hadd, hwfactive, hactive⟩ := ofSet_gives
        (Set.add_gives totalOrder_compare (phys.sub 1) (st.elt i) hwfil)
      rw [hremove, ok_bind, hloc]
      dsimp only
      rw [hadd, ok_bind]
      refine steal_spec (phys.sub 2) h hp hi hnew hpos rfl hlast hwfil hil hwfactive hactive ?_
      intro e he hne hloc' p hcov
      have hover : e ∈ (st.active (classOf proc table i)).fixed.toList ∨
          e ∈ (st.active (classOf proc table i)).inactive.toList →
          ¬Covers (table i).ranges p := by
        intro hmem
        refine h.not_covers_of_overlap hp hi hnew he (fun hover => hchk ?_) p hcov
        rw [Bool.or_eq_true, Set.any_iff, Set.any_iff]
        have hthis : (decide ((st.intervals e.stamp).loc = (st.intervals ilast.stamp).loc) &&
            Interval.overlap (st.intervals e.stamp) (st.intervals i)) = true := by
          simp [hloc, hloc', hover]
        exact hmem.imp (fun hm => ⟨e, hm, hthis⟩) fun hm => ⟨e, hm, hthis⟩
      rcases he with hfix | hact | hin
      · exact hover (.inl hfix)
      · -- two active intervals are live, hence they do not have the same register
        have hstamp : e.stamp ≠ ilast.stamp := fun hs => hne (by
          rw [(h.held_mem (.inr (.inl hact))).2.2, hs, ← hleq])
        exact absurd (hlive _ ilast hlast) (h.apart _ e ilast (.inr (.inl hact))
          (.inr (.inl hlast)) hstamp (fun hf => hp.not_mem_fixed (h.doneMem _ hldone) hf.2) _ hloc'
          hloc pos (hlive _ e hact))
      · exact hover (.inr hin)
    · exact hspill

end

/-! ## The walk -/

theorem startPos_le (i : Interval.T) : startPos i ≤ i.ibegin := by
  unfold startPos
  omega

theorem startPos_mono {i j : Interval.T} (h : i.ibegin ≤ j.ibegin) : startPos i ≤ startPos j := by
  unfold startPos
  omega

/-- **One step of the scan.** -/
theorem walkInterval_spec (phys : PhysEq) (h : Inv proc table intervals fixed done pos st)
    (hp : Problem proc table intervals fixed) (hi : i ∈ intervals) (hnew : i ∉ done)
    (hpos : pos ≤ startPos (table i)) :
    ∃ st', walkInterval phys st i = .ok st' ∧
      Inv proc table intervals fixed (done ++ [i]) (startPos (table i)) st' := by
  obtain ⟨st1, hrun, h1, hlive⟩ := releaseAll_spec hp (h.mono hpos) phys
  have hbegin := startPos_le (table i)
  unfold walkInterval
  dsimp only
  rw [h.fresh i hi hnew, hrun, ok_bind]
  rcases allocateFreeRegister_spec phys h1 hp hi hnew hbegin with ⟨st2, hfree, h2⟩ | hnone
  · rw [hfree]
    exact ⟨st2, rfl, h2⟩
  · rw [hnone]
    exact allocateBlockedRegister_spec phys h1 hp hi hnew hbegin hlive

/-! ## The fixed intervals -/

/-- The fixed intervals that are in the sets before the scan -/
theorem addFixed_inv (phys : PhysEq) {seen rest : List Int}
    (hsplit : fixed = seen ++ i :: rest) (hst : st.intervals = table)
    (h : ∀ cl, ClassOk proc table fixed [] table cl (st.active cl) ∧
      (∀ e, ¬(e ∈ (st.active cl).active.toList ∨ e ∈ (st.active cl).inactive.toList)) ∧
      ∀ x ∈ seen, classOf proc table x = cl → handle table x ∈ (st.active cl).fixed.toList) :
    ∃ st', addFixed phys st i = .ok st' ∧ st'.intervals = table ∧
      ∀ cl, ClassOk proc table fixed [] table cl (st'.active cl) ∧
        (∀ e, ¬(e ∈ (st'.active cl).active.toList ∨ e ∈ (st'.active cl).inactive.toList)) ∧
        ∀ x ∈ seen ++ [i], classOf proc table x = cl →
          handle table x ∈ (st'.active cl).fixed.toList := by
  have hfix : i ∈ fixed := hsplit ▸ mem_append_right _ mem_cons_self
  have hcl : registerClass st i = classOf proc table i := by rw [registerClass, hst]; rfl
  have helt : st.elt i = handle table i := by rw [State.elt, hst]; rfl
  obtain ⟨hok, hnone, hseen⟩ := h (classOf proc table i)
  obtain ⟨t, hadd, hwf, hmem⟩ := ofSet_gives
    (Set.add_gives totalOrder_compare phys (st.elt i) hok.wfFixed)
  refine ⟨st.setClass (classOf proc table i) { st.active (classOf proc table i) with fixed := t },
    ?_, hst, fun cl => ?_⟩
  · unfold addFixed
    dsimp only
    rw [hcl, hadd]
    rfl
  · by_cases hc : cl = classOf proc table i
    · subst hc
      rw [State.setClass]
      dsimp only
      rw [update_self]
      refine ⟨{ hok with wfFixed := hwf, fixedMem := fun e he => ?_ }, hnone, fun x hx hxc => ?_⟩
      · rcases (hmem e).mp he with rfl | he
        · rw [helt]
          exact ⟨hfix, rfl, rfl⟩
        · exact hok.fixedMem e he
      · refine (hmem _).mpr ?_
        rcases mem_append.mp hx with hx | hx
        · exact .inr (hseen x hx hxc)
        · rw [mem_singleton.mp hx, helt]
          exact .inl rfl
    · rw [State.setClass]
      dsimp only
      rw [update_of_ne hc]
      obtain ⟨hok, hnone, hseen⟩ := h cl
      refine ⟨hok, hnone, fun x hx hxc => ?_⟩
      rcases mem_append.mp hx with hx | hx
      · exact hseen x hx hxc
      · rw [mem_singleton.mp hx] at hxc
        exact absurd hxc.symm hc

theorem classOk_empty (cl : Fin proc.numRegisterClasses) :
    ClassOk proc table fixed [] table cl .empty where
  wfFixed := Set.wellFormed_empty
  wfActive := Set.wellFormed_empty
  wfInactive := Set.wellFormed_empty
  wfSpilled := Set.wellFormed_empty
  wfFree := Set.wellFormed_empty
  fixedMem _ he := (not_mem_nil he).elim
  walkedMem _ he := (he.elim not_mem_nil not_mem_nil).elim
  spilledMem _ he := (not_mem_nil he).elim
  disjoint _ he := (not_mem_nil he).elim

/-- The invariant holds before the scan, at any position. -/
theorem fixedIntervals_spec (intervals fixed : List Int) (phys : Int → PhysEq)
    (pos : Int) :
    ∃ st, fixed.foldlM (fun st i => addFixed (phys i) st i)
        (⟨table, fun _ => .empty, fun _ => 0⟩ : State proc) = .ok st ∧
      Inv proc table intervals fixed [] pos st := by
  obtain ⟨st, hrun, hst, h⟩ := foldlM_rule
    (I := fun seen (st : State proc) => st.intervals = table ∧
      ∀ cl, ClassOk proc table fixed [] table cl (st.active cl) ∧
        (∀ e, ¬(e ∈ (st.active cl).active.toList ∨ e ∈ (st.active cl).inactive.toList)) ∧
        ∀ x ∈ seen, classOf proc table x = cl → handle table x ∈ (st.active cl).fixed.toList)
    (l := fixed) (f := fun st i => addFixed (phys i) st i)
    (b := (⟨table, fun _ => .empty, fun _ => 0⟩ : State proc))
    (fun seen i rest st hsplit h => addFixed_inv (phys i) hsplit h.1 h.2)
    ⟨rfl, fun cl => ⟨classOk_empty cl, fun e he => he.elim not_mem_nil not_mem_nil,
      fun x hx => (not_mem_nil hx).elim⟩⟩
  have hfix : ∀ cl e, Held (st.active cl) e → e.stamp ∈ fixed := by
    intro cl e he
    rcases he with he | he
    · exact ((h cl).1.fixedMem e he).1
    · exact absurd he ((h cl).2.1 e)
  refine ⟨st, hrun, nofun, fun i => ?_, fun i _ _ => by rw [hst], fun i _ => by rw [hst],
    fun cl => by rw [hst]; exact (h cl).1, fun cl e e' he he' _ hf => ?_, fun i hi k hk => ?_,
    fun i hi j hj _ hf => ?_⟩
  · rw [hst]
    exact .refl _ _
  · exact absurd ⟨hfix cl e he, hfix cl e' he'⟩ hf
  · rw [append_nil] at hi
    exact .inl (.inl ((h _).2.2 i hi rfl))
  · rw [append_nil] at hi hj
    exact absurd ⟨hi, hj⟩ hf

/-- **The whole scan succeeds**, and keeps the invariant from a position before all intervals on. -/
theorem scan_spec (phys : Int → PhysEq) (hp : Problem proc table intervals fixed) :
    ∃ pos st0 st, fixed.foldlM (fun st i => addFixed (phys i) st i)
        (⟨table, fun _ => .empty, fun _ => 0⟩ : State proc) = .ok st0 ∧
      Inv proc table intervals fixed [] pos st0 ∧ (∀ i ∈ intervals, pos ≤ startPos (table i)) ∧
      intervals.foldlM (fun st i => walkInterval (phys i) st i) st0 = .ok st ∧
      ∃ pos', Inv proc table intervals fixed intervals pos' st := by
  -- the scan starts no later than the first interval does
  obtain ⟨pos, hpos⟩ : ∃ pos, ∀ i ∈ intervals, pos ≤ startPos (table i) := by
    have hord := hp.ordered
    cases intervals with
    | nil => exact ⟨0, nofun⟩
    | cons i rest =>
      refine ⟨startPos (table i), fun j hj => ?_⟩
      rcases mem_cons.mp hj with rfl | hj
      · exact Int.le_refl _
      · exact startPos_mono ((pairwise_cons.mp hord).1 j hj)
  obtain ⟨st0, hrun0, h0⟩ := fixedIntervals_spec intervals fixed phys pos
  obtain ⟨st, hrun, pos', h, -⟩ := foldlM_rule
    (I := fun seen (st : State proc) => ∃ pos, Inv proc table intervals fixed seen pos st ∧
      ∀ i rest, intervals = seen ++ i :: rest → pos ≤ startPos (table i))
    (l := intervals) (f := fun st i => walkInterval (phys i) st i)
    (fun seen i rest st hsplit hI => by
      obtain ⟨pos, hI, hle⟩ := hI
      have hi : i ∈ intervals := hsplit ▸ mem_append_right _ mem_cons_self
      have hnodup := (nodup_append.mp hp.nodup).2.1
      rw [hsplit] at hnodup
      have hnew : i ∉ seen := fun hs =>
        (nodup_append.mp hnodup).2.2 i hs i mem_cons_self rfl
      obtain ⟨st', hrun, hI'⟩ := walkInterval_spec (phys i) hI hp hi hnew (hle i rest hsplit)
      refine ⟨st', hrun, _, hI', fun j rest' hsplit' => startPos_mono ?_⟩
      have hord := hp.ordered
      rw [hsplit', append_assoc] at hord
      exact (pairwise_cons.mp (pairwise_append.mp hord).2.1).1 j mem_cons_self)
    ⟨pos, h0, fun i rest he => hpos i (he ▸ mem_cons_self)⟩
  exact ⟨pos, st0, st, hrun0, h0, hpos, hrun, pos', h⟩

/-- **Hardware registers never clash.** The allocation succeeds, and two intervals of a class with
the same hardware register, at most one of which is fixed, do not share two consecutive
positions. -/
theorem allocateRegisters_noClash (proc : Proc) (phys : Int → PhysEq) (table : Int → Interval.T)
    (intervals fixed : List Int) (hp : Problem proc table intervals fixed) :
    ∃ st, allocateRegisters proc phys table intervals fixed = .ok st ∧
      ∀ i ∈ fixed ++ intervals, ∀ j ∈ fixed ++ intervals, i ≠ j → ¬(i ∈ fixed ∧ j ∈ fixed) →
        registerClass st i = registerClass st j →
        ∀ k, (st.intervals i).loc = .reg k → (st.intervals j).loc = .reg k →
          ¬Clash (table i) (table j) := by
  obtain ⟨pos, st0, st, hrun0, -, -, hrun, pos', h⟩ := scan_spec phys hp
  refine ⟨st, ?_, fun i hi j hj hne hf hcl k hik hjk => ?_⟩
  · unfold allocateRegisters
    dsimp only
    rw [hrun0, ok_bind, hrun]
  · rw [h.registerClass_eq, h.registerClass_eq] at hcl
    exact h.noClash i hi j hj hne hf hcl k hik hjk

/-- One class with one register -/
def oneRegister : Proc where
  numRegisterClasses := 1
  registerClass _ := ⟨0, Nat.one_pos⟩
  numAvailableRegisters _ := 1
  firstAvailableRegister _ := 0
  rotateRegisters := false

/-- The fixed interval 0 uses the register in a hole of the interval 1, and 2 starts where 1 ends.
-/
def holeTable : Int → Interval.T
  | 0 => { typ := .val, loc := .reg 0, ibegin := 5, iend := 7, ranges := [⟨5, 7⟩] }
  | 1 => { typ := .val, ibegin := 3, iend := 12, ranges := [⟨3, 4⟩, ⟨10, 12⟩] }
  | _ => { typ := .val, ibegin := 12, iend := 15, ranges := [⟨12, 15⟩] }

theorem allocateRegisters_noClash_hole :
    Problem oneRegister holeTable [1, 2] [0] ∧
    ∃ st, allocateRegisters oneRegister (fun _ => .never) holeTable [1, 2] [0] = .ok st ∧
      ∀ i ∈ [0] ++ [1, 2], ∀ j ∈ [0] ++ [1, 2], i ≠ j → ¬(i ∈ [0] ∧ j ∈ [0]) →
        registerClass st i = registerClass st j →
        ∀ k, (st.intervals i).loc = .reg k → (st.intervals j).loc = .reg k →
          ¬Clash (holeTable i) (holeTable j) := by
  have hp : Problem oneRegister holeTable [1, 2] [0] := by
    refine ⟨by decide, by decide, ?_, by decide, by decide, ?_, ?_⟩
    · simp only [cons_append, nil_append, forall_mem_cons, holeTable]
      exact ⟨⟨by decide, by decide⟩, ⟨by decide, by decide⟩, ⟨by decide, by decide⟩, nofun⟩
    · simp only [forall_mem_cons]
      exact ⟨⟨0, rfl⟩, nofun⟩
    · simp only [forall_mem_cons]
      exact ⟨nofun, nofun, nofun⟩
  exact ⟨hp, allocateRegisters_noClash _ _ _ _ _ hp⟩

end TravLang.Linscan
