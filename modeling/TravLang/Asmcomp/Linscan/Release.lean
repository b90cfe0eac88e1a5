import TravLang.Asmcomp.Linscan.Invariant

/-!
# Releasing expired intervals

At a new position, each class drops the intervals that have ended, trims the others, and sorts them
into those that are live at the position and those that are not.
-/

namespace TravLang.Linscan

open TravLang.Asmcomp List Result
open TravLang.Interval (Sorted Covers isLiveInRanges_iff)
open Map (PhysEq)

variable {proc : Proc} {table : Int → Interval.T} {intervals fixed done : List Int} {pos : Int}
  {st st' : State proc} {cl : Fin proc.numRegisterClasses} {ci ci' : ClassIntervals}
  {s : IntervalSet}

/-! ## Trimming -/

/-- Only the ranges of the intervals of `s` may change, by trimming at `pos`. -/
structure Trims (pos : Int) (s : IntervalSet) (st st' : State proc) : Prop where
  active : st'.active = st.active
  numStackSlots : st'.numStackSlots = st.numStackSlots
  trimmed : ∀ i, Trimmed pos (st.intervals i) (st'.intervals i)
  loc : ∀ i, (st'.intervals i).loc = (st.intervals i).loc
  other : ∀ i, (∀ e ∈ s.toList, e.stamp ≠ i) → st'.intervals i = st.intervals i

theorem trims_removeExpiredRanges (st : State proc) (s : IntervalSet) (pos : Int) :
    Trims pos s st (removeExpiredRanges st s pos) := by
  rw [removeExpiredRanges, Set.fold_eq]
  suffices hgen : ∀ (l : List Elt), (∀ e ∈ l, e ∈ s.toList) → ∀ st' : State proc,
      Trims pos s st st' → Trims pos s st (l.foldl (fun st i => st.setInterval i.stamp
        (Interval.removeExpiredRanges (st.intervals i.stamp) pos)) st') from
    hgen s.toList (fun _ => id) st
      ⟨rfl, rfl, fun _ => .refl _ _, fun _ => rfl, fun _ _ => rfl⟩
  intro l
  induction l with
  | nil => exact fun _ st' h => h
  | cons e l ih =>
    intro hl st' h
    refine ih (fun e' he' => hl e' (mem_cons_of_mem _ he')) _ ?_
    have hupdate : ∀ i, (st'.setInterval e.stamp
        (Interval.removeExpiredRanges (st'.intervals e.stamp) pos)).intervals i =
          if i = e.stamp then Interval.removeExpiredRanges (st'.intervals i) pos
          else st'.intervals i := by
      intro i
      rw [State.setInterval]
      dsimp only
      rw [Function.update_apply]
      split
      · next hi => rw [hi]
      · rfl
    refine ⟨h.active, h.numStackSlots, fun i => ?_, fun i => ?_, fun i hi => ?_⟩
    · rw [hupdate]
      split
      · exact (h.trimmed i).trans (trimmed_removeExpiredRanges pos _)
      · exact h.trimmed i
    · rw [hupdate]
      split
      · exact h.loc i
      · exact h.loc i
    · rw [hupdate, if_neg fun he => hi e (hl e mem_cons_self) he.symm]
      exact h.other i hi

/-! ## Smaller sets -/

/-- The sets of a class after a release: intervals have moved or, if they ended before `pos`, are no
longer there. -/
structure Shrinks (pos : Int) (ci ci' : ClassIntervals) : Prop where
  wfFixed : Set.WellFormed compare ci'.fixed
  wfActive : Set.WellFormed compare ci'.active
  wfInactive : Set.WellFormed compare ci'.inactive
  wfSpilled : Set.WellFormed compare ci'.spilled
  wfFree : Set.WellFormed slotCompare ci'.freeSlots
  fixed : ∀ e ∈ ci'.fixed.toList, e ∈ ci.fixed.toList
  walked : ∀ e, e ∈ ci'.active.toList ∨ e ∈ ci'.inactive.toList →
    e ∈ ci.active.toList ∨ e ∈ ci.inactive.toList
  spilled : ∀ e ∈ ci'.spilled.toList, e ∈ ci.spilled.toList
  disjoint : ∀ e ∈ ci'.active.toList, e ∉ ci'.inactive.toList
  held : ∀ e, Held ci e → Held ci' e ∨ e.iend < pos

theorem Shrinks.of_held (h : Shrinks pos ci ci') {e : Elt} (he : Held ci' e) : Held ci e :=
  he.imp (h.fixed e) (h.walked e)

/-- The step of a release on a class: the intervals of `s` are trimmed, and the sets get smaller. -/
structure Releases (pos : Int) (cl : Fin proc.numRegisterClasses) (s : IntervalSet)
    (st st' : State proc) : Prop where
  trimmed : ∀ i, Trimmed pos (st.intervals i) (st'.intervals i)
  loc : ∀ i, (st'.intervals i).loc = (st.intervals i).loc
  touched : ∀ i, (∀ e ∈ s.toList, e.stamp ≠ i) → st'.intervals i = st.intervals i
  held : ∀ e ∈ s.toList, Held (st.active cl) e
  shrinks : Shrinks pos (st.active cl) (st'.active cl)
  other : ∀ cl', cl' ≠ cl → st'.active cl' = st.active cl'

theorem Trims.setClass (h : Trims pos s st st') (hs : ∀ e ∈ s.toList, Held (st.active cl) e)
    (hci : Shrinks pos (st.active cl) ci') :
    Releases pos cl s st (st'.setClass cl ci') where
  trimmed := h.trimmed
  loc := h.loc
  touched := h.other
  held := hs
  shrinks := by
    rw [State.setClass]
    dsimp only
    rw [Function.update_self]
    exact hci
  other cl' hne := by
    rw [State.setClass]
    dsimp only
    rw [Function.update_of_ne hne, h.active]

/-- Intervals of other classes are not changed. -/
theorem Releases.otherClass (hr : Releases pos cl s st st')
    (h : Inv proc table intervals fixed done pos st) {i : Int} (hi : classOf proc table i ≠ cl) :
    st'.intervals i = st.intervals i :=
  hr.touched i fun e he heq => hi (heq ▸ (h.held_mem (hr.held e he)).2.1)

/-- **A release keeps the invariant.** -/
theorem Releases.inv (hr : Releases pos cl s st st') (hp : Problem proc table intervals fixed)
    (h : Inv proc table intervals fixed done pos st) :
    Inv proc table intervals fixed done pos st' := by
  have hheld : ∀ cl' e, Held (st'.active cl') e → Held (st.active cl') e := by
    intro cl' e he
    by_cases hcl : cl' = cl
    · subst hcl
      exact hr.shrinks.of_held he
    · rwa [hr.other cl' hcl] at he
  refine ⟨h.doneMem, fun i => (h.trimmed i).trans (hr.trimmed i), fun i hi hdone => ?_,
    fun i hi => (hr.loc i).trans (h.fixedLoc i hi), fun cl' => ?_, fun cl' => ?_,
    fun i hi k hk => ?_, fun i hi j hj hne hfix hcl k hik hjk => ?_⟩
  · rw [hr.touched i fun e he heq => ?_]
    · exact h.fresh i hi hdone
    · have hmem := (h.held_mem (hr.held e he)).1
      rw [heq] at hmem
      exact (mem_append.mp hmem).elim (hp.not_mem_fixed hi) hdone
  · by_cases hcl : cl' = cl
    · subst hcl
      have hok := h.classOk cl'
      have hs := hr.shrinks
      refine ⟨hs.wfFixed, hs.wfActive, hs.wfInactive, hs.wfSpilled, hs.wfFree,
        fun e he => hok.fixedMem e (hs.fixed e he), fun e he => ?_, fun e he => ?_, hs.disjoint⟩
      · obtain ⟨hmem, k, hk⟩ := hok.walkedMem e (hs.walked e he)
        exact ⟨hmem, k, (hr.loc _).trans hk⟩
      · obtain ⟨hmem, ss, hss⟩ := hok.spilledMem e (hs.spilled e he)
        exact ⟨hmem, ss, (hr.loc _).trans hss⟩
    · rw [hr.other cl' hcl]
      have hok := h.classOk cl'
      refine { hok with walkedMem := fun e he => ?_, spilledMem := fun e he => ?_ }
      · obtain ⟨hmem, k, hk⟩ := hok.walkedMem e he
        exact ⟨hmem, k, (hr.loc _).trans hk⟩
      · obtain ⟨hmem, ss, hss⟩ := hok.spilledMem e he
        exact ⟨hmem, ss, (hr.loc _).trans hss⟩
  · intro e e' he he' hne hfix k hk hk' p hcov hcov'
    exact h.apart cl' e e' (hheld cl' e he) (hheld cl' e' he') hne hfix k
      ((hr.loc _).symm.trans hk) ((hr.loc _).symm.trans hk') p ((hr.trimmed _).sub p hcov)
      ((hr.trimmed _).sub p hcov')
  · rcases h.held i hi k ((hr.loc i).symm.trans hk) with hhold | hend
    · by_cases hcl : classOf proc table i = cl
      · rw [hcl] at hhold ⊢
        exact hr.shrinks.held _ hhold
      · rw [hr.other _ hcl]
        exact .inl hhold
    · exact .inr hend
  · exact h.noClash i hi j hj hne hfix hcl k ((hr.loc i).symm.trans hik)
      ((hr.loc j).symm.trans hjk)

/-! ## The four releases -/

section Class

variable (hp : Problem proc table intervals fixed)
  (h : Inv proc table intervals fixed done pos st) (cl : Fin proc.numRegisterClasses)

include hp h

theorem releaseExpiredFixed_spec :
    ∃ st' s, releaseExpiredFixed st cl pos = .ok st' ∧ Releases pos cl s st st' ∧
      (st'.active cl).active = (st.active cl).active := by
  have hok := h.classOk cl
  obtain ⟨before, rest, hsplit, -, hwf, hbefore, hrest⟩ := splitByPos_spec pos hok.wfFixed
    fun e he => h.stamp_nonneg hp (.inl he)
  have hrun : releaseExpiredFixed st cl pos = .ok ((removeExpiredRanges st rest pos).setClass cl
      { st.active cl with fixed := rest }) := by
    rw [releaseExpiredFixed, hsplit]
    rfl
  refine ⟨_, rest, hrun,
    (trims_removeExpiredRanges st rest pos).setClass
      (fun e he => .inl ((hrest e).mp he).1) ⟨hwf, hok.wfActive, hok.wfInactive, hok.wfSpilled,
        hok.wfFree, fun e he => ((hrest e).mp he).1, fun _ => id, fun _ => id, hok.disjoint,
        fun e he => ?_⟩, ?_⟩
  · rcases he with he | he
    · by_cases hend : pos ≤ e.iend
      · exact .inl (.inl ((hrest e).mpr ⟨he, hend⟩))
      · exact .inr (Int.not_le.mp hend)
    · exact .inl (.inr he)
  · simp [State.setClass]

/-- The intervals of a set that have not ended: those that are live, and the others -/
theorem splitLive_spec (hwf : Set.WellFormed compare s)
    (hs : ∀ e ∈ s.toList, Held (st.active cl) e) :
    ∃ before rest live other, splitByPos s pos = .ok (before, rest) ∧
      partitionLive (removeExpiredRanges st rest pos) rest pos = .ok (live, other) ∧
      Set.WellFormed compare live ∧ Set.WellFormed compare other ∧
      (∀ e ∈ rest.toList, e ∈ s.toList) ∧
      (∀ e ∈ live.toList, e ∈ s.toList ∧
        Covers ((removeExpiredRanges st rest pos).intervals e.stamp).ranges pos) ∧
      (∀ e ∈ other.toList, e ∈ s.toList ∧
        ¬Covers ((removeExpiredRanges st rest pos).intervals e.stamp).ranges pos) ∧
      ∀ e ∈ s.toList, e ∈ live.toList ∨ e ∈ other.toList ∨ e.iend < pos := by
  obtain ⟨before, rest, hsplit, -, hwf, -, hrest⟩ :=
    splitByPos_spec pos hwf fun e he => h.stamp_nonneg hp (hs e he)
  obtain ⟨live, other, hrun, hlive, hother, hmlive, hmother⟩ := Set.partition_spec
    (fun i => Interval.isLive ((removeExpiredRanges st rest pos).intervals i.stamp) pos) hwf
  have hiff : ∀ e ∈ s.toList,
      (Interval.isLive ((removeExpiredRanges st rest pos).intervals e.stamp) pos = true ↔
        Covers ((removeExpiredRanges st rest pos).intervals e.stamp).ranges pos) := fun e he =>
    isLiveInRanges_iff (((trims_removeExpiredRanges st rest pos).trimmed _).sorted
      (h.sorted hp (h.mem_all (h.held_mem (hs e he)).1)))
  refine ⟨before, rest, live, other, hsplit, by rw [partitionLive, hrun]; rfl, hlive, hother,
    fun e he => ((hrest e).mp he).1, fun e he => ?_, fun e he => ?_, fun e he => ?_⟩
  · obtain ⟨hmem, hl⟩ := (hmlive e).mp he
    have hes := ((hrest e).mp hmem).1
    exact ⟨hes, (hiff e hes).mp hl⟩
  · obtain ⟨hmem, hl⟩ := (hmother e).mp he
    have hes := ((hrest e).mp hmem).1
    exact ⟨hes, fun hcov => absurd ((hiff e hes).mpr hcov) (by simp [hl])⟩
  · by_cases hend : pos ≤ e.iend
    · have hmem := (hrest e).mpr ⟨he, hend⟩
      cases hl : Interval.isLive ((removeExpiredRanges st rest pos).intervals e.stamp) pos with
      | true => exact .inl ((hmlive e).mpr ⟨hmem, hl⟩)
      | false => exact .inr (.inl ((hmother e).mpr ⟨hmem, hl⟩))
    · exact .inr (.inr (Int.not_le.mp hend))

theorem releaseExpiredActive_spec (phys : PhysEq) :
    ∃ st' s, releaseExpiredActive phys st cl pos = .ok st' ∧ Releases pos cl s st st' ∧
      ∀ e ∈ (st'.active cl).active.toList, Covers (st'.intervals e.stamp).ranges pos := by
  have hok := h.classOk cl
  obtain ⟨before, rest, live, other, hsplit, hpart, hlive, hother, hrest, hmlive, hmother, hmem⟩ :=
    splitLive_spec hp h cl hok.wfActive fun e he => .inr (.inl he)
  obtain ⟨inactive, hunion, hwfi, hminactive⟩ := ofSet_gives
    (Set.union_gives totalOrder_compare phys other (st.active cl).inactive hother hok.wfInactive)
  have hrun : releaseExpiredActive phys st cl pos = .ok ((removeExpiredRanges st rest pos).setClass
      cl { st.active cl with active := live, inactive }) := by
    rw [releaseExpiredActive, hsplit]
    simp only [ok_bind, hpart, hunion, pure_eq_ok]
  refine ⟨_, rest, hrun, (trims_removeExpiredRanges st rest pos).setClass
    (fun e he => .inr (.inl (hrest e he))) ⟨hok.wfFixed, hlive, hwfi, hok.wfSpilled, hok.wfFree,
      fun _ => id, fun e he => ?_, fun _ => id, fun e he hin => ?_, fun e he => ?_⟩, ?_⟩
  · rcases he with he | he
    · exact .inl (hmlive e he).1
    · exact ((hminactive e).mp he).imp_left fun he => (hmother e he).1
  · rcases (hminactive e).mp hin with hin | hin
    · exact (hmother e hin).2 (hmlive e he).2
    · exact hok.disjoint e (hmlive e he).1 hin
  · rcases he with he | he | he
    · exact .inl (.inl he)
    · rcases hmem e he with he | he | he
      · exact .inl (.inr (.inl he))
      · exact .inl (.inr (.inr ((hminactive e).mpr (.inl he))))
      · exact .inr he
    · exact .inl (.inr (.inr ((hminactive e).mpr (.inr he))))
  · intro e he
    rw [State.setClass] at he
    dsimp only at he
    rw [Function.update_self] at he
    exact (hmlive e he).2

theorem releaseExpiredInactive_spec (phys : PhysEq)
    (hlive0 : ∀ e ∈ (st.active cl).active.toList, Covers (st.intervals e.stamp).ranges pos) :
    ∃ st' s, releaseExpiredInactive phys st cl pos = .ok st' ∧ Releases pos cl s st st' ∧
      ∀ e ∈ (st'.active cl).active.toList, Covers (st'.intervals e.stamp).ranges pos := by
  have hok := h.classOk cl
  obtain ⟨before, rest, live, other, hsplit, hpart, hlive, hother, hrest, hmlive, hmother, hmem⟩ :=
    splitLive_spec hp h cl hok.wfInactive fun e he => .inr (.inr he)
  have hheld : ∀ e ∈ rest.toList, Held (st.active cl) e := fun e he => .inr (.inr (hrest e he))
  have ht := trims_removeExpiredRanges st rest pos
  obtain ⟨active, hunion, hwfa, hmactive⟩ := ofSet_gives
    (Set.union_gives totalOrder_compare phys live (st.active cl).active hlive hok.wfActive)
  have hrun : releaseExpiredInactive phys st cl pos = .ok
      ((removeExpiredRanges st rest pos).setClass cl
        { st.active cl with active, inactive := other }) := by
    rw [releaseExpiredInactive, hsplit]
    simp only [ok_bind, hpart, hunion, pure_eq_ok]
  refine ⟨_, rest, hrun,
    ht.setClass hheld ⟨hok.wfFixed, hwfa, hother, hok.wfSpilled, hok.wfFree, fun _ => id,
      fun e he => ?_, fun _ => id, fun e he hin => ?_, fun e he => ?_⟩, ?_⟩
  · rcases he with he | he
    · exact ((hmactive e).mp he).symm.imp_right fun he => (hmlive e he).1
    · exact .inr (hmother e he).1
  · rcases (hmactive e).mp he with he | he
    · exact (hmother e hin).2 (hmlive e he).2
    · exact hok.disjoint e he (hmother e hin).1
  · rcases he with he | he | he
    · exact .inl (.inl he)
    · exact .inl (.inr (.inl ((hmactive e).mpr (.inr he))))
    · rcases hmem e he with he | he | he
      · exact .inl (.inr (.inl ((hmactive e).mpr (.inl he))))
      · exact .inl (.inr (.inr he))
      · exact .inr he
  · intro e he
    rw [State.setClass] at he
    dsimp only at he
    rw [Function.update_self] at he
    rcases (hmactive e).mp he with he | he
    · exact (hmlive e he).2
    · -- an active interval is not trimmed again
      have hsame := ht.other e.stamp fun e' he' heq => by
        have h1 := (h.held_mem (hheld e' he')).2.2
        have h2 := (h.held_mem (show Held (st.active cl) e from .inr (.inl he))).2.2
        rw [heq, ← h2] at h1
        exact hok.disjoint e he (h1 ▸ hrest e' he')
      change Covers ((removeExpiredRanges st rest pos).intervals e.stamp).ranges pos
      rw [hsame]
      exact hlive0 e he

/-- The slots of the spilled intervals that have ended become free. -/
theorem releaseExpiredSpilled_spec (phys : PhysEq) :
    ∃ free rest, releaseExpiredSpilled phys st cl pos = .ok (st.setClass cl
        { st.active cl with freeSlots := free, spilled := rest }) ∧
      Set.WellFormed slotCompare free ∧ Set.WellFormed compare rest ∧
      (∀ ss, ss ∈ free.toList ↔ ss ∈ (st.active cl).freeSlots.toList ∨
        ∃ e ∈ (st.active cl).spilled.toList, e.iend < pos ∧
          (st.intervals e.stamp).loc = .stack (.local ss)) ∧
      ∀ e, e ∈ rest.toList ↔ e ∈ (st.active cl).spilled.toList ∧ pos ≤ e.iend := by
  have hok := h.classOk cl
  obtain ⟨expired, rest, hsplit, -, hwf, hexpired, hrest⟩ :=
    splitByPos_spec pos hok.wfSpilled fun e he =>
      hp.stamp _ (mem_append_right _ (h.doneMem _ (hok.spilledMem e he).1.1))
  obtain ⟨free, hfold, hfree, hmem⟩ := foldlM_rule (l := expired.toList)
    (f := fun free i => do
      let ss ← slotOfSpilled st i
      ofSet (Set.add slotCompare (phys.sub ss) ss free))
    (I := fun seen free => Set.WellFormed slotCompare free ∧
      ∀ ss, ss ∈ free.toList ↔ ss ∈ (st.active cl).freeSlots.toList ∨
        ∃ e ∈ seen, (st.intervals e.stamp).loc = .stack (.local ss))
    (fun seen e rest free hlist hI => by
      have he : e ∈ expired.toList := hlist ▸ mem_append_right _ mem_cons_self
      obtain ⟨-, ss, hss⟩ := hok.spilledMem e ((hexpired e).mp he).1
      obtain ⟨t, ht, hwt, hmt⟩ := ofSet_gives
        (Set.add_gives totalOrder_slotCompare (phys.sub ss) ss hI.1)
      have hslot : slotOfSpilled st e = .ok ss := by rw [slotOfSpilled, hss]
      refine ⟨t, by rw [hslot, ok_bind, ht], hwt, fun s => ?_⟩
      rw [hmt, hI.2]
      simp only [mem_append, mem_singleton, or_and_right, exists_or, exists_eq_left, hss,
        Location.stack.injEq, StackLocation.local.injEq]
      rw [eq_comm, or_comm, or_assoc])
    ⟨hok.wfFree, by simp⟩
  have hrun : releaseExpiredSpilled phys st cl pos = .ok (st.setClass cl
      { st.active cl with freeSlots := free, spilled := rest }) := by
    rw [releaseExpiredSpilled, hsplit]
    simp only [ok_bind, Set.iter_eq, hfold, pure_eq_ok]
  refine ⟨free, rest, hrun, hfree, hwf, fun ss => ?_, hrest⟩
  rw [hmem]
  simp only [hexpired, and_assoc]

end Class

/-- The stack slots are of no concern to the hardware registers. -/
theorem Inv.releases_slots (h : Inv proc table intervals fixed done pos st)
    {free : Set.T Nat} {rest : IntervalSet}
    (hfree : Set.WellFormed slotCompare free) (hwf : Set.WellFormed compare rest)
    (hrest : ∀ e ∈ rest.toList, e ∈ (st.active cl).spilled.toList) :
    Releases pos cl Set.empty st
      (st.setClass cl { st.active cl with freeSlots := free, spilled := rest }) := by
  have hok := h.classOk cl
  exact Trims.setClass ⟨rfl, rfl, fun _ => .refl _ _, fun _ => rfl, fun _ _ => rfl⟩
    (fun e he => (not_mem_nil he).elim)
    ⟨hok.wfFixed, hok.wfActive, hok.wfInactive, hwf, hfree, fun _ => id, fun _ => id, hrest,
      hok.disjoint, fun _ => .inl⟩

/-! ## All classes -/

/-- The active intervals of a class are live at the position. -/
def Live (pos : Int) (st : State proc) (cl : Fin proc.numRegisterClasses) : Prop :=
  ∀ e ∈ (st.active cl).active.toList, Covers (st.intervals e.stamp).ranges pos

section

variable (hp : Problem proc table intervals fixed) (h : Inv proc table intervals fixed done pos st)
  (phys : PhysEq)

include hp h phys

/-- What a class is after its release; the other classes are as before. -/
theorem releaseExpired_spec (cl : Fin proc.numRegisterClasses) :
    ∃ st', releaseExpired phys pos st cl = .ok st' ∧ Inv proc table intervals fixed done pos st' ∧
      Live pos st' cl ∧ ∀ cl', cl' ≠ cl → Live pos st cl' → Live pos st' cl' := by
  -- a release of one class does not change whether the intervals of another one are live
  have hframe : ∀ {s : IntervalSet} {st1 st2 : State proc},
      Inv proc table intervals fixed done pos st1 → Releases pos cl s st1 st2 →
      ∀ cl', cl' ≠ cl → Live pos st1 cl' → Live pos st2 cl' := by
    intro s st1 st2 h1 hr cl' hne hlive e he
    rw [hr.other cl' hne] at he
    have hcl := (h1.held_mem (.inr (.inl he))).2.1
    rw [hr.otherClass h1 (hcl ▸ hne)]
    exact hlive e he
  obtain ⟨st1, s1, hrun1, hr1, -⟩ := releaseExpiredFixed_spec hp h cl
  have h1 := hr1.inv hp h
  obtain ⟨st2, s2, hrun2, hr2, hlive2⟩ := releaseExpiredActive_spec hp h1 cl (phys.sub 0)
  have h2 := hr2.inv hp h1
  obtain ⟨st3, s3, hrun3, hr3, hlive3⟩ := releaseExpiredInactive_spec hp h2 cl (phys.sub 1) hlive2
  have h3 := hr3.inv hp h2
  obtain ⟨free, rest, hrun4, hfree, hwf, -, hrest⟩ :=
    releaseExpiredSpilled_spec hp h3 cl (phys.sub 2)
  have hr4 := h3.releases_slots hfree hwf fun e he => ((hrest e).mp he).1
  refine ⟨_, ?_, hr4.inv hp h3, fun e he => hlive3 e ?_, fun cl' hne hlive => ?_⟩
  · rw [releaseExpired, hrun1, ok_bind, hrun2, ok_bind, hrun3, ok_bind, hrun4]
  · simpa [State.setClass] using he
  · exact hframe h3 hr4 cl' hne (hframe h2 hr3 cl' hne (hframe h1 hr2 cl' hne
      (hframe h hr1 cl' hne hlive)))

/-- **After the releases, the active intervals of all classes are live.** -/
theorem releaseAll_spec : ∃ st', (List.finRange proc.numRegisterClasses).foldlM
        (fun st (cl : Fin proc.numRegisterClasses) => releaseExpired (phys.sub cl) pos st cl) st =
          .ok st' ∧
      Inv proc table intervals fixed done pos st' ∧ ∀ cl, Live pos st' cl := by
  obtain ⟨st', hrun, hinv, hlive⟩ := foldlM_rule
    (I := fun seen st' => Inv proc table intervals fixed done pos st' ∧
      ∀ cl ∈ seen, Live pos st' cl) (l := List.finRange proc.numRegisterClasses)
    (f := fun st (cl : Fin proc.numRegisterClasses) => releaseExpired (phys.sub cl) pos st cl)
    (fun seen cl rest st1 _ h1 => by
      obtain ⟨st2, hrun, hinv, hlive, hother⟩ := releaseExpired_spec hp h1.1 (phys.sub cl) cl
      refine ⟨st2, hrun, hinv, fun cl' hcl' => ?_⟩
      by_cases hne : cl' = cl
      · exact hne ▸ hlive
      · rcases mem_append.mp hcl' with hcl' | hcl'
        · exact hother cl' hne (h1.2 cl' hcl')
        · exact absurd (mem_singleton.mp hcl') hne)
    ⟨h, by simp⟩
  exact ⟨st', hrun, hinv, fun cl => hlive cl (mem_finRange cl)⟩

end

end TravLang.Linscan
