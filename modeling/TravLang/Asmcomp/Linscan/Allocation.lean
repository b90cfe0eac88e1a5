import TravLang.Asmcomp.Linscan.Release

/-!
# Hardware registers never clash

An interval gets a register that no active interval has, and that the inactive and the fixed
intervals do not need at its positions; or else it takes the register of the active interval that
ends last, which goes to the stack.
-/

namespace TravLang.Linscan

open TravLang.Asmcomp List
open TravLang.Interval (Sorted Covers overlapRanges_iff)
open Map (PhysEq)

variable {proc : Proc} {table : Int → Interval.T} {intervals fixed done done' : List Int}
  {pos i : Int} {st : State proc} {ci : ClassIntervals}

/-! ## Changes of a location -/

/-- A location is given to the interval `i`, and the sets of its class become `ci`. -/
def State.relocate (st : State proc) (i : Int) (loc : Location) (spill : Bool)
    (cl : Fin proc.numRegisterClasses) (ci : ClassIntervals)
    (numStackSlots : Fin proc.numRegisterClasses → Nat) : State proc where
  intervals := Function.update st.intervals i { st.intervals i with loc, spill }
  active := Function.update st.active cl ci
  numStackSlots := numStackSlots

section Relocate

variable {loc : Location} {spill : Bool} {cl : Fin proc.numRegisterClasses}
  {num : Fin proc.numRegisterClasses → Nat}

theorem relocate_self :
    (st.relocate i loc spill cl ci num).intervals i = { st.intervals i with loc, spill } :=
  Function.update_self ..

theorem relocate_of_ne {j : Int} (h : j ≠ i) :
    (st.relocate i loc spill cl ci num).intervals j = st.intervals j :=
  Function.update_of_ne h ..

theorem relocate_active_self : (st.relocate i loc spill cl ci num).active cl = ci :=
  Function.update_self ..

theorem relocate_active_of_ne {cl' : Fin proc.numRegisterClasses} (h : cl' ≠ cl) :
    (st.relocate i loc spill cl ci num).active cl' = st.active cl' :=
  Function.update_of_ne h ..

/-- The sets of another class do not know of the interval. -/
theorem ClassOk.relocate (hok : ClassOk proc table fixed done st.intervals cl (st.active cl))
    (hcl : cl ≠ classOf proc table i) (hsub : ∀ x ∈ done, x ∈ done') :
    ClassOk proc table fixed done'
      (st.relocate i loc spill (classOf proc table i) ci num).intervals cl (st.active cl) := by
  have hne : ∀ x, classOf proc table x = cl → x ≠ i := fun x hx he => hcl (he ▸ hx.symm)
  refine { hok with walkedMem := fun e he => ?_, spilledMem := fun e he => ?_ }
  · obtain ⟨⟨hmem, hcl', heq⟩, hloc⟩ := hok.walkedMem e he
    rw [relocate_of_ne (hne _ hcl')]
    exact ⟨⟨hsub _ hmem, hcl', heq⟩, hloc⟩
  · obtain ⟨⟨hmem, hcl'⟩, hloc⟩ := hok.spilledMem e he
    rw [relocate_of_ne (hne _ hcl')]
    exact ⟨⟨hsub _ hmem, hcl'⟩, hloc⟩

theorem trimmed_relocate (h : Inv proc table intervals fixed done pos st)
    (j : Int) : Trimmed pos (table j) ((st.relocate i loc spill cl ci num).intervals j) := by
  by_cases hj : j = i
  · subst hj
    rw [relocate_self]
    exact (h.trimmed j).trans (trimmed_loc pos _ loc spill)
  · rw [relocate_of_ne hj]
    exact h.trimmed j

/-- The register `k` of a class is free for the interval `i`: the intervals of the sets that have
it do not need it at the positions of `i`. -/
def FreeFor (table : Int → Interval.T) (i : Int) (k : Int) (st : State proc) : Prop :=
  ∀ e, Held (st.active (classOf proc table i)) e → (st.intervals e.stamp).loc = .reg k →
    ∀ p, Covers (st.intervals e.stamp).ranges p → ¬Covers (table i).ranges p

/-- **A new location keeps the invariant** if the other intervals of the class stay held, and a
register is free for the interval. -/
theorem Inv.relocate (h : Inv proc table intervals fixed done pos st)
    (hp : Problem proc table intervals fixed) (hi : i ∈ intervals)
    (hdone : ∀ x, x ∈ done' ↔ x ∈ done ∨ x = i)
    (hok : ClassOk proc table fixed done'
      (st.relocate i loc spill (classOf proc table i) ci num).intervals (classOf proc table i) ci)
    (hheld : ∀ e, e.stamp ≠ i → (Held ci e ↔ Held (st.active (classOf proc table i)) e))
    (hreg : ∀ k, loc = .reg k → i ∉ done ∧ pos ≤ (table i).ibegin ∧ FreeFor table i k st ∧
      Held ci (handle table i)) :
    Inv proc table intervals fixed done' pos
      (st.relocate i loc spill (classOf proc table i) ci num) := by
  have hfix := hp.not_mem_fixed hi
  have hmem : ∀ x ∈ fixed ++ done', x ≠ i → x ∈ fixed ++ done := by
    intro x hx hne
    rcases mem_append.mp hx with hx | hx
    · exact mem_append_left _ hx
    · exact mem_append_right _ (((hdone x).mp hx).resolve_right hne)
  -- another interval is held as before, and the interval itself only in its class
  have hother : ∀ cl e, e.stamp ≠ i → (Held ((st.relocate i loc spill (classOf proc table i) ci
      num).active cl) e ↔ Held (st.active cl) e) := by
    intro cl e hne
    by_cases hcl : cl = classOf proc table i
    · subst hcl
      rw [relocate_active_self]
      exact hheld e hne
    · rw [relocate_active_of_ne hcl]
  have hself : ∀ cl e, Held ((st.relocate i loc spill (classOf proc table i) ci num).active cl) e →
      e.stamp = i → cl = classOf proc table i := by
    intro cl e he heq
    by_contra hcl
    rw [relocate_active_of_ne hcl] at he
    exact hcl (heq ▸ (h.held_mem he).2.1.symm)
  -- an interval with the register of `i` does not need it where `i` does
  have hapart : ∀ e k, loc = .reg k → Held (st.active (classOf proc table i)) e →
      (st.intervals e.stamp).loc = .reg k → ∀ p, Covers (st.intervals i).ranges p →
      ¬Covers (st.intervals e.stamp).ranges p := by
    intro e k hk he hek p hcov hcov'
    obtain ⟨hnew, -, hfree, -⟩ := hreg k hk
    rw [h.fresh i hi hnew] at hcov
    exact hfree e he hek p hcov' hcov
  have hclash : ∀ x ∈ fixed ++ done, classOf proc table x = classOf proc table i →
      ∀ k, loc = .reg k → (st.intervals x).loc = .reg k → ¬Clash (table x) (table i) := by
    rintro x hx hcl k hk hxk ⟨p, ⟨hxp, hxp'⟩, hip, hip'⟩
    obtain ⟨-, hpos, hfree, -⟩ := hreg k hk
    have hge := hp.ibegin_le (mem_append_right _ hi) hip
    rcases h.held x hx _ hxk with hhold | hend
    · rw [hcl] at hhold
      exact hfree _ hhold hxk (p + 1) ((h.trimmed x).keep (p + 1) (by omega) hxp') hip'
    · have := hp.le_iend (h.mem_all hx) hxp
      omega
  refine ⟨fun x hx => ?_, trimmed_relocate h, fun x hx hnd => ?_, fun x hx => ?_, fun cl => ?_,
    fun cl => ?_, fun x hx k hk => ?_, fun x hx y hy hne hf hcl k hxk hyk => ?_⟩
  · rcases (hdone x).mp hx with hx | rfl
    · exact h.doneMem x hx
    · exact hi
  · have hxi : x ≠ i := fun he => hnd ((hdone x).mpr (.inr he))
    rw [relocate_of_ne hxi]
    exact h.fresh x hx fun hd => hnd ((hdone x).mpr (.inl hd))
  · have hxi : x ≠ i := fun he => hfix (he ▸ hx)
    rw [relocate_of_ne hxi]
    exact h.fixedLoc x hx
  · by_cases hcl : cl = classOf proc table i
    · subst hcl
      rwa [relocate_active_self]
    · rw [relocate_active_of_ne hcl]
      exact (h.classOk cl).relocate hcl fun x hx => (hdone x).mpr (.inl hx)
  · intro e e' he he' hne hf k hk hk' p hcov hcov'
    by_cases hei : e.stamp = i
    · have hei' : e'.stamp ≠ i := fun hei' => hne (hei.trans hei'.symm)
      obtain rfl := hself cl e he hei
      rw [hei, relocate_self] at hk hcov
      rw [relocate_of_ne hei'] at hk' hcov'
      exact hapart e' k hk ((hother _ e' hei').mp he') hk' p hcov hcov'
    · rw [relocate_of_ne hei] at hk hcov
      by_cases hei' : e'.stamp = i
      · obtain rfl := hself cl e' he' hei'
        rw [hei', relocate_self] at hk' hcov'
        exact hapart e k hk' ((hother _ e hei).mp he) hk p hcov' hcov
      · rw [relocate_of_ne hei'] at hk' hcov'
        exact h.apart cl e e' ((hother cl e hei).mp he) ((hother cl e' hei').mp he') hne hf k hk hk'
          p hcov hcov'
  · by_cases hxi : x = i
    · subst hxi
      rw [relocate_self] at hk
      rw [relocate_active_self]
      exact .inl (hreg k hk).2.2.2
    · rw [relocate_of_ne hxi] at hk
      exact (h.held x (hmem x hx hxi) k hk).imp (hother _ (handle table x) hxi).mpr id
  · by_cases hxi : x = i
    · have hyi : y ≠ i := fun hyi => hne (hxi.trans hyi.symm)
      rw [hxi, relocate_self] at hxk
      rw [relocate_of_ne hyi] at hyk
      rw [hxi] at hcl ⊢
      exact fun hc => hclash y (hmem y hy hyi) hcl.symm k hxk hyk hc.symm
    · rw [relocate_of_ne hxi] at hxk
      by_cases hyi : y = i
      · rw [hyi, relocate_self] at hyk
        rw [hyi] at hcl ⊢
        exact hclash x (hmem x hx hxi) hcl k hyk hxk
      · rw [relocate_of_ne hyi] at hyk
        exact h.noClash x (hmem x hx hxi) y (hmem y hy hyi) hne hf hcl k hxk hyk

end Relocate

/-- The new sets of a class when the interval `i` goes to the stack -/
structure Spills (table : Int → Interval.T) (i : Int) (ci ci' : ClassIntervals) : Prop where
  fixed : ci'.fixed = ci.fixed
  inactive : ci'.inactive = ci.inactive
  wfActive : Set.WellFormed compare ci'.active
  wfSpilled : Set.WellFormed compare ci'.spilled
  wfFree : Set.WellFormed slotCompare ci'.freeSlots
  active : ∀ e, e ∈ ci'.active.toList ↔ e ∈ ci.active.toList ∧ e.stamp ≠ i
  spilled : ∀ e, e ∈ ci'.spilled.toList ↔ e = handle table i ∨ e ∈ ci.spilled.toList
  notInactive : ∀ e ∈ ci.inactive.toList, e.stamp ≠ i

/-- **An interval that goes to the stack keeps the invariant.** -/
theorem Inv.spill (h : Inv proc table intervals fixed done pos st)
    (hp : Problem proc table intervals fixed) (hi : i ∈ intervals)
    (hdone : ∀ x, x ∈ done' ↔ x ∈ done ∨ x = i)
    (hci : Spills table i (st.active (classOf proc table i)) ci) (ss : Nat) (spill : Bool)
    (num : Fin proc.numRegisterClasses → Nat) :
    Inv proc table intervals fixed done' pos
      (st.relocate i (.stack (.local ss)) spill (classOf proc table i) ci num) := by
  have hok := h.classOk (classOf proc table i)
  refine h.relocate hp hi hdone ⟨hci.fixed ▸ hok.wfFixed, hci.wfActive,
    hci.inactive ▸ hok.wfInactive, hci.wfSpilled, hci.wfFree, hci.fixed ▸ hok.fixedMem,
    fun e he => ?_, fun e he => ?_, fun e he => ?_⟩ (fun e hne => ?_) (fun k hk => by cases hk)
  · have hwas : (e ∈ (st.active (classOf proc table i)).active.toList ∨
        e ∈ (st.active (classOf proc table i)).inactive.toList) ∧ e.stamp ≠ i := by
      rcases he with he | he
      · obtain ⟨he, hne⟩ := (hci.active e).mp he
        exact ⟨.inl he, hne⟩
      · rw [hci.inactive] at he
        exact ⟨.inr he, hci.notInactive e he⟩
    obtain ⟨⟨hmem, hrest⟩, hloc⟩ := hok.walkedMem e hwas.1
    rw [relocate_of_ne hwas.2]
    exact ⟨⟨(hdone _).mpr (.inl hmem), hrest⟩, hloc⟩
  · rcases (hci.spilled e).mp he with rfl | he
    · refine ⟨⟨(hdone _).mpr (.inr rfl), rfl⟩, ss, ?_⟩
      rw [handle, relocate_self]
    · obtain ⟨⟨hmem, hcl⟩, ss', hss⟩ := hok.spilledMem e he
      refine ⟨⟨(hdone _).mpr (.inl hmem), hcl⟩, ?_⟩
      by_cases hei : e.stamp = i
      · exact ⟨ss, by rw [hei, relocate_self]⟩
      · exact ⟨ss', by rw [relocate_of_ne hei, hss]⟩
  · rw [hci.inactive]
    exact hok.disjoint e ((hci.active e).mp he).1
  · simp [Held, hci.fixed, hci.inactive, hci.active, hne]

/-- The new sets of a class when the interval `i` gets a register -/
structure Activates (table : Int → Interval.T) (i : Int) (ci ci' : ClassIntervals) : Prop where
  fixed : ci'.fixed = ci.fixed
  inactive : ci'.inactive = ci.inactive
  spilled : ci'.spilled = ci.spilled
  freeSlots : ci'.freeSlots = ci.freeSlots
  wfActive : Set.WellFormed compare ci'.active
  active : ∀ e, e ∈ ci'.active.toList ↔ e = handle table i ∨ e ∈ ci.active.toList

/-- **An interval that gets a free register keeps the invariant.** -/
theorem Inv.assign (h : Inv proc table intervals fixed done pos st)
    (hp : Problem proc table intervals fixed) (hi : i ∈ intervals) (hnew : i ∉ done)
    (hpos : pos ≤ (table i).ibegin) {k : Nat}
    (hfree : FreeFor table i (proc.firstAvailableRegister (classOf proc table i) + k) st)
    (hci : Activates table i (st.active (classOf proc table i)) ci) (spill : Bool)
    (num : Fin proc.numRegisterClasses → Nat) :
    Inv proc table intervals fixed (done ++ [i]) pos
      (st.relocate i (.reg (proc.firstAvailableRegister (classOf proc table i) + k)) spill
        (classOf proc table i) ci num) := by
  have hok := h.classOk (classOf proc table i)
  have hne : ∀ x ∈ done, x ≠ i := fun x hx he => hnew (he ▸ hx)
  refine h.relocate hp hi (fun x => by simp) ⟨hci.fixed ▸ hok.wfFixed, hci.wfActive,
    hci.inactive ▸ hok.wfInactive, hci.spilled ▸ hok.wfSpilled, hci.freeSlots ▸ hok.wfFree,
    hci.fixed ▸ hok.fixedMem, fun e he => ?_, fun e he => ?_, fun e he => ?_⟩
    (fun e he => ?_) (fun k' hk => ?_)
  · have hold : e = handle table i ∨ (e ∈ (st.active (classOf proc table i)).active.toList ∨
        e ∈ (st.active (classOf proc table i)).inactive.toList) := by
      rcases he with he | he
      · exact ((hci.active e).mp he).imp id .inl
      · exact .inr (.inr (hci.inactive ▸ he))
    rcases hold with rfl | hold
    · refine ⟨⟨mem_append_right _ mem_cons_self, rfl, rfl⟩, k, ?_⟩
      rw [handle, relocate_self]
    · obtain ⟨⟨hmem, hrest⟩, hloc⟩ := hok.walkedMem e hold
      rw [relocate_of_ne (hne _ hmem)]
      exact ⟨⟨mem_append_left _ hmem, hrest⟩, hloc⟩
  · rw [hci.spilled] at he
    obtain ⟨⟨hmem, hcl⟩, hloc⟩ := hok.spilledMem e he
    rw [relocate_of_ne (hne _ hmem)]
    exact ⟨⟨mem_append_left _ hmem, hcl⟩, hloc⟩
  · rw [hci.inactive]
    rcases (hci.active e).mp he with rfl | he
    · exact fun hin => hne _ (hok.walkedMem _ (.inr hin)).1.1 rfl
    · exact hok.disjoint e he
  · have hhandle : e ≠ handle table i := fun heq => he (heq ▸ rfl)
    simp [Held, hci.fixed, hci.inactive, hci.active, hhandle]
  · cases hk
    exact ⟨hnew, hpos, hfree, .inr (.inl ((hci.active _).mpr (.inl rfl)))⟩

/-- An interval that has its location already is left alone. -/
theorem Inv.skip (h : Inv proc table intervals fixed done pos st) (hi : i ∈ intervals)
    (hloc : ∀ k, (st.intervals i).loc ≠ .reg k) :
    Inv proc table intervals fixed (done ++ [i]) pos st := by
  have hsub : ∀ x ∈ done, x ∈ done ++ [i] := fun x hx => mem_append_left _ hx
  have hmem : ∀ x ∈ fixed ++ (done ++ [i]), ∀ k, (st.intervals x).loc = .reg k →
      x ∈ fixed ++ done := by
    intro x hx k hk
    rw [← append_assoc] at hx
    refine (mem_append.mp hx).resolve_right fun he => ?_
    rw [mem_singleton.mp he] at hk
    exact hloc k hk
  refine ⟨fun x hx => ?_, h.trimmed, fun x hx hnd => h.fresh x hx fun hd => hnd (hsub x hd),
    h.fixedLoc, fun cl => ?_, h.apart, fun x hx k hk => h.held x (hmem x hx k hk) k hk,
    fun x hx y hy hne hf hcl k hxk hyk =>
      h.noClash x (hmem x hx k hxk) y (hmem y hy k hyk) hne hf hcl k hxk hyk⟩
  · rcases mem_append.mp hx with hx | hx
    · exact h.doneMem x hx
    · exact mem_singleton.mp hx ▸ hi
  · have hok := h.classOk cl
    refine { hok with walkedMem := fun e he => ?_, spilledMem := fun e he => ?_ }
    · obtain ⟨⟨hmem, hrest⟩, hloc⟩ := hok.walkedMem e he
      exact ⟨⟨hsub _ hmem, hrest⟩, hloc⟩
    · obtain ⟨⟨hmem, hcl⟩, hloc⟩ := hok.spilledMem e he
      exact ⟨⟨hsub _ hmem, hcl⟩, hloc⟩

end TravLang.Linscan
