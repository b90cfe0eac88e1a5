import TravLang.Asmcomp.Coloring.Validity

/-!
# The three passes

Spilled registers are preallocated in the stack, then the constrained registers get a place, and
last the unconstrained ones. Every register is in one of these groups, and each pass keeps the
coloring proper.
-/

namespace TravLang.Coloring

open TravLang.Asmcomp List Function
open TravLang.Runtime (Host InRange int_of_inRange)

variable {proc : Proc} {n : Nat} {host : Host} {all : List (Fin n)} {regs : Fin n → Reg n} {t : Nat}
  {st st' : State proc n} {cl : Fin proc.numRegisterClasses} {r : Fin n}

/-! ## Assignment -/

/-- A step that gives a location to `r` and leaves those of other registers alone. -/
structure Assigns (st : State proc n) (r : Fin n) (st' : State proc n) : Prop where
  self : (st'.regs r).loc ≠ .unknown
  other : ∀ u, u ≠ r → (st'.regs u).loc = (st.regs u).loc
  unconstrained : st'.unconstrained = st.unconstrained

theorem Assigns.keeps (h : Assigns st r st') {u : Fin n} (hu : (st.regs u).loc ≠ .unknown) :
    (st'.regs u).loc ≠ .unknown := by
  by_cases hur : u = r
  · exact hur ▸ h.self
  · rwa [h.other u hur]

theorem Assigns.of_update {reg : Reg n} (hregs : st'.regs = update st.regs r reg)
    (hloc : reg.loc ≠ .unknown) (hunc : st'.unconstrained = st.unconstrained) :
    Assigns st r st' := by
  refine ⟨?_, fun u hu => ?_, hunc⟩
  · rwa [hregs, update_self]
  · rw [hregs, update_of_ne hu]

theorem Assigns.of_remark {v : Fin n → Int} {g : Int} (h : Assigns (st.remark v g) r st') :
    Assigns st r st' :=
  ⟨h.self, h.other, h.unconstrained⟩

/-- **`assign_location` gives a register a location that none of its neighbours has.** -/
theorem assignLocation_spec (hv : Valid all regs st) (hp : Problem host proc all regs t)
    (hr : r ∈ all) :
    ∃ st', assignLocation host st r = .ok st' ∧ Valid all regs st' ∧ Assigns st r st' := by
  obtain ⟨v, g, best, hrun, hbest⟩ := bestRegister_spec hv hp hr rfl
  unfold assignLocation
  rw [hrun, Result.ok_bind]
  dsimp only
  split
  · next hpos =>
    obtain ⟨k, rfl, hk, hfree⟩ := hbest.resolve_left (Int.not_lt.mpr hpos)
    have hloc : Located proc (registerClass st r) (st.numStackSlots (registerClass st r))
        (.reg (proc.firstAvailableRegister (registerClass st r) + k)) := .inl ⟨k, hk, rfl⟩
    refine ⟨_, rfl, ?_, ?_⟩
    · split
      · refine (hv.remark v g).assign hp hr rfl rfl rfl (.inr rfl) (fun _ => Nat.le_refl _) ?_
          hloc hfree
        intro cl
        dsimp only
        rw [update_apply]
        split
        · next hcl =>
          subst hcl
          split
          · exact Nat.zero_le _
          · next hlt => exact Nat.le_of_lt (Nat.lt_of_not_ge hlt)
        · exact hv.start cl
      · exact (hv.remark v g).assign hp hr rfl rfl rfl (.inr rfl) (fun _ => Nat.le_refl _) hv.start
          hloc hfree
    · split <;> exact Assigns.of_remark (.of_update rfl hloc.ne_unknown rfl)
  · obtain ⟨slot, hslot, hbest⟩ := bestSlot_spec (hv.remark v g) hp hr rfl
    rw [hslot, Result.ok_bind]
    split
    · next hpos =>
      obtain ⟨k, rfl, hk, hfree⟩ := hbest.resolve_left (Int.not_lt.mpr hpos)
      have hloc : Located proc (registerClass st r) (st.numStackSlots (registerClass st r))
        (.stack (.local k)) := .inr ⟨k, hk, rfl⟩
      refine ⟨_, rfl, ?_, Assigns.of_remark (.of_update rfl hloc.ne_unknown rfl)⟩
      exact (hv.remark v g).assign hp hr rfl rfl rfl (.inr rfl) (fun _ => Nat.le_refl _) hv.start
        hloc hfree
    · -- all slots in use are of neighbours, or have too low a score
      have hloc : Located proc (registerClass st r) (st.numStackSlots (registerClass st r) + 1)
        (.stack (.local (st.numStackSlots (registerClass st r)))) :=
        .inr ⟨_, Nat.lt_succ_self _, rfl⟩
      refine ⟨_, rfl, ?_, Assigns.of_remark (.of_update rfl hloc.ne_unknown rfl)⟩
      refine (hv.remark v g).assign hp hr rfl rfl rfl (.inr rfl) ?_ hv.start ?_ ?_
      · intro cl
        dsimp only [State.setReg, State.remark]
        rw [update_apply]
        split
        · next hcl => exact hcl ▸ Nat.le_succ _
        · exact Nat.le_refl _
      · change Located proc (registerClass st r)
          (update st.numStackSlots (registerClass st r) _ (registerClass st r)) _
        rw [update_self]
        exact hloc
      · intro u hu hsame
        have hlt := hv.local_lt hp hsame
        rw [hv.interf_class hp hr hu] at hlt
        exact Nat.lt_irrefl _ hlt

/-- Assignments in sequence: all registers of the list have a location at the end. -/
theorem assignLocations_spec (hp : Problem host proc all regs t) {l : List (Fin n)}
    (hl : ∀ r ∈ l, r ∈ all) (hv : Valid all regs st) :
    ∃ st', l.foldlM (assignLocation host) st = .ok st' ∧ Valid all regs st' ∧
      (∀ r ∈ l, (st'.regs r).loc ≠ .unknown) ∧
      (∀ u, (st.regs u).loc ≠ .unknown → (st'.regs u).loc ≠ .unknown) ∧
      st'.unconstrained = st.unconstrained := by
  refine Result.foldlM_rule (I := fun done st' => Valid all regs st' ∧
      (∀ r ∈ done, (st'.regs r).loc ≠ .unknown) ∧
      (∀ u, (st.regs u).loc ≠ .unknown → (st'.regs u).loc ≠ .unknown) ∧
      st'.unconstrained = st.unconstrained) ?_ ⟨hv, by simp, fun _ => id, rfl⟩
  rintro done r rest st1 hsplit ⟨hv1, hdone, hkeep, hunc⟩
  obtain ⟨st2, hrun, hv2, hassigns⟩ := assignLocation_spec hv1 hp
    (hl r (hsplit ▸ mem_append_right _ mem_cons_self))
  refine ⟨st2, hrun, hv2, fun u hu => ?_, fun u hu => hassigns.keeps (hkeep u hu),
    hassigns.unconstrained.trans hunc⟩
  rcases mem_append.mp hu with hu | hu
  · exact hassigns.keeps (hdone u hu)
  · exact mem_singleton.mp hu ▸ hassigns.self

/-! ## The first pass -/

theorem skipConflicts_spec : ∀ (conflict : List Bool) (slot : Nat),
    ∃ j, skipConflicts slot conflict = slot + j ∧ j ≤ conflict.length ∧ conflict[j]? ≠ some true
  | [], slot => ⟨0, rfl, Nat.le_refl _, by simp⟩
  | false :: conflict, slot => ⟨0, rfl, Nat.zero_le _, by simp⟩
  | true :: conflict, slot => by
    obtain ⟨j, hj, hle, hne⟩ := skipConflicts_spec conflict (slot + 1)
    refine ⟨j + 1, ?_, Nat.succ_le_succ hle, by simpa using hne⟩
    rw [skipConflicts, hj]
    omega

/-- All slots of neighbours are marked. -/
theorem markConflicts_spec (hv : Valid all regs st) (hp : Problem host proc all regs t)
    (hr : r ∈ all) (hcl : registerClass st r = cl) :
    ∃ conflict, markConflicts st cl (st.regs r).interf
        (List.replicate (st.numStackSlots cl) false) = .ok conflict ∧
      conflict.length = st.numStackSlots cl ∧
      ∀ u ∈ (st.regs r).interf, ∀ k, (st.regs u).loc = .stack (.local k) →
        conflict[k]? = some true := by
  refine Result.foldlM_rule (I := fun done (conflict : List Bool) =>
    conflict.length = st.numStackSlots cl ∧ ∀ u ∈ done, ∀ k,
      (st.regs u).loc = .stack (.local k) → conflict[k]? = some true) ?_ ⟨by simp, by simp⟩
  rintro done u rest conflict hsplit ⟨hlen, hmarked⟩
  have hu := (hv.interf_class hp hr
    (hsplit ▸ mem_append_right _ mem_cons_self)).trans hcl
  split
  · next k hk =>
    have hlt : k < conflict.length := by
      rw [hlen, ← hu]
      exact hv.local_lt hp hk
    rw [if_pos hu, set_ok hlt]
    refine ⟨_, rfl, by rw [length_set, hlen], fun x hx j hj => ?_⟩
    rw [List.getElem?_set]
    split
    · rfl
    · next hkj =>
      rcases mem_append.mp hx with hx | hx
      · exact hmarked x hx j hj
      · rw [mem_singleton.mp hx, hk] at hj
        exact absurd (StackLocation.local.inj (Location.stack.inj hj)) hkj
  · next hne =>
    refine ⟨conflict, rfl, hlen, fun x hx j hj => ?_⟩
    rcases mem_append.mp hx with hx | hx
    · exact hmarked x hx j hj
    · exact absurd (mem_singleton.mp hx ▸ hj) (hne j)

/-- The comparison only takes a register for itself, as stamps are distinct. -/
theorem eq_of_compare_eq_zero (hp : Problem host proc all regs t) {regs' : Fin n → Reg n}
    {r1 r2 : Fin n} (h : compare host regs' r1 r2 = 0) : r1 = r2 := by
  have hn : (n : Int) ≤ 2 ^ (host.wordBits - 2) := by exact_mod_cast hp.stamps
  have hint : host.int ((r1.val : Int) - r2.val) = r1.val - r2.val :=
    int_of_inRange ⟨by omega, by omega⟩
  have hstamp : host.int ((r1.val : Int) - r2.val) = 0 := by
    unfold compare at h
    dsimp only at h
    split at h
    · next hne => exact absurd h hne
    · split at h
      · next hne => exact absurd h hne
      · split at h
        · next hne => exact absurd h hne
        · exact h
  exact Fin.ext (by omega)

/-- A register that has a location or waits for one. -/
def Settled (st : State proc n) (r : Fin n) : Prop :=
  (st.regs r).loc ≠ .unknown ∨ r ∈ st.constrained.toList ∨ r ∈ st.unconstrained

/-- What holds in the first pass. -/
structure Sorting (all : List (Fin n)) (regs : Fin n → Reg n) (st : State proc n) : Prop where
  valid : Valid all regs st
  balanced : st.constrained.Balanced
  constrained : ∀ r ∈ st.constrained.toList, r ∈ all
  unconstrained : ∀ r ∈ st.unconstrained, r ∈ all

/-- Only the two sets change. -/
theorem Valid.sets (hv : Valid all regs st) (constrained : Set.T (Fin n))
    (unconstrained : List (Fin n)) : Valid all regs { st with constrained, unconstrained } :=
  ⟨hv.typ, hv.interf, hv.prefer, hv.precolored, hv.located, hv.proper, hv.start⟩

section

variable (phys : Fin n → Map.PhysEq) (hs : Sorting all regs st) (hp : Problem host proc all regs t)
  (hr : r ∈ all)

include phys hs hp hr

/-- The preallocation of a spilled register -/
theorem removeReg_spilled (hspill : (st.regs r).spill) :
    ∃ st', removeReg host phys st r = .ok st' ∧ Sorting all regs st' ∧ Settled st' r ∧
      ∀ u, Settled st u → Settled st' u := by
  have hv := hs.valid
  obtain ⟨conflict, hrun, hlen, hmarked⟩ := markConflicts_spec hv hp hr rfl
  obtain ⟨slot, hslot, hle, hfalse⟩ := skipConflicts_spec conflict 0
  rw [Nat.zero_add] at hslot
  have hfree : ∀ u ∈ (st.regs r).interf, (st.regs u).loc ≠ .stack (.local slot) :=
    fun u hu he => hfalse (hmarked u hu slot he)
  unfold removeReg
  dsimp only
  rw [if_pos hspill, hrun, Result.ok_bind, hslot]
  have hne : (.stack (.local slot) : Location) ≠ .unknown := Location.noConfusion
  -- in both cases the new state has the same sets, and a location for `r`
  have hfinish : ∀ st' : State proc n, st'.regs = update st.regs r
        { st.regs r with loc := .stack (.local slot) } →
      st'.constrained = st.constrained → st'.unconstrained = st.unconstrained →
      Valid all regs st' →
      Sorting all regs st' ∧ Settled st' r ∧ ∀ u, Settled st u → Settled st' u := by
    intro st' hregs hc hu hv'
    have hassigns : Assigns st r st' := .of_update hregs hne hu
    refine ⟨⟨hv', hc ▸ hs.balanced, hc ▸ hs.constrained, hu ▸ hs.unconstrained⟩,
      .inl hassigns.self, fun u h => ?_⟩
    rcases h with h | h
    · exact .inl (hassigns.keeps h)
    · exact .inr (by rwa [hc, hu])
  split
  · next hge =>
    refine ⟨_, rfl, hfinish _ rfl rfl rfl ?_⟩
    refine hv.assign hp hr rfl rfl rfl (.inl rfl) (fun cl => ?_) hv.start ?_ hfree
    · dsimp only [State.setReg]
      rw [update_apply]
      split
      · next hcl =>
        subst hcl
        omega
      · exact Nat.le_refl _
    · dsimp only
      rw [update_self]
      exact .inr ⟨slot, Nat.lt_succ_self _, rfl⟩
  · next hlt =>
    refine ⟨_, rfl, hfinish _ rfl rfl rfl ?_⟩
    exact hv.assign hp hr rfl rfl rfl (.inl rfl) (fun _ => Nat.le_refl _) hv.start
      (.inr ⟨slot, Nat.lt_of_not_ge hlt, rfl⟩) hfree

/-- **`remove_reg` gives a location to a register, or puts it aside.** -/
theorem removeReg_spec :
    ∃ st', removeReg host phys st r = .ok st' ∧ Sorting all regs st' ∧ Settled st' r ∧
      ∀ u, Settled st u → Settled st' u := by
  by_cases hspill : (st.regs r).spill
  · exact removeReg_spilled phys hs hp hr hspill
  · have hv := hs.valid
    unfold removeReg
    rw [if_neg hspill]
    split
    · refine ⟨_, rfl, ⟨hv.sets _ _, hs.balanced, hs.constrained, fun u hu => ?_⟩,
        .inr (.inr mem_cons_self), fun u h => ?_⟩
      · rcases mem_cons.mp hu with rfl | hu
        · exact hr
        · exact hs.unconstrained u hu
      · exact h.imp id (Or.imp id (mem_cons_of_mem r))
    · obtain ⟨c, hc, hbal, -⟩ := Set.add_grows (compare host st.regs) r (phys r) hs.balanced
      have hmem := Set.mem_add (fun u hu => eq_of_compare_eq_zero hp hu) (phys r) hc
      rw [hc]
      refine ⟨_, rfl, ⟨hv.sets _ _, hbal, fun u hu => ?_, hs.unconstrained⟩,
        .inr (.inl ((hmem r).mpr (.inl rfl))), fun u h => ?_⟩
      · rcases (hmem u).mp hu with rfl | hu
        · exact hr
        · exact hs.constrained u hu
      · exact h.imp id (Or.imp (fun h => (hmem u).mpr (.inr h)) id)

end

/-! ## The allocation -/

theorem valid_start (hp : Problem host proc all regs t) (g : Int) :
    Valid all regs (⟨regs, Set.empty, [], fun _ => 0, fun _ => 0, g⟩ : State proc n) where
  typ _ := rfl
  interf _ := rfl
  prefer _ := .inl rfl
  precolored _ _ := rfl
  located r hr hne := absurd (hp.unknown r hr) hne
  proper := .of_none fun r hr => by rw [hp.unknown r hr]; rfl
  start _ := Nat.zero_le _

/-- **The allocation is valid.** It succeeds, every register has a location, which is an available
register of its class or a stack slot below the count that is returned, and two registers that
interfere do not share their location. -/
theorem allocateRegisters_valid (host : Host) (proc : Proc) (phys : Fin n → Map.PhysEq)
    (all : List (Fin n)) (regs : Fin n → Reg n) (t : Nat) (visitGeneration : Int)
    (hp : Problem host proc all regs t) :
    ∃ st, allocateRegisters host proc phys all regs visitGeneration = .ok st ∧
      (∀ r ∈ all, Located proc (registerClass st r) (st.numStackSlots (registerClass st r))
        (st.regs r).loc) ∧
      (∀ r ∈ all, ∀ u ∈ (regs r).interf, (st.regs u).loc ≠ (st.regs r).loc) ∧
      ∀ r ∉ all, (st.regs r).loc = (regs r).loc := by
  obtain ⟨st1, hrun1, hs1, hsettled⟩ := Result.foldlM_rule
    (I := fun done (st : State proc n) => Sorting all regs st ∧ ∀ r ∈ done, Settled st r)
    (l := all) (f := removeReg host phys)
    (fun done r rest st hsplit h => by
      obtain ⟨st', hrun, hs, hself, hkeep⟩ := removeReg_spec phys h.1 hp (r := r)
        (hsplit ▸ mem_append_right _ mem_cons_self)
      refine ⟨st', hrun, hs, fun u hu => ?_⟩
      rcases mem_append.mp hu with hu | hu
      · exact hkeep u (h.2 u hu)
      · exact mem_singleton.mp hu ▸ hself)
    ⟨⟨valid_start hp visitGeneration, trivial, fun _ h => (not_mem_nil h).elim,
      fun _ h => (not_mem_nil h).elim⟩, by simp⟩
  obtain ⟨st2, hrun2, hv2, hdone2, hkeep2, hunc2⟩ :=
    assignLocations_spec hp hs1.constrained hs1.valid
  obtain ⟨st3, hrun3, hv3, hdone3, hkeep3, -⟩ :=
    assignLocations_spec hp (hunc2 ▸ hs1.unconstrained) hv2
  have hloc : ∀ r ∈ all, (st3.regs r).loc ≠ .unknown := by
    intro r hr
    rcases hsettled r hr with h | h | h
    · exact hkeep3 r (hkeep2 r h)
    · exact hkeep3 r (hdone2 r h)
    · exact hdone3 r (hunc2 ▸ h)
  refine ⟨st3, ?_, fun r hr => hv3.located r hr (hloc r hr), fun r hr u hu he => ?_,
    hv3.precolored⟩
  · unfold allocateRegisters
    dsimp only
    rw [hrun1, Result.ok_bind, Set.iter_eq, hrun2, Result.ok_bind, hrun3]
  · refine hv3.proper r hr u hu _ (color_of_ne (hloc r hr)) ?_
    exact (congrArg color he).trans (color_of_ne (hloc r hr))

/-! ## Weights that are too large -/

/-- One class with two registers -/
def twoRegisters : Proc where
  numRegisterClasses := 1
  registerClass _ := 0
  numAvailableRegisters _ := 2
  firstAvailableRegister _ := 0
  rotateRegisters := false

/-- Register 1 interferes with the hardware register 0 and with register 2, which prefers 0. -/
def preferring (w : Int) : Fin 3 → Reg 3
  | 0 => { typ := .val, loc := .reg 0 }
  | 1 => { typ := .val, interf := [0, 2], degree := 2 }
  | 2 => { typ := .val, interf := [1], prefer := [(0, w)], degree := 1 }

theorem preferring_graph {w : Int} (hw : 1 ≤ w) :
    Graph ⟨true, false⟩ twoRegisters [1, 2] (preferring w) where
  stamps := by decide
  unknown := by simp [preferring]
  precolored r hr := by
    match r with
    | 0 => exact .inl ⟨0, rfl⟩
    | 1 | 2 => exact absurd (by decide) hr
  symm := by simp [preferring]
  irrefl := by simp [preferring]
  interfClass _ _ _ _ := rfl
  preferClass _ _ _ := rfl
  weight r p hp := by
    match r with
    | 0 => cases hp
    | 1 => cases hp
    | 2 => exact mem_singleton.mp hp ▸ hw

theorem allocateRegisters_valid_preferring :
    Problem ⟨true, false⟩ twoRegisters [1, 2] (preferring 8000) 8000 ∧
    ∃ st, allocateRegisters ⟨true, false⟩ twoRegisters (fun _ => .never) [1, 2] (preferring 8000)
        1 = .ok st ∧
      (∀ r ∈ [1, 2], Located twoRegisters (registerClass st r)
        (st.numStackSlots (registerClass st r)) (st.regs r).loc) ∧
      (∀ r ∈ [1, 2], ∀ u ∈ (preferring 8000 r).interf, (st.regs u).loc ≠ (st.regs r).loc) ∧
      ∀ r ∉ [1, 2], (st.regs r).loc = (preferring 8000 r).loc := by
  have hp : Problem ⟨true, false⟩ twoRegisters [1, 2] (preferring 8000) 8000 :=
    { preferring_graph (by decide) with total := by decide, fits := by decide }
  exact ⟨hp, allocateRegisters_valid _ _ _ _ _ _ _ hp⟩

/-- A penalty of `max_int - 1` wraps around: register 1 gets the register of its neighbour. -/
theorem shared_register_of_max_int :
    Graph ⟨true, false⟩ twoRegisters [1, 2] (preferring (2 ^ 62 - 1)) ∧
    ∃ st, allocateRegisters ⟨true, false⟩ twoRegisters (fun _ => .never) [1, 2]
        (preferring (2 ^ 62 - 1)) 1 = .ok st ∧
      0 ∈ (preferring (2 ^ 62 - 1) 1).interf ∧
      (st.regs 1).loc = .reg 0 ∧ (st.regs 0).loc = .reg 0 := by
  refine ⟨preferring_graph (by decide), ?_⟩
  obtain ⟨st, hst⟩ : ∃ st, allocateRegisters ⟨true, false⟩ twoRegisters (fun _ => .never) [1, 2]
      (preferring (2 ^ 62 - 1)) 1 = .ok st := ⟨_, rfl⟩
  have hloc : (allocateRegisters ⟨true, false⟩ twoRegisters (fun _ => .never) [1, 2]
      (preferring (2 ^ 62 - 1)) 1).map (fun st => ((st.regs 1).loc, (st.regs 0).loc)) =
        .ok (.reg 0, .reg 0) := by decide
  rw [hst] at hloc
  have hpair := Except.ok.inj hloc
  exact ⟨st, hst, by decide, congrArg Prod.fst hpair, congrArg Prod.snd hpair⟩

end TravLang.Coloring
