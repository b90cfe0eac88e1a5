import TravLang.Asmcomp.Coloring.Scores
import TravLang.Lib.GraphColoring
import TravLang.Stdlib.Set.WellFormed

/-!
# The allocation is a coloring

Whatever order the registers are taken in, a register gets a place that none of its neighbours has.
-/

namespace TravLang.Coloring

open TravLang.Asmcomp List
open TravLang.Runtime (Host InRange int_of_inRange)

variable {proc : Proc} {n : Nat} {host : Host} {all : List (Fin n)} {regs : Fin n → Reg n} {t : Nat}
  {st st' : State proc n} {cl : Fin proc.numRegisterClasses} {loc : Location}

/-! ## Allocation problems -/

/-- A graph that can be given to the allocator: the registers `all` have no location, all others are
precolored, and interferences and preferences relate registers of one class. -/
structure Graph (host : Host) (proc : Proc) (all : List (Fin n)) (regs : Fin n → Reg n) :
    Prop where
  stamps : n ≤ 2 ^ (host.wordBits - 2)
  unknown : ∀ r ∈ all, (regs r).loc = .unknown
  precolored : ∀ r ∉ all,
    (∃ k : Nat, (regs r).loc =
      .reg (proc.firstAvailableRegister (proc.registerClass (regs r).typ) + k)) ∨
    ∃ s, (regs r).loc = .stack s ∧ ∀ k, s ≠ .local k
  symm : ∀ r ∈ all, ∀ u ∈ all, u ∈ (regs r).interf → r ∈ (regs u).interf
  irrefl : ∀ r ∈ all, r ∉ (regs r).interf
  interfClass : ∀ r ∈ all, ∀ u ∈ (regs r).interf,
    proc.registerClass (regs u).typ = proc.registerClass (regs r).typ
  preferClass : ∀ r, ∀ p ∈ (regs r).prefer,
    proc.registerClass (regs p.1).typ = proc.registerClass (regs r).typ
  weight : ∀ r, ∀ p ∈ (regs r).prefer, 1 ≤ p.2

/-- A graph on which penalties do not wrap around: the preferences of a register have weights of `t`
in total at most, and each neighbour gives at most `n * t`. -/
structure Problem (host : Host) (proc : Proc) (all : List (Fin n)) (regs : Fin n → Reg n)
    (t : Nat) : Prop extends Graph host proc all regs where
  total : ∀ r, ((regs r).prefer.map Prod.snd).sum ≤ t
  fits : ∀ r ∈ all, (regs r).interf.length * (n * t) + 1000000 ≤ 2 ^ (host.wordBits - 2)

/-- The location of a register as a color -/
def color : Location → Option Location
  | .unknown => none
  | loc => some loc

theorem color_of_ne (h : loc ≠ .unknown) : color loc = some loc := by
  cases loc with
  | unknown => exact absurd rfl h
  | reg k => rfl
  | stack s => rfl

theorem eq_of_color {loc' : Location} (h : color loc = some loc') : loc = loc' := by
  cases loc with
  | unknown => cases h
  | reg k => exact Option.some.inj h
  | stack s => exact Option.some.inj h

/-- A register of the class, or one of its stack slots -/
def Located (proc : Proc) (cl : Fin proc.numRegisterClasses) (nslots : Nat) (loc : Location) :
    Prop :=
  (∃ k : Nat, k < proc.numAvailableRegisters cl ∧
    loc = .reg (proc.firstAvailableRegister cl + k)) ∨
  ∃ k, k < nslots ∧ loc = .stack (.local k)

theorem Located.ne_unknown {nslots : Nat} (h : Located proc cl nslots loc) :
    loc ≠ .unknown := by
  rcases h with ⟨k, -, rfl⟩ | ⟨k, -, rfl⟩ <;> exact Location.noConfusion

theorem Located.mono {nslots nslots' : Nat} (h : Located proc cl nslots loc)
    (hle : nslots ≤ nslots') : Located proc cl nslots' loc := by
  rcases h with hreg | ⟨k, hk, hloc⟩
  · exact .inl hreg
  · exact .inr ⟨k, Nat.lt_of_lt_of_le hk hle, hloc⟩

/-- What holds between two assignments: the registers with a location form a proper coloring. -/
structure Valid (all : List (Fin n)) (regs : Fin n → Reg n) (st : State proc n) : Prop where
  typ : ∀ r, (st.regs r).typ = (regs r).typ
  interf : ∀ r, (st.regs r).interf = (regs r).interf
  prefer : ∀ r, (st.regs r).prefer = (regs r).prefer ∨ (st.regs r).prefer = []
  precolored : ∀ r ∉ all, (st.regs r).loc = (regs r).loc
  located : ∀ r ∈ all, (st.regs r).loc ≠ .unknown →
    Located proc (registerClass st r) (st.numStackSlots (registerClass st r)) (st.regs r).loc
  proper : GraphColoring.Proper (· ∈ all) (fun r => (regs r).interf) fun r =>
    color (st.regs r).loc
  start : ∀ cl, st.startRegister cl ≤ proc.numAvailableRegisters cl

namespace Valid

theorem registerClass_eq (hv : Valid all regs st) (r : Fin n) :
    registerClass st r = proc.registerClass (regs r).typ := by
  rw [registerClass, hv.typ]

theorem remark (hv : Valid all regs st) (v : Fin n → Int) (g : Int) :
    Valid all regs (st.remark v g) :=
  ⟨hv.typ, hv.interf, hv.prefer, hv.precolored, hv.located, hv.proper, hv.start⟩

variable {r : Fin n}

section

variable (hv : Valid all regs st) (hp : Problem host proc all regs t)

include hv hp

theorem mem_of_unknown (h : (st.regs r).loc = .unknown) : r ∈ all := by
  by_contra hr
  rw [hv.precolored r hr] at h
  rcases hp.precolored r hr with ⟨k, hk⟩ | ⟨s, hs, -⟩
  · exact Location.noConfusion (hk.symm.trans h)
  · exact Location.noConfusion (hs.symm.trans h)

/-- A hardware register is one of the class. -/
theorem first_le {k : Int} (h : (st.regs r).loc = .reg k) :
    proc.firstAvailableRegister (registerClass st r) ≤ k := by
  by_cases hr : r ∈ all
  · rcases hv.located r hr (by rw [h]; exact Location.noConfusion) with ⟨j, -, hj⟩ | ⟨j, -, hj⟩
    · obtain rfl := Location.reg.inj (hj.symm.trans h)
      omega
    · exact Location.noConfusion (hj.symm.trans h)
  · rw [hv.precolored r hr] at h
    rw [hv.registerClass_eq]
    rcases hp.precolored r hr with ⟨j, hj⟩ | ⟨s, hs, -⟩
    · obtain rfl := Location.reg.inj (hj.symm.trans h)
      omega
    · exact Location.noConfusion (hs.symm.trans h)

/-- A local stack slot is one of those in use. -/
theorem local_lt {k : Nat} (h : (st.regs r).loc = .stack (.local k)) :
    k < st.numStackSlots (registerClass st r) := by
  by_cases hr : r ∈ all
  · rcases hv.located r hr (by rw [h]; exact Location.noConfusion) with ⟨j, -, hj⟩ | ⟨j, hlt, hj⟩
    · exact Location.noConfusion (hj.symm.trans h)
    · obtain rfl := StackLocation.local.inj (Location.stack.inj (hj.symm.trans h))
      exact hlt
  · rw [hv.precolored r hr] at h
    rcases hp.precolored r hr with ⟨j, hj⟩ | ⟨s, hs, hne⟩
    · exact Location.noConfusion (hj.symm.trans h)
    · exact absurd (Location.stack.inj (hs.symm.trans h)) (hne k)

theorem interf_class {u : Fin n} (hr : r ∈ all) (hu : u ∈ (st.regs r).interf) :
    registerClass st u = registerClass st r := by
  rw [hv.interf] at hu
  rw [hv.registerClass_eq, hv.registerClass_eq, hp.interfClass r hr u hu]

theorem sum_prefer_le (r : Fin n) : ((st.regs r).prefer.map Prod.snd).sum ≤ t := by
  rcases hv.prefer r with h | h
  · exact h ▸ hp.total r
  · rw [h]
    exact Int.natCast_nonneg t

theorem weight {p : Fin n × Int} (h : p ∈ (st.regs r).prefer) :
    registerClass st p.1 = registerClass st r ∧ 1 ≤ p.2 := by
  rcases hv.prefer r with he | he
  · rw [he] at h
    rw [hv.registerClass_eq, hv.registerClass_eq]
    exact ⟨hp.preferClass r p h, hp.weight r p h⟩
  · rw [he] at h
    cases h

theorem preferOk : PreferOk st t := by
  intro r p h
  obtain ⟨hclass, hone⟩ := hv.weight hp h
  refine ⟨hclass, hone, le_trans ?_ (hv.sum_prefer_le hp r)⟩
  refine single_le_sum (fun w hw => ?_) _ (mem_map_of_mem h)
  obtain ⟨q, hq, rfl⟩ := mem_map.mp hw
  have := (hv.weight hp hq).2
  omega

/-- **A register gets a place that no neighbour has.** -/
theorem assign (hr : r ∈ all) {reg : Reg n} (hregs : st'.regs = Function.update st.regs r reg)
    (htyp : reg.typ = (st.regs r).typ) (hinterf : reg.interf = (st.regs r).interf)
    (hprefer : reg.prefer = (st.regs r).prefer ∨ reg.prefer = [])
    (hslots : ∀ cl, st.numStackSlots cl ≤ st'.numStackSlots cl)
    (hstart : ∀ cl, st'.startRegister cl ≤ proc.numAvailableRegisters cl)
    (hloc : Located proc (registerClass st r) (st'.numStackSlots (registerClass st r)) reg.loc)
    (hfree : ∀ u ∈ (st.regs r).interf, (st.regs u).loc ≠ reg.loc) : Valid all regs st' := by
  have hother : ∀ u, u ≠ r → st'.regs u = st.regs u := fun u hu => by
    rw [hregs, Function.update_of_ne hu]
  have hself : st'.regs r = reg := by rw [hregs, Function.update_self]
  have hclass : ∀ u, registerClass st' u = registerClass st u := fun u => by
    by_cases hu : u = r
    · rw [registerClass, registerClass, hu, hself, htyp]
    · rw [registerClass, registerClass, hother u hu]
  refine ⟨fun u => ?_, fun u => ?_, fun u => ?_, fun u hu => ?_, fun u hu hne => ?_, ?_, hstart⟩
  · by_cases hu : u = r
    · rw [hu, hself, htyp, hv.typ]
    · rw [hother u hu, hv.typ]
  · by_cases hu : u = r
    · rw [hu, hself, hinterf, hv.interf]
    · rw [hother u hu, hv.interf]
  · by_cases hu : u = r
    · rw [hu, hself]
      rcases hprefer with h | h
      · rw [h]
        exact hv.prefer r
      · exact .inr h
    · rw [hother u hu]
      exact hv.prefer u
  · rw [hother u (fun he => hu (he ▸ hr)), hv.precolored u hu]
  · rw [hclass]
    by_cases hur : u = r
    · rw [hur, hself]
      exact hloc
    · rw [hother u hur] at hne ⊢
      exact (hv.located u hu hne).mono (hslots _)
  · have hcolor : (fun u => color (st'.regs u).loc) =
        Function.update (fun u => color (st.regs u).loc) r (some reg.loc) := by
      funext u
      by_cases hu : u = r
      · rw [hu, Function.update_self, hself, color_of_ne hloc.ne_unknown]
      · rw [Function.update_of_ne hu, hother u hu]
    rw [hcolor]
    refine hv.proper.assign (hp.irrefl r hr) (fun u hu h => hp.symm u hu r hr h) fun u hu he => ?_
    exact hfree u (hv.interf r ▸ hu) (eq_of_color he)

end

end Valid

/-! ## Acting on the score of a place -/

/-- `res` is what `act` does with the score of the place of a register, if this is one of the
places `place 0`, ..., `place (size - 1)`. -/
def Acts (place : Nat → Location) (size : Nat) (loc : Location) (score : List Int)
    (act : Int → Except Exn (List Int)) (res : Except Exn (List Int)) : Prop :=
  (∃ k : Nat, k < size ∧ loc = place k ∧ res = act k) ∨
    res = .ok score ∧ ∀ k < size, loc ≠ place k

section Acts

variable {place : Nat → Location} {size b : Nat} {loc : Location} {score : List Int}
  {banned : Nat → Prop} {res : Except Exn (List Int)}

theorem Acts.addScore {w : Int}
    (h : Acts place size loc score (fun k => Coloring.addScore host score k w) res)
    (hs : Scores size (fun _ => False) b score) :
    ∃ score', res = .ok score' ∧ Scores size (fun _ => False) b score' := by
  rcases h with ⟨k, hk, -, rfl⟩ | ⟨rfl, -⟩
  · exact hs.addScore hk w
  · exact ⟨score, rfl, hs⟩

theorem Acts.penalty {w : Int}
    (h : Acts place size loc score (fun k => Coloring.addScore host score k (-w)) res)
    (hs : Scores size banned b score) {c : Nat} (hw : 0 ≤ w) (hwc : w ≤ c)
    (hfit : b + c + 1000000 ≤ 2 ^ (host.wordBits - 2)) :
    ∃ score', res = .ok score' ∧ Scores size banned (b + c) score' := by
  rcases h with ⟨k, hk, -, rfl⟩ | ⟨rfl, -⟩
  · exact hs.penalty hk hw hwc hfit
  · exact ⟨score, rfl, hs.mono (Nat.le_add_right b c)⟩

theorem Acts.prohibit (hinj : ∀ k j, place k = place j → k = j)
    (h : Acts place size loc score (fun k => Coloring.set score k (-1000000)) res)
    (hs : Scores size banned b score) :
    ∃ score', res = .ok score' ∧ Scores size (fun k => banned k ∨ loc = place k) b score' := by
  rcases h with ⟨k, hk, hloc, rfl⟩ | ⟨rfl, hne⟩
  · obtain ⟨score', hset, hs'⟩ := hs.prohibit hk
    refine ⟨score', hset, hs'.congr fun j hj => hj.imp id fun he => ?_⟩
    exact hinj j k (he.symm.trans hloc)
  · refine ⟨score, rfl, hs.length, fun k hk x hx => ?_⟩
    rcases hk with hk | hk
    · exact hs.low k hk x hx
    · obtain ⟨hlt, -⟩ := List.getElem?_eq_some_iff.mp hx
      exact absurd hk (hne k (hs.length ▸ hlt))

end Acts

/-- The hardware registers of a class -/
def registerPlace (proc : Proc) (cl : Fin proc.numRegisterClasses) (k : Nat) : Location :=
  .reg (proc.firstAvailableRegister cl + k)

theorem registerPlace_inj (k j : Nat) (h : registerPlace proc cl k = registerPlace proc cl j) :
    k = j := by
  have := Location.reg.inj h
  omega

def slotPlace (k : Nat) : Location := .stack (.local k)

theorem slotPlace_inj (k j : Nat) (h : slotPlace k = slotPlace j) : k = j :=
  StackLocation.local.inj (Location.stack.inj h)

section

variable (hv : Valid all regs st) (hp : Problem host proc all regs t) {r : Fin n}
  (hr : registerClass st r = cl) (score : List Int) (act : Int → Except Exn (List Int))

include hv hp hr

theorem acts_atRegister :
    Acts (registerPlace proc cl) (proc.numAvailableRegisters cl) (st.regs r).loc score act
      (atRegister (proc.firstAvailableRegister cl) (proc.numAvailableRegisters cl)
        (st.regs r).loc score act) := by
  unfold atRegister
  split
  · next k hk =>
    have hle := hr ▸ hv.first_le hp hk
    obtain ⟨j, hj⟩ := Int.eq_ofNat_of_zero_le (Int.sub_nonneg_of_le hle)
    have hplace : (.reg k : Location) = registerPlace proc cl j := by
      rw [registerPlace]
      congr 1
      omega
    split
    · next hlt => exact .inl ⟨j, by omega, hk.trans hplace, by rw [hj]⟩
    · next hlt =>
      refine .inr ⟨rfl, fun i hi he => hlt ?_⟩
      obtain rfl := registerPlace_inj j i (hplace.symm.trans (hk.symm.trans he))
      omega
  · next hne => exact .inr ⟨rfl, fun k _ hk => hne _ hk⟩

theorem acts_atSlot :
    Acts slotPlace (st.numStackSlots cl) (st.regs r).loc score act
      (atSlot (st.regs r).loc score act) := by
  unfold atSlot
  split
  · next k hk => exact .inl ⟨k, hr ▸ hv.local_lt hp hk, hk, rfl⟩
  · next hne => exact .inr ⟨rfl, fun k _ hk => hne k hk⟩

end

/-! ## Hardware registers -/

section Register

variable {r : Fin n} {score : List Int} {b : Nat}

section

variable (hv : Valid all regs st) (hp : Problem host proc all regs t)

include hv hp

theorem favorRegister_spec (hr : registerClass st r = cl) (w : Int)
    (hs : Scores (proc.numAvailableRegisters cl) (fun _ => False) b score) :
    ∃ score', favorRegister host (proc.firstAvailableRegister cl) (proc.numAvailableRegisters cl)
        st r w score = .ok score' ∧
      Scores (proc.numAvailableRegisters cl) (fun _ => False) b score' := by
  unfold favorRegister
  split
  · next k hk =>
    rw [← hk]
    exact (acts_atRegister hv hp hr score _).addScore hs
  · next hk =>
    refine Result.foldlM_inv (fun u hu score hs => ?_) hs
    have hu := (hv.interf_class hp (hv.mem_of_unknown hp hk) hu).trans hr
    exact (acts_atRegister hv hp hu score _).addScore hs
  · exact ⟨score, rfl, hs⟩

/-- Each register that a neighbour prefers costs a penalty of less than `t`. -/
theorem avoidRegister_walk {banned : Nat → Prop}
    (hfit : b + n * t + 1000000 ≤ 2 ^ (host.wordBits - 2)) :
    WalkStep (avoidRegister host (proc.firstAvailableRegister cl) (proc.numAvailableRegisters cl))
      st cl t
      fun k => Scores (proc.numAvailableRegisters cl) banned (b + (n - k) * t) where
  marks _ _ := rfl
  step r w k score hr hw hwt hk hs := by
    have hstep : (n - k) * t = (n - (k + 1)) * t + t := by
      rw [← Nat.succ_mul]
      congr 1
      omega
    have hle : (n - k) * t ≤ n * t := Nat.mul_le_mul_right t (Nat.sub_le n k)
    obtain ⟨score', hrun, hs'⟩ := (acts_atRegister hv hp hr score fun k =>
      addScore host score k (-(w - 1))).penalty hs (c := t) (by omega) (by omega) (by omega)
    exact ⟨score', hrun, hs'.mono (by omega)⟩

theorem scoreNeighbour_spec (hr : registerClass st r = cl) {banned : Nat → Prop}
    (hs : Scores (proc.numAvailableRegisters cl) banned b score)
    (hfit : b + n * t + 1000000 ≤ 2 ^ (host.wordBits - 2)) :
    ∃ v g score', scoreNeighbour host (proc.firstAvailableRegister cl)
        (proc.numAvailableRegisters cl) (st, score) r = .ok (st.remark v g, score') ∧
      Scores (proc.numAvailableRegisters cl)
        (fun k => banned k ∨ (st.regs r).loc = registerPlace proc cl k) (b + n * t) score' := by
  obtain ⟨score1, hban, hs1⟩ := (acts_atRegister hv hp hr score _).prohibit registerPlace_inj hs
  obtain ⟨v, g, k, score2, hrun, hs2⟩ := iterPreferred_spec host
    (avoidRegister_walk hv hp hfit) (hv.preferOk hp) hr fun k _ => hs1.mono (Nat.le_add_right b _)
  refine ⟨v, g, score2, ?_, hs2.mono ?_⟩
  · rw [scoreNeighbour, hban, Result.ok_bind, hrun]
  · exact Nat.add_le_add_left (Nat.mul_le_mul_right t (Nat.sub_le n k)) b

/-- The loop over the neighbours prohibits all their registers. -/
theorem scoreNeighbours_spec (hr : r ∈ all) (hcl : registerClass st r = cl)
    (hs : Scores (proc.numAvailableRegisters cl) (fun _ => False) 0 score) :
    ∃ v g b score', (st.regs r).interf.foldlM (scoreNeighbour host
        (proc.firstAvailableRegister cl) (proc.numAvailableRegisters cl)) (st, score) =
          .ok (st.remark v g, score') ∧
      Scores (proc.numAvailableRegisters cl)
        (fun k => ∃ u ∈ (st.regs r).interf,
          (st.regs u).loc = registerPlace proc cl k) b score' := by
  have hfits := hv.interf r ▸ hp.fits r hr
  let I : List (Fin n) → State proc n × List Int → Prop := fun done s =>
    (∃ v g, s.1 = st.remark v g) ∧ Scores (proc.numAvailableRegisters cl)
      (fun k => ∃ u ∈ done, (st.regs u).loc = registerPlace proc cl k) (done.length * (n * t)) s.2
  have hstep : ∀ done u rest s, (st.regs r).interf = done ++ u :: rest → I done s →
      ∃ s', scoreNeighbour host (proc.firstAvailableRegister cl) (proc.numAvailableRegisters cl)
        s u = .ok s' ∧ I (done ++ [u]) s' := by
    rintro done u rest ⟨st1, score1⟩ hl ⟨⟨v, g, rfl⟩, hs1⟩
    have hu : u ∈ (st.regs r).interf := hl ▸ mem_append_right _ mem_cons_self
    have hlen : (done.length + 1) * (n * t) ≤ (st.regs r).interf.length * (n * t) := by
      refine Nat.mul_le_mul_right _ ?_
      rw [hl, length_append, length_cons]
      omega
    rw [Nat.succ_mul] at hlen
    obtain ⟨v', g', score2, hrun, hs2⟩ := scoreNeighbour_spec (hv.remark v g) hp
      ((hv.interf_class hp hr hu).trans hcl) hs1 (by omega)
    refine ⟨_, hrun, ⟨v', g', rfl⟩, ?_⟩
    rw [length_append, length_singleton, Nat.succ_mul]
    exact hs2.append
  have hstart : I [] (st, score) := ⟨⟨_, _, (remark_self st).symm⟩, by simpa using hs⟩
  obtain ⟨⟨st', score'⟩, hrun, ⟨v, g, hst⟩, hs'⟩ := Result.foldlM_rule hstep hstart
  obtain rfl : st' = st.remark v g := hst
  exact ⟨v, g, _, score', hrun, hs'⟩

/-- **The register that is picked is available, and not one of a neighbour.** -/
theorem bestRegister_spec (hr : r ∈ all) (hcl : registerClass st r = cl) :
    ∃ v g best, bestRegister host st r = .ok (st.remark v g, best) ∧
      (best < 0 ∨ ∃ k : Nat, best = k ∧ k < proc.numAvailableRegisters cl ∧
        ∀ u ∈ (st.regs r).interf, (st.regs u).loc ≠ registerPlace proc cl k) := by
  unfold bestRegister
  dsimp only
  rw [hcl]
  split
  · obtain ⟨v1, g1, _, score1, hrun1, hs1⟩ := iterPreferred_spec host
      (Q := fun _ => Scores (proc.numAvailableRegisters cl) (fun _ => False) 0)
      ⟨fun _ _ => rfl, fun u w k score hu _ _ _ hs => favorRegister_spec hv hp hu w hs⟩
      (hv.preferOk hp) hcl fun _ _ => Scores.start _ 0
    obtain ⟨v2, g2, b, score2, hrun2, hs2⟩ := scoreNeighbours_spec (hv.remark v1 g1) hp hr hcl hs1
    have hstart := hv.start cl
    have hlen := hs2.length
    obtain ⟨best1, hpick1, hbest1⟩ := pickBest_loop score2
      (List.range' (st.startRegister cl) (proc.numAvailableRegisters cl - st.startRegister cl))
      (fun k hk => by have := (List.mem_range'_1.mp hk).2; omega)
      (show Picked score2 (-1000000, -1) from ⟨by decide, .inl rfl⟩)
    obtain ⟨best2, hpick2, hbest2⟩ := pickBest_loop score2 (List.range (st.startRegister cl))
      (fun k hk => by have := mem_range.mp hk; omega) hbest1
    refine ⟨v2, g2, best2.2, ?_, ?_⟩
    · rw [hrun1, Result.ok_bind]
      rw [hrun2, Result.ok_bind]
      rw [hpick1, Result.ok_bind, hpick2]
      rfl
    · simpa [State.remark] using hs2.not_banned hbest2
  · exact ⟨_, _, -1, rfl, .inl (by decide)⟩

end

end Register

/-! ## Stack slots -/

section Slot

variable {r : Fin n} {score : List Int} {b : Nat}

section

variable (hv : Valid all regs st) (hp : Problem host proc all regs t)

include hv hp

theorem favorSlot_spec (hr : registerClass st r = cl) (w : Int)
    (hs : Scores (st.numStackSlots cl) (fun _ => False) b score) :
    ∃ score', favorSlot host st r w score = .ok score' ∧
      Scores (st.numStackSlots cl) (fun _ => False) b score' := by
  unfold favorSlot
  split
  · next k hk => exact hs.addScore (hr ▸ hv.local_lt hp hk) w
  · next hk =>
    refine Result.foldlM_inv (fun u hu score hs => ?_) hs
    have hu := (hv.interf_class hp (hv.mem_of_unknown hp hk) hu).trans hr
    exact (acts_atSlot hv hp hu score _).addScore hs
  · exact ⟨score, rfl, hs⟩

/-- The penalties for what a neighbour prefers are `t` in total. -/
theorem slotNeighbour_spec (hr : registerClass st r = cl) {banned : Nat → Prop}
    (hs : Scores (st.numStackSlots cl) banned b score)
    (hfit : b + t + 1000000 ≤ 2 ^ (host.wordBits - 2)) :
    ∃ score', slotNeighbour host st score r = .ok score' ∧
      Scores (st.numStackSlots cl) (fun k => banned k ∨ (st.regs r).loc = slotPlace k) (b + t)
        score' := by
  obtain ⟨score1, hban, hs1⟩ := (acts_atSlot hv hp hr score _).prohibit slotPlace_inj hs
  let sum : List (Fin n × Int) → Int := fun l => (l.map Prod.snd).sum
  have htotal : sum (st.regs r).prefer ≤ t := hv.sum_prefer_le hp r
  have hnonneg : ∀ l : List (Fin n × Int), (∀ p ∈ l, p ∈ (st.regs r).prefer) → 0 ≤ sum l := by
    intro l hl
    refine sum_nonneg fun w hw => ?_
    obtain ⟨p, hp', rfl⟩ := mem_map.mp hw
    have := (hv.weight hp (hl p hp')).2
    omega
  have hstep : ∀ done (p : Fin n × Int) rest score, (st.regs r).prefer = done ++ p :: rest →
      Scores (st.numStackSlots cl) (fun k => banned k ∨ (st.regs r).loc = slotPlace k)
        (b + (sum done).toNat) score →
      ∃ score', avoidSlot host st p.1 p.2 score = .ok score' ∧
        Scores (st.numStackSlots cl) (fun k => banned k ∨ (st.regs r).loc = slotPlace k)
          (b + (sum (done ++ [p])).toNat) score' := by
    intro done p rest score hl hs
    have hpmem : p ∈ (st.regs r).prefer := hl ▸ mem_append_right _ mem_cons_self
    obtain ⟨hclass, hone⟩ := hv.weight hp hpmem
    have hdone := hnonneg done fun q hq => hl ▸ mem_append_left _ hq
    have hrest := hnonneg rest fun q hq =>
      hl ▸ mem_append_right _ (mem_cons_of_mem _ hq)
    have hsum : sum (st.regs r).prefer = sum done + p.2 + sum rest := by
      rw [hl]
      simp only [sum, map_append, map_cons, sum_append, sum_cons]
      omega
    have hnext : sum (done ++ [p]) = sum done + p.2 := by simp [sum]
    obtain ⟨score', hrun, hs'⟩ := (acts_atSlot hv hp (hclass.trans hr) score fun k =>
      addScore host score k (-p.2)).penalty hs (c := p.2.toNat) (by omega) (by omega) (by omega)
    exact ⟨score', hrun, hs'.mono (by omega)⟩
  obtain ⟨score', hrun, hs'⟩ := Result.foldlM_rule hstep (hs1.mono (Nat.le_add_right b _))
  refine ⟨score', ?_, hs'.mono (by omega)⟩
  rw [slotNeighbour, hban, Result.ok_bind, hrun]

/-- **The stack slot that is picked is in use, but not by a neighbour.** -/
theorem bestSlot_spec (hr : r ∈ all) (hcl : registerClass st r = cl) :
    ∃ best, bestSlot host st r = .ok best ∧
      (best < 0 ∨ ∃ k : Nat, best = k ∧ k < st.numStackSlots cl ∧
        ∀ u ∈ (st.regs r).interf, (st.regs u).loc ≠ slotPlace k) := by
  have hfits := hv.interf r ▸ hp.fits r hr
  have hn : t ≤ n * t := Nat.le_mul_of_pos_left t (Nat.lt_of_le_of_lt (Nat.zero_le _) r.isLt)
  obtain ⟨score1, hrun1, hs1⟩ := Result.foldlM_inv
    (f := fun score (p : Fin n × Int) => favorSlot host st p.1 p.2 score)
    (fun p hp' score hs => favorSlot_spec hv hp ((hv.weight hp hp').1.trans hcl) p.2 hs)
    (Scores.start (st.numStackSlots cl) 0)
  let I : List (Fin n) → List Int → Prop := fun done => Scores (st.numStackSlots cl)
    (fun k => ∃ u ∈ done, (st.regs u).loc = slotPlace k) (done.length * t)
  have hstep : ∀ done u rest score, (st.regs r).interf = done ++ u :: rest → I done score →
      ∃ score', slotNeighbour host st score u = .ok score' ∧ I (done ++ [u]) score' := by
    intro done u rest score hl hs
    have hu : u ∈ (st.regs r).interf := hl ▸ mem_append_right _ mem_cons_self
    have hlen : (done.length + 1) * t ≤ (st.regs r).interf.length * (n * t) := by
      refine Nat.mul_le_mul ?_ hn
      rw [hl, length_append, length_cons]
      omega
    rw [Nat.succ_mul] at hlen
    obtain ⟨score', hrun, hs'⟩ := slotNeighbour_spec hv hp ((hv.interf_class hp hr hu).trans hcl)
      hs (by omega)
    refine ⟨score', hrun, ?_⟩
    dsimp only [I]
    rw [length_append, length_singleton, Nat.succ_mul]
    exact hs'.append
  have hstart : I [] score1 := by simpa [I] using hs1
  obtain ⟨score2, hrun2, hs2⟩ := Result.foldlM_rule hstep hstart
  have hlen := hs2.length
  obtain ⟨best, hpick, hbest⟩ := pickBest_loop score2 (List.range (st.numStackSlots cl))
    (fun k hk => by have := mem_range.mp hk; omega)
    (show Picked score2 (-1000000, -1) from ⟨by decide, .inl rfl⟩)
  refine ⟨best.2, ?_, ?_⟩
  · unfold bestSlot
    dsimp only
    rw [hcl, hrun1, Result.ok_bind, hrun2, Result.ok_bind, hpick]
    rfl
  · simpa using hs2.not_banned hbest

end

end Slot

end TravLang.Coloring
