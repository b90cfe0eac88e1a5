import Mathlib.Data.Fintype.Pigeonhole
import Mathlib.Data.Set.Finite.List

/-!
# Parallel assignments as sequences of moves

A move gives a cell the contents of another one, or a value that is the same for all moves. Moves
with distinct destinations have a meaning as one parallel assignment. Moves whose sources are not
overwritten can be done last, in any order; if there is none, the sources form a cycle.
-/

namespace ParallelMoves

open List Function

variable {κ α : Type}

structure Move (κ : Type) where
  dest : κ
  /-- `none` stands for the common value. -/
  src : Option κ

def Move.value (v : α) (st : κ → α) (m : Move κ) : α := m.src.elim v st

def dests (mvs : List (Move κ)) : List κ := mvs.map Move.dest

/-- The source of the move is the destination of one of the moves. -/
def Blocked (mvs : List (Move κ)) (m : Move κ) : Prop := ∃ s ∈ m.src, s ∈ dests mvs

section Meaning

variable [DecidableEq κ] {v : α} {st : κ → α}

/-- One move after the other -/
def run (v : α) (st : κ → α) (l : List (Move κ)) : κ → α :=
  l.foldl (fun st m => update st m.dest (m.value v st)) st

/-- All moves at once -/
def par (v : α) (st : κ → α) (mvs : List (Move κ)) (c : κ) : α :=
  match mvs.find? (·.dest = c) with
  | some m => m.value v st
  | none => st c

theorem run_cons (m : Move κ) (l : List (Move κ)) :
    run v st (m :: l) = run v (update st m.dest (m.value v st)) l := rfl

theorem run_append (l l' : List (Move κ)) : run v st (l ++ l') = run v (run v st l) l' :=
  foldl_append

theorem par_of_not_mem {mvs : List (Move κ)} {c : κ} (h : c ∉ dests mvs) :
    par v st mvs c = st c := by
  have hnone : mvs.find? (·.dest = c) = none := by
    rw [List.find?_eq_none]
    intro m hm heq
    exact h (mem_map.mpr ⟨m, hm, of_decide_eq_true heq⟩)
  rw [par, hnone]

theorem par_dest (v : α) (st : κ → α) {mvs : List (Move κ)} (hnodup : (dests mvs).Nodup)
    {m : Move κ} (hm : m ∈ mvs) :
    par v st mvs m.dest = m.value v st := by
  obtain ⟨m', hfind⟩ : ∃ m', mvs.find? (·.dest = m.dest) = some m' :=
    Option.isSome_iff_exists.mp (List.find?_isSome.mpr ⟨m, hm, decide_eq_true rfl⟩)
  have hdest : m'.dest = m.dest := by simpa using List.find?_some hfind
  have heq : m' = m :=
    inj_on_of_nodup_map hnodup (List.mem_of_find?_eq_some hfind) hm hdest
  rw [par, hfind, heq]

/-- Moves that do not overwrite a source of the others, one after the other. -/
theorem run_of_not_blocked {mvs : List (Move κ)} (hnodup : (dests mvs).Nodup)
    (h : ∀ m ∈ mvs, ¬Blocked mvs m) : run v st mvs = par v st mvs := by
  induction mvs generalizing st with
  | nil => rfl
  | cons m mvs ih =>
    have hnodup' := nodup_cons.mp hnodup
    have htail : ∀ m' ∈ mvs, ¬Blocked mvs m' := fun m' hm' ⟨s, hs, hd⟩ =>
      h m' (mem_cons_of_mem m hm') ⟨s, hs, mem_cons_of_mem _ hd⟩
    rw [run_cons, ih hnodup'.2 htail]
    funext c
    by_cases hc : c ∈ dests (m :: mvs)
    · obtain ⟨m', hm', rfl⟩ := mem_map.mp hc
      rw [par_dest _ _ hnodup hm']
      rcases mem_cons.mp hm' with rfl | hm''
      · rw [par_of_not_mem hnodup'.1, update_self]
      · have hsrc : m.dest ∉ m'.src := fun hs => h m' hm' ⟨_, hs, mem_cons_self⟩
        rw [par_dest _ _ hnodup'.2 hm'']
        cases hsrc' : m'.src with
        | none => simp [Move.value, hsrc']
        | some s =>
          have hne : s ≠ m.dest := fun heq => hsrc (heq ▸ hsrc')
          simp [Move.value, hsrc', hne]
    · obtain ⟨hne, hc'⟩ : c ≠ m.dest ∧ c ∉ dests mvs := by simpa [dests] using hc
      rw [par_of_not_mem hc, par_of_not_mem hc', update_of_ne hne]

/-- **The moves with a source that is not overwritten can be done after the others.** -/
theorem run_rest {mvs rem here : List (Move κ)} (hperm : mvs.Perm (rem ++ here))
    (hnodup : (dests mvs).Nodup) (h : ∀ m ∈ here, ¬Blocked mvs m) :
    run v (par v st rem) here = par v st mvs := by
  have hdests : (dests mvs).Perm (dests rem ++ dests here) := by
    rw [dests, dests, dests, ← map_append]
    exact hperm.map _
  obtain ⟨hrem, hhere, hdisj⟩ := nodup_append.mp (hdests.nodup_iff.mp hnodup)
  have hin : ∀ c, c ∈ dests here → c ∈ dests mvs := fun c hc =>
    hdests.mem_iff.mpr (mem_append_right _ hc)
  rw [run_of_not_blocked hhere fun m hm ⟨s, hs, hd⟩ => h m hm ⟨s, hs, hin s hd⟩]
  funext c
  by_cases hc : c ∈ dests mvs
  · obtain ⟨m, hm, rfl⟩ := mem_map.mp hc
    rw [par_dest _ _ hnodup hm]
    rcases mem_append.mp (hperm.mem_iff.mp hm) with hm | hm
    · have hd : m.dest ∉ dests here := fun hd =>
        hdisj _ (mem_map_of_mem hm) _ hd rfl
      rw [par_of_not_mem hd, par_dest _ _ hrem hm]
    · rw [par_dest _ _ hhere hm]
      cases hsrc : m.src with
      | none => simp [Move.value, hsrc]
      | some s =>
        have hs : s ∉ dests rem := fun hs =>
          h m hm ⟨s, hsrc, hdests.mem_iff.mpr (mem_append_left _ hs)⟩
        simp [Move.value, hsrc, par_of_not_mem hs]
  · have hnot : ¬(c ∈ dests rem ∨ c ∈ dests here) := fun hc' =>
      hc (hdests.mem_iff.mpr (mem_append.mpr hc'))
    rw [not_or] at hnot
    rw [par_of_not_mem hc, par_of_not_mem hnot.2, par_of_not_mem hnot.1]

/-- A cell that is no source may have any contents before. -/
theorem run_congr {t : κ} {st' : κ → α} (hst : ∀ c ≠ t, st c = st' c) {l : List (Move κ)}
    (ht : ∀ m ∈ l, m.src ≠ some t) : ∀ c ≠ t, run v st l c = run v st' l c := by
  induction l generalizing st st' with
  | nil => exact hst
  | cons m l ih =>
    simp only [run_cons]
    refine ih (fun c hc => ?_) fun m' hm' => ht m' (mem_cons_of_mem m hm')
    have hval : m.value v st = m.value v st' := by
      cases hsrc : m.src with
      | none => simp [Move.value, hsrc]
      | some s =>
        have hne : s ≠ t := fun heq => ht m mem_cons_self (heq ▸ hsrc)
        simp [Move.value, hsrc, hst s hne]
    by_cases hcd : c = m.dest
    · rw [hcd, update_self, update_self, hval]
    · rw [update_of_ne hcd, update_of_ne hcd, hst c hc]

end Meaning

/-! ## Cycles -/

/-- The cell `a` gets the contents of `b`. -/
def Copies (mvs : List (Move κ)) (a b : κ) : Prop := ⟨a, some b⟩ ∈ mvs

def OnCycle (mvs : List (Move κ)) (a : κ) : Prop := Relation.TransGen (Copies mvs) a a

/-- The contents of the cell come from a cycle, in any number of moves. -/
def FromCycle (mvs : List (Move κ)) (a : κ) : Prop :=
  ∃ b, Relation.ReflTransGen (Copies mvs) a b ∧ OnCycle mvs b

variable {mvs : List (Move κ)} {a b c : κ}

theorem Copies.mem_dests (h : Copies mvs a b) : a ∈ dests mvs := mem_map_of_mem h

theorem OnCycle.mem_dests (h : OnCycle mvs a) : a ∈ dests mvs := by
  obtain ⟨c, hac, _⟩ := Relation.TransGen.head'_iff.mp h
  exact hac.mem_dests

theorem FromCycle.mem_dests (h : FromCycle mvs a) : a ∈ dests mvs := by
  obtain ⟨b, hab, hb⟩ := h
  rcases Relation.ReflTransGen.cases_head hab with rfl | ⟨c, hac, _⟩
  · exact hb.mem_dests
  · exact hac.mem_dests

theorem Copies.unique (hnodup : (dests mvs).Nodup) (hb : Copies mvs a b) (hc : Copies mvs a c) :
    b = c := by
  have := inj_on_of_nodup_map hnodup hb hc rfl
  simpa using this

/-- If every source is overwritten, every cell gets its contents from a cycle. -/
theorem fromCycle_of_blocked (h : ∀ m ∈ mvs, Blocked mvs m) (ha : a ∈ dests mvs) :
    FromCycle mvs a := by
  have hnext : ∀ x : {c // c ∈ dests mvs}, ∃ y : {c // c ∈ dests mvs}, Copies mvs x y := by
    rintro ⟨x, hx⟩
    obtain ⟨⟨_, src⟩, hm, rfl⟩ := mem_map.mp hx
    obtain ⟨s, hs, hsd⟩ := h _ hm
    obtain rfl : src = some s := hs
    exact ⟨⟨s, hsd⟩, hm⟩
  choose f hf using hnext
  -- the cells on the way cannot all be different
  have hpath : ∀ (i n : Nat), Relation.ReflTransGen (Copies mvs) (f^[i] ⟨a, ha⟩).1
      (f^[i + n] ⟨a, ha⟩).1 := by
    intro i n
    induction n with
    | zero => exact .refl
    | succ n ih =>
      refine ih.tail ?_
      rw [← Nat.add_assoc, iterate_succ_apply']
      exact hf _
  have : Finite {c // c ∈ dests mvs} := (dests mvs).finite_toSet
  obtain ⟨i, j, hij, heq⟩ :=
    Finite.exists_ne_map_eq_of_infinite fun n : Nat => f^[n] (⟨a, ha⟩ : {c // c ∈ dests mvs})
  wlog hlt : i < j generalizing i j
  · exact this j i hij.symm heq.symm (Nat.lt_of_le_of_ne (Nat.le_of_not_lt hlt) hij.symm)
  obtain ⟨n, rfl⟩ := Nat.exists_eq_add_of_lt hlt
  refine ⟨_, by simpa using hpath 0 i, ?_⟩
  have hstep := hf (f^[i] ⟨a, ha⟩)
  rw [← iterate_succ_apply' f] at hstep
  refine Relation.TransGen.head' hstep ?_
  have htail := hpath (i + 1) n
  rwa [show i + 1 + n = i + n + 1 by omega, ← show _ = _ from heq] at htail

/-- **Without a cycle some source is not overwritten.** -/
theorem exists_not_blocked (hne : mvs ≠ []) (h : ∀ a, ¬OnCycle mvs a) :
    ∃ m ∈ mvs, ¬Blocked mvs m := by
  by_contra hall
  have hblocked : ∀ m ∈ mvs, Blocked mvs m := by simpa using hall
  obtain ⟨m, hm⟩ := exists_mem_of_ne_nil mvs hne
  obtain ⟨b, _, hb⟩ := fromCycle_of_blocked hblocked (mem_map_of_mem hm)
  exact h b hb

/-! ### Leaving out moves whose source is not overwritten -/

section Rest

variable {rem : List (Move κ)} (hsub : ∀ m ∈ rem, m ∈ mvs)
  (hblocked : ∀ m ∈ mvs, Blocked mvs m → m ∈ rem)

include hblocked in
theorem transGen_rest (h : Relation.TransGen (Copies mvs) a b) (hb : b ∈ dests mvs) :
    Relation.TransGen (Copies rem) a b := by
  induction h with
  | single h => exact .single (hblocked _ h ⟨_, rfl, hb⟩)
  | tail _ h ih => exact .tail (ih h.mem_dests) (hblocked _ h ⟨_, rfl, hb⟩)

include hsub hblocked in
theorem onCycle_rest : OnCycle rem a ↔ OnCycle mvs a := by
  constructor
  · exact fun h => Relation.TransGen.mono (fun _ _ h => hsub _ h) _ _ h
  · exact fun h => transGen_rest hblocked h h.mem_dests

include hsub hblocked in
theorem fromCycle_rest : FromCycle rem a ↔ FromCycle mvs a := by
  constructor
  · rintro ⟨b, hab, hb⟩
    exact ⟨b, Relation.ReflTransGen.mono (fun _ _ h => hsub _ h) _ _ hab,
      (onCycle_rest hsub hblocked).mp hb⟩
  · rintro ⟨b, hab, hb⟩
    refine ⟨b, ?_, (onCycle_rest hsub hblocked).mpr hb⟩
    rcases Relation.reflTransGen_iff_eq_or_transGen.mp hab with rfl | hab
    · exact .refl
    · exact (transGen_rest hblocked hab hb.mem_dests).to_reflTransGen

end Rest

/-- A source that is not overwritten is on no cycle. -/
theorem not_fromCycle (hnodup : (dests mvs).Nodup) {m : Move κ} (hm : m ∈ mvs)
    (h : ¬Blocked mvs m) : ¬FromCycle mvs m.dest := by
  rintro ⟨b, hab, hb⟩
  have hnext : ∀ s, Copies mvs m.dest s → s ∉ dests mvs := by
    intro s hs hsd
    have heq : m = ⟨m.dest, some s⟩ := inj_on_of_nodup_map hnodup hm hs rfl
    exact h ⟨s, congrArg Move.src heq, hsd⟩
  rcases Relation.ReflTransGen.cases_head hab with rfl | ⟨c, hac, hcb⟩
  · obtain ⟨c, hac, hcb⟩ := Relation.TransGen.head'_iff.mp hb
    have hc : FromCycle mvs c := ⟨m.dest, hcb, hb⟩
    exact hnext c hac hc.mem_dests
  · have hc : FromCycle mvs c := ⟨b, hcb, hb⟩
    exact hnext c hac hc.mem_dests

/-! ### Cutting a cycle -/

variable [DecidableEq κ] {d t : κ}

/-- The cell `t` as a source in the place of `d` -/
def redirect (d t : κ) (m : Move κ) : Move κ :=
  if m.src = some d then ⟨m.dest, some t⟩ else m

@[simp] theorem redirect_dest (d t : κ) (m : Move κ) : (redirect d t m).dest = m.dest := by
  unfold redirect
  split <;> rfl

theorem dests_redirect (d t : κ) (mvs : List (Move κ)) :
    dests (mvs.map (redirect d t)) = dests mvs := by
  simp [dests]

theorem copies_redirect (h : Copies (mvs.map (redirect d t)) a b) :
    b = t ∨ b ≠ d ∧ Copies mvs a b := by
  obtain ⟨m, hm, heq⟩ := mem_map.mp h
  unfold redirect at heq
  split at heq
  · next => exact .inl (by simpa using (Move.mk.inj heq).2.symm)
  · next hsrc =>
    subst heq
    exact .inr ⟨fun hb => hsrc (by rw [hb]), hm⟩

/-- With a copy of `d` in `t`, the moves can read `t` in its place. -/
theorem par_redirect {v : α} {st : κ → α} (hnodup : (dests mvs).Nodup)
    (hsrc : ∀ m ∈ mvs, m.src ≠ some t) :
    ∀ c ≠ t, par v (update st t (st d)) (mvs.map (redirect d t)) c = par v st mvs c := by
  intro c hc
  by_cases hcd : c ∈ dests mvs
  · obtain ⟨m, hm, rfl⟩ := mem_map.mp hcd
    rw [par_dest _ _ hnodup hm]
    have hd := par_dest v (update st t (st d))
      (by rwa [dests_redirect]) (mem_map_of_mem (f := redirect d t) hm)
    rw [redirect_dest] at hd
    rw [hd]
    unfold redirect
    split
    · next heq => simp [Move.value, heq]
    · next hne =>
      cases hm' : m.src with
      | none => simp [Move.value, hm']
      | some s =>
        have hst : s ≠ t := fun heq => hsrc m hm (heq ▸ hm')
        simp [Move.value, hm', hst]
  · rw [par_of_not_mem hcd, par_of_not_mem (by rwa [dests_redirect]), update_of_ne hc]

/-- **If all cycles go through `d`, none is left.** -/
theorem not_onCycle_redirect (hnodup : (dests mvs).Nodup) (ht : t ∉ dests mvs)
    (hdt : d ≠ t) (hd : ∀ b, OnCycle mvs b → Relation.TransGen (Copies mvs) b d) :
    ¬OnCycle (mvs.map (redirect d t)) a := by
  intro ha
  -- the steps of a cycle do not read `t`, hence they are steps before
  have hback : ∀ {x y}, Copies (mvs.map (redirect d t)) x y → y ∈ dests mvs → Copies mvs x y := by
    intro x y h hy
    rcases copies_redirect h with rfl | ⟨_, h⟩
    · exact absurd hy ht
    · exact h
  have hmem : ∀ {x y}, Copies (mvs.map (redirect d t)) x y → x ∈ dests mvs := by
    intro x y h
    rw [← dests_redirect d t mvs]
    exact h.mem_dests
  have hold : ∀ {x}, Relation.TransGen (Copies (mvs.map (redirect d t))) x a →
      a ∈ dests mvs → Relation.TransGen (Copies mvs) x a := by
    intro x h hx
    induction h using Relation.TransGen.head_induction_on with
    | single h => exact .single (hback h hx)
    | head h hya ih =>
      obtain ⟨z, hyz, _⟩ := Relation.TransGen.head'_iff.mp hya
      exact .head (hback h (hmem hyz)) ih
  have had : a ∈ dests mvs := by
    obtain ⟨z, haz, _⟩ := Relation.TransGen.head'_iff.mp ha
    exact hmem haz
  -- from the cycle only cells of the cycle are reached
  have hstay : ∀ {x}, Relation.ReflTransGen (Copies mvs) a x →
      Relation.TransGen (Copies (mvs.map (redirect d t))) a x ∧
      Relation.TransGen (Copies (mvs.map (redirect d t))) x a := by
    intro x h
    induction h with
    | refl => exact ⟨ha, ha⟩
    | @tail y z _ hyz ih =>
      obtain ⟨z', hyz', hz'⟩ := Relation.TransGen.head'_iff.mp ih.2
      have hz'a : Relation.TransGen (Copies (mvs.map (redirect d t))) z' a := by
        rcases Relation.reflTransGen_iff_eq_or_transGen.mp hz' with rfl | h
        · exact ha
        · exact h
      obtain ⟨w, hzw, _⟩ := Relation.TransGen.head'_iff.mp hz'a
      obtain rfl := hyz.unique hnodup (hback hyz' (hmem hzw))
      exact ⟨ih.1.tail hyz', hz'a⟩
  obtain ⟨x, _, hxd⟩ := Relation.TransGen.tail'_iff.mp
    (hstay (hd a (hold ha had)).to_reflTransGen).1
  rcases copies_redirect hxd with heq | ⟨hne, _⟩
  · exact hdt heq
  · exact hne rfl

end ParallelMoves
