import Mathlib.Data.Fintype.Card
import Mathlib.Algebra.Order.BigOperators.Group.List
import TravLang.Asmcomp.Coloring.Basic

/-!
# Scores

The place of a neighbour gets the score -1000000, and from then on it can only get a lower one: what
follows are penalties. As long as these do not wrap around, a place whose score is greater than
-1000000 is not one of a neighbour.
-/

namespace TravLang.Coloring

open TravLang.Asmcomp
open TravLang.Runtime (Host InRange int_of_inRange)

variable {proc : Proc} {n k size b b' : Nat} {host : Host} {α : Type} {a : List α} {x w : Int}
  {banned banned' : Nat → Prop} {score : List Int} {best : Int × Int}

/-! ## Arrays -/

theorem get_ok {x : α} (h : a[k]? = some x) :
    get a k = .ok x := by
  rw [get, Arrays.getAt_ok h]
  rfl

theorem set_ok (h : k < a.length) (x : α) :
    set a k x = .ok (a.set k x) := by
  rw [set, Arrays.setAt_ok h]
  rfl

theorem addScore_ok {score : List Int} (h : score[k]? = some x) (w : Int) :
    addScore host score k w = .ok (score.set k (host.int (x + w))) := by
  obtain ⟨hk, -⟩ := List.getElem?_eq_some_iff.mp h
  rw [addScore, get_ok h, Result.ok_bind, set_ok hk]

/-! ## Prohibited places -/

/-- The score of a prohibited place: -1000000, with penalties of at most `b` -/
def Low (b : Nat) (x : Int) : Prop := x ≤ -1000000 ∧ -1000000 - b ≤ x

theorem Low.mono {b b' : Nat} (h : Low b x) (hb : b ≤ b') : Low b' x :=
  ⟨h.1, by have := h.2; omega⟩

/-- A penalty that does not wrap around -/
theorem Low.penalty {b t : Nat} (h : Low b x) (hw : 0 ≤ w) (hwt : w ≤ t)
    (hfit : b + t + 1000000 ≤ 2 ^ (host.wordBits - 2)) : Low (b + t) (host.int (x + -w)) := by
  obtain ⟨hhigh, hlow⟩ := h
  have hfit' : (b : Int) + t + 1000000 ≤ 2 ^ (host.wordBits - 2) := by exact_mod_cast hfit
  rw [int_of_inRange ⟨by omega, by omega⟩]
  exact ⟨by omega, by omega⟩

/-- Scores of `size` places, where those that satisfy `banned` are prohibited and had penalties of
at most `b` -/
structure Scores (size : Nat) (banned : Nat → Prop) (b : Nat) (score : List Int) : Prop where
  length : score.length = size
  low : ∀ k, banned k → ∀ x, score[k]? = some x → Low b x

theorem Scores.start (size b : Nat) :
    Scores size (fun _ => False) b (List.replicate size 0) :=
  ⟨List.length_replicate, fun _ h => h.elim⟩

section

variable (h : Scores size banned b score)

include h

theorem Scores.mono (hb : b ≤ b') : Scores size banned b' score :=
  ⟨h.length, fun k hk x hx => (h.low k hk x hx).mono hb⟩

theorem Scores.congr (hb : ∀ k, banned' k → banned k) : Scores size banned' b score :=
  ⟨h.length, fun k hk => h.low k (hb k hk)⟩

/-- A score changes; if its place is prohibited, the new one has to be low. -/
theorem Scores.set (hx : banned k → Low b x) : Scores size banned b (score.set k x) := by
  refine ⟨by rw [List.length_set, h.length], fun j hj y hy => ?_⟩
  rw [List.getElem?_set] at hy
  split at hy
  · next hkj =>
    subst hkj
    split at hy
    · cases hy
      exact hx hj
    · cases hy
  · exact h.low j hj y hy

theorem Scores.get (hk : k < size) :
    ∃ x, score[k]? = some x := ⟨_, List.getElem?_eq_getElem (h.length ▸ hk)⟩

end

/-- Before any place is prohibited, scores change freely. -/
theorem Scores.addScore (h : Scores size (fun _ => False) b score) (hk : k < size)
    (w : Int) : ∃ score', Coloring.addScore host score k w = .ok score' ∧
      Scores size (fun _ => False) b score' := by
  obtain ⟨x, hx⟩ := h.get hk
  exact ⟨_, addScore_ok hx w, h.set False.elim⟩

/-- A penalty -/
theorem Scores.penalty (h : Scores size banned b score) {k t : Nat} (hk : k < size)
    (hw : 0 ≤ w) (hwt : w ≤ t) (hfit : b + t + 1000000 ≤ 2 ^ (host.wordBits - 2)) :
    ∃ score', Coloring.addScore host score k (-w) = .ok score' ∧
      Scores size banned (b + t) score' := by
  obtain ⟨x, hx⟩ := h.get hk
  refine ⟨_, addScore_ok hx (-w), (h.mono (Nat.le_add_right b t)).set fun hbanned => ?_⟩
  exact (h.low k hbanned x hx).penalty hw hwt hfit

/-- A prohibition -/
theorem Scores.prohibit (h : Scores size banned b score) (hk : k < size) :
    ∃ score', Coloring.set score k (-1000000) = .ok score' ∧
      Scores size (fun j => banned j ∨ j = k) b score' := by
  refine ⟨_, set_ok (h.length ▸ hk) _, ⟨by rw [List.length_set, h.length], ?_⟩⟩
  intro j hj y hy
  rw [List.getElem?_set] at hy
  split at hy
  · split at hy
    · cases hy
      exact ⟨Int.le_refl _, by omega⟩
    · cases hy
  · next hkj =>
    rcases hj with hj | rfl
    · exact h.low j hj y hy
    · exact absurd rfl hkj

/-- The places of one more neighbour -/
theorem Scores.append {P : α → Nat → Prop} {done : List α} {a : α}
    (h : Scores size (fun k => (∃ u ∈ done, P u k) ∨ P a k) b score) :
    Scores size (fun k => ∃ u ∈ done ++ [a], P u k) b score := by
  refine h.congr fun k => ?_
  rintro ⟨u, hu, hk⟩
  rcases List.mem_append.mp hu with hu | hu
  · exact .inl ⟨u, hu, hk⟩
  · exact .inr (List.mem_singleton.mp hu ▸ hk)

/-! ## Choosing a place -/

/-- The best score and place so far: no place, or one whose score is not low -/
def Picked (score : List Int) (best : Int × Int) : Prop :=
  -1000000 ≤ best.1 ∧
    (best.2 = -1 ∨ ∃ k : Nat, best.2 = k ∧ score[k]? = some best.1 ∧ -1000000 < best.1)

theorem pickBest_loop (score : List Int) (ks : List Nat) (hks : ∀ k ∈ ks, k < score.length)
    (hbest : Picked score best) :
    ∃ best', ks.foldlM (pickBest score) best = .ok best' ∧ Picked score best' := by
  refine Result.foldlM_inv (fun k hk best hbest => ?_) hbest
  have hx : score[k]? = some (score.get ⟨k, hks k hk⟩) := List.getElem?_eq_getElem _
  rw [pickBest, get_ok hx, Result.ok_bind, Result.pure_eq_ok]
  refine ⟨_, rfl, ?_⟩
  obtain ⟨hlow, -⟩ := id hbest
  split
  · next hgt => exact ⟨by omega, .inr ⟨k, rfl, hx, by omega⟩⟩
  · exact hbest

/-- The place that was picked is not prohibited. -/
theorem Scores.not_banned (h : Scores size banned b score)
    (hbest : Picked score best) : best.2 < 0 ∨ ∃ k : Nat, best.2 = k ∧ k < size ∧ ¬banned k := by
  rcases hbest.2 with hnone | ⟨k, hk, hx, hgt⟩
  · exact .inl (by omega)
  · obtain ⟨hlt, -⟩ := List.getElem?_eq_some_iff.mp hx
    refine .inr ⟨k, hk, h.length ▸ hlt, fun hbanned => ?_⟩
    have := (h.low k hbanned _ hx).1
    omega

/-! ## Marks -/

/-- A state that differs in the marks of the registers -/
def State.remark (st : State proc n) (visited : Fin n → Int) (visitGeneration : Int) :
    State proc n :=
  { st with regs := fun r => { st.regs r with visited := visited r }, visitGeneration }

/-- The registers that `walk` has not met -/
def unvisited (st : State proc n) : Finset (Fin n) := Finset.univ.filter fun r => ¬isVisited st r

theorem card_unvisited_le (st : State proc n) : (unvisited st).card ≤ n := by
  have h := Finset.card_le_univ (unvisited st)
  rwa [Fintype.card_fin] at h

theorem remark_remark (st : State proc n) (v v' : Fin n → Int) (g g' : Int) :
    (st.remark v g).remark v' g' = st.remark v' g' := rfl

theorem remark_self (st : State proc n) :
    st.remark (fun r => (st.regs r).visited) st.visitGeneration = st := rfl

theorem markVisited_eq (st : State proc n) (r : Fin n) :
    markVisited st r = st.remark (Function.update (fun r => (st.regs r).visited) r
      st.visitGeneration) st.visitGeneration := by
  rw [markVisited, State.setReg, State.remark]
  congr 1
  funext s
  by_cases hs : s = r
  · subst hs
    rw [Function.update_self, Function.update_self]
  · rw [Function.update_of_ne hs, Function.update_of_ne hs]

theorem card_unvisited_markVisited {st : State proc n} {r : Fin n} (h : ¬isVisited st r) :
    (unvisited st).card = (unvisited (markVisited st r)).card + 1 := by
  have hr : r ∈ unvisited st := Finset.mem_filter.mpr ⟨Finset.mem_univ r, h⟩
  have herase : unvisited (markVisited st r) = (unvisited st).erase r := by
    ext s
    simp only [unvisited, Finset.mem_filter, Finset.mem_univ, true_and, Finset.mem_erase]
    by_cases hs : s = r
    · subst hs
      simp [isVisited, markVisited, State.setReg]
    · simp [isVisited, markVisited, State.setReg, hs]
  rw [herase, Finset.card_erase_add_one hr]

/-! ## Transitive preferences -/

section Walk

variable {f : Scoring proc n} {st : State proc n} {cl : Fin proc.numRegisterClasses} {t : Nat}
  {Q : Nat → List Int → Prop}

/-- What the preferences of registers of one class have to satisfy: they stay in the class, and have
weights from 1 to `t`. -/
def PreferOk (st : State proc n) (t : Nat) : Prop :=
  ∀ r, ∀ p ∈ (st.regs r).prefer, registerClass st p.1 = registerClass st r ∧ 1 ≤ p.2 ∧ p.2 ≤ t

/-- A walk that does its work for at most `k` registers goes from `Q k` to `Q 0`, or stops before:
`Q` is indexed by the number of registers that have not been met. -/
structure WalkStep (f : Scoring proc n) (st : State proc n) (cl : Fin proc.numRegisterClasses)
    (t : Nat) (Q : Nat → List Int → Prop) : Prop where
  marks : ∀ v g, f (st.remark v g) = f st
  step : ∀ (r : Fin n) (w : Int) k score, registerClass st r = cl → 1 ≤ w → w ≤ t → k < n →
    Q (k + 1) score →
    ∃ score', f st r w score = .ok score' ∧ Q k score'

/-- What holds between two calls of `walk`. -/
def Walking (st : State proc n) (depth : Nat) (Q : Nat → List Int → Prop)
    (s : State proc n × List Int) : Prop :=
  (∃ v g, s.1 = st.remark v g) ∧ (unvisited s.1).card ≤ depth ∧ Q (unvisited s.1).card s.2

theorem walk_spec (hf : WalkStep f st cl t Q) (hpref : PreferOk st t) :
    ∀ (depth : Nat) (r : Fin n) (w : Int) (s : State proc n × List Int),
      registerClass st r = cl → 1 ≤ w → w ≤ t → Walking st depth Q s →
      ∃ s', walk f depth r w s = .ok s' ∧ Walking st depth Q s' := by
  intro depth
  induction depth with
  | zero =>
    intro r w s hr hw hwt hs
    have hvisited : isVisited s.1 r := by
      by_contra hnot
      have := card_unvisited_markVisited hnot
      have := hs.2.1
      omega
    rw [walk, if_pos hvisited]
    exact ⟨s, rfl, hs⟩
  | succ depth ih =>
    rintro r w ⟨st', score⟩ hr hw hwt hs
    rw [walk]
    split
    · exact ⟨_, rfl, hs⟩
    · next hnot =>
      obtain ⟨⟨v, g, rfl⟩, hdepth, hQ⟩ := hs
      have hcard := card_unvisited_markVisited hnot
      have hle := card_unvisited_le (st.remark v g)
      obtain ⟨score', hscore, hQ'⟩ := hf.step r w (unvisited (markVisited (st.remark v g) r)).card
        score hr hw hwt (by omega) (hcard ▸ hQ)
      have hmark := markVisited_eq (st.remark v g) r
      rw [remark_remark] at hmark
      have hrun : f (markVisited (st.remark v g) r) r w score = .ok score' := by
        rw [hmark, hf.marks]
        exact hscore
      simp only [hrun, Result.ok_bind]
      have hstart : Walking st depth Q (markVisited (st.remark v g) r, score') :=
        ⟨⟨_, _, hmark⟩, by dsimp only at hdepth ⊢; omega, hQ'⟩
      have hprefer : ((markVisited (st.remark v g) r).regs r).prefer = (st.regs r).prefer := by
        rw [hmark]
        rfl
      rw [hprefer]
      obtain ⟨s', hs', hw'⟩ := Result.foldlM_inv (I := Walking st depth Q)
        (f := fun s (p : Fin n × Int) => walk f depth p.1 (min w p.2) s)
        (fun p hp s hs => ih p.1 (min w p.2) s ((hpref r p hp).1.trans hr)
          (le_min hw (hpref r p hp).2.1) ((min_le_left _ _).trans hwt) hs) hstart
      exact ⟨s', hs', hw'.1, by have := hw'.2.1; omega, hw'.2.2⟩

/-- The preferences of a register, followed transitively. -/
theorem iterPreferred_spec (host : Host) (hf : WalkStep f st cl t Q) (hpref : PreferOk st t)
    {reg : Fin n}
    (hreg : registerClass st reg = cl) (hQ : ∀ k ≤ n, Q k score) :
    ∃ v g k score', iterPreferred host f reg st score = .ok (st.remark v g, score') ∧
      Q k score' := by
  have hle := card_unvisited_le st
  have hstart : Walking st n Q (st, score) := ⟨⟨_, _, (remark_self st).symm⟩, hle, hQ _ hle⟩
  obtain ⟨⟨st', score'⟩, hs', ⟨v, g, hst⟩, -, hQ'⟩ :=
    Result.foldlM_inv (I := Walking st n Q) (l := (st.regs reg).prefer)
      (f := fun s (p : Fin n × Int) => walk f n p.1 p.2 s)
      (fun p hp s hs => walk_spec hf hpref n p.1 p.2 s ((hpref reg p hp).1.trans hreg)
        (hpref reg p hp).2.1 (hpref reg p hp).2.2 hs) hstart
  obtain rfl : st' = st.remark v g := hst
  refine ⟨v, host.int (g + 1), _, score', ?_, hQ'⟩
  rw [iterPreferred, hs']
  rfl

end Walk

end TravLang.Coloring
