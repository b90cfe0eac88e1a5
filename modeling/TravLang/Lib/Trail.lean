import Mathlib.Logic.Function.Basic

/-!
# Trails

A trail is a log of changes, kept as a linked list of mutable cells that grows at its end. To go
back to a cell is to undo the changes from there on, the last one first, and to make it the end
again; the cells after it become invalid.
-/

namespace Trail

open List Function

inductive Cell (χ : Type) where
  | change (c : χ) (next : Nat)
  | unchanged
  | invalid

/-- The cells, the number of those in use, and the last one -/
structure Log (χ : Type) where
  cells : Nat → Cell χ
  size : Nat
  last : Nat

variable {χ σ : Type} {l : Log χ} {cells : Nat → Cell χ} {m r : Nat} {cs : List χ}

def Log.empty : Log χ := ⟨fun _ => .unchanged, 1, 0⟩

/-- A change is written to the last cell, and a new one is the last. -/
def Log.push (l : Log χ) (c : χ) : Log χ where
  cells := update (update l.cells l.size .unchanged) l.last (.change c l.size)
  size := l.size + 1
  last := l.size

/-- Each cell points to a younger one, and the last one has no change. -/
structure Log.Ok (l : Log χ) : Prop where
  last_lt : l.last < l.size
  last_unchanged : l.cells l.last = .unchanged
  next : ∀ r c n, l.cells r = .change c n → r < n ∧ n < l.size

theorem Log.ok_empty : (Log.empty : Log χ).Ok :=
  ⟨Nat.one_pos, rfl, fun _ _ _ h => nomatch h⟩

theorem Log.Ok.push {l : Log χ} (h : l.Ok) (c : χ) : (l.push c).Ok := by
  have hne : l.size ≠ l.last := Nat.ne_of_gt h.last_lt
  refine ⟨Nat.lt_succ_self _, ?_, fun r d n hr => ?_⟩
  · show update _ l.last _ l.size = _
    rw [update_of_ne hne, update_self]
  · change update _ l.last _ r = _ at hr
    change r < n ∧ n < l.size + 1
    rw [update_apply, update_apply] at hr
    split at hr
    · next hlast =>
      cases hr
      exact ⟨hlast ▸ h.last_lt, Nat.lt_succ_self _⟩
    · split at hr
      · cases hr
      · obtain ⟨hlt, hn⟩ := h.next r d n hr
        exact ⟨hlt, Nat.lt_succ_of_lt hn⟩

/-! ## Paths -/

/-- The changes `cs` lead from the cell `r` to the cell `e`. -/
inductive Path (cells : Nat → Cell χ) : Nat → List χ → Nat → Prop
  | nil (r : Nat) : Path cells r [] r
  | cons {r n e : Nat} {c : χ} {cs : List χ} (hr : cells r = .change c n) (hn : Path cells n cs e) :
    Path cells r (c :: cs) e

section Path

variable {cells cells' : Nat → Cell χ} {r m e : Nat} {cs cs' : List χ} {c : χ}

theorem Path.append (h : Path cells r cs m) (h' : Path cells m cs' e) :
    Path cells r (cs ++ cs') e := by
  induction h with
  | nil r => exact h'
  | cons hr _ ih => exact .cons hr (ih h')

/-- A path is determined by its ends, if the second one has no change. -/
theorem Path.split (h : Path cells r cs e) (he : cells e = .unchanged)
    (h' : Path cells r cs' m) : ∃ rest, cs = cs' ++ rest ∧ Path cells m rest e := by
  induction h' generalizing cs with
  | nil r => exact ⟨cs, rfl, h⟩
  | cons hr _ ih =>
    cases h with
    | nil => cases hr.symm.trans he
    | cons hr' hn =>
      cases hr.symm.trans hr'
      obtain ⟨rest, rfl, hrest⟩ := ih hn
      exact ⟨rest, rfl, hrest⟩

/-- Of two cells that are reached from `r`, one is reached from the other. -/
theorem Path.total (h : Path cells r cs e) (h' : Path cells r cs' m) :
    (∃ rest, Path cells e rest m) ∨ ∃ rest, Path cells m rest e := by
  induction h generalizing cs' with
  | nil r => exact .inl ⟨cs', h'⟩
  | cons hr hn ih =>
    cases h' with
    | nil => exact .inr ⟨_, .cons hr hn⟩
    | cons hr' hn' =>
      cases hr.symm.trans hr'
      exact ih hn'

theorem Path.ne_invalid (h : Path cells r cs e) (he : cells e = .unchanged) :
    cells r ≠ .invalid := by
  intro hr
  cases h with
  | nil => cases hr.symm.trans he
  | cons hc _ => cases hr.symm.trans hc

/-- Cells point to younger ones. -/
def Increasing (cells : Nat → Cell χ) : Prop := ∀ r c n, cells r = .change c n → r < n

theorem Path.length_le (h : Path cells r cs e) (hinc : Increasing cells) : r + cs.length ≤ e := by
  induction h with
  | nil r => exact Nat.le_refl _
  | cons hr _ ih =>
    have := hinc _ _ _ hr
    rw [length_cons]
    omega

/-- A path only depends on the cells between its ends. -/
theorem Path.congr (h : Path cells r cs e) (hinc : Increasing cells)
    (heq : ∀ k, k < e → cells' k = cells k) : Path cells' r cs e := by
  induction h with
  | nil r => exact .nil r
  | cons hr hn ih =>
    have hle := hn.length_le hinc
    have := hinc _ _ _ hr
    exact .cons ((heq _ (by omega)).trans hr) (ih heq)

end Path

theorem Log.Ok.increasing (h : l.Ok) : Increasing l.cells :=
  fun r c n hr => (h.next r c n hr).1

theorem Log.Ok.path_push (h : l.Ok) (hpath : Path l.cells r cs l.last) (c : χ) :
    Path (l.push c).cells r (cs ++ [c]) (l.push c).last := by
  have hlast : (l.push c).cells l.last = .change c l.size := update_self ..
  refine Path.append (m := l.last) (hpath.congr h.increasing fun k hk => ?_)
    (.cons hlast (.nil _))
  have := h.last_lt
  show update _ l.last _ k = _
  rw [update_of_ne (by omega), update_of_ne (by omega)]

theorem Log.Ok.pushes (h : l.Ok) : ∀ cs : List χ, (cs.foldl Log.push l).Ok := by
  intro cs
  induction cs generalizing l with
  | nil => exact h
  | cons c cs ih => exact ih (h.push c)

theorem Log.Ok.path_pushes (h : l.Ok) (hpath : Path l.cells r cs l.last) :
    ∀ ds : List χ, Path (ds.foldl Log.push l).cells r (cs ++ ds) (ds.foldl Log.push l).last := by
  intro ds
  induction ds generalizing l cs with
  | nil =>
    rw [append_nil]
    exact hpath
  | cons d ds ih =>
    rw [append_cons]
    exact ih (h.push d) (h.path_push hpath d)

/-! ## Going back -/

/-- The cells after `r` on the path have become invalid; nothing else has changed. -/
structure Cut (cells : Nat → Cell χ) (r : Nat) (cells' : Nat → Cell χ) : Prop where
  before : ∀ k, k ≤ r → cells' k = cells k
  after : ∀ k c cs, Path cells r (c :: cs) k → cells' k = .invalid
  invalid : ∀ k, cells k = .invalid → cells' k = .invalid
  change : ∀ k c n, cells' k = .change c n → cells k = .change c n

/-- The cell `r` is the last one again. -/
def Log.back (l : Log χ) (cells : Nat → Cell χ) (r : Nat) : Log χ :=
  ⟨update cells r .unchanged, l.size, r⟩

theorem Log.Ok.back (h : l.Ok)
    (hcut : Cut l.cells r cells) (hr : r < l.size) : (l.back cells r).Ok := by
  refine ⟨hr, update_self .., fun k c n hk => ?_⟩
  change update _ r _ k = _ at hk
  rw [update_apply] at hk
  split at hk
  · cases hk
  · exact h.next k c n (hcut.change k c n hk)

theorem Log.Ok.path_back (h : l.Ok) (hcut : Cut l.cells m cells)
    (hr : Path l.cells r cs m) : Path (l.back cells m).cells r cs m := by
  refine hr.congr h.increasing fun k hk => ?_
  show update _ m _ k = _
  rw [update_of_ne (by omega), hcut.before k (by omega)]

/-- A cell in use that is reached from `r`, or is invalid -/
structure Known (l : Log χ) (r k : Nat) : Prop where
  lt : k < l.size
  reached : (∃ cs, Path l.cells r cs k) ∨ l.cells k = .invalid

section Known

variable {l : Log χ} {r k : Nat} {cs : List χ}

theorem Known.push (hk : Known l r k) (h : l.Ok) (hpath : Path l.cells r cs l.last) (c : χ) :
    Known (l.push c) r k := by
  have hlt := hk.lt
  refine ⟨Nat.lt_succ_of_lt hlt, ?_⟩
  rcases hk.reached with ⟨cs', hk⟩ | hk
  · obtain ⟨rest, -, hrest⟩ := hpath.split h.last_unchanged hk
    have hle := hrest.length_le h.increasing
    refine .inl ⟨cs', hk.congr h.increasing fun j hj => ?_⟩
    show update _ l.last _ j = _
    rw [update_of_ne (by omega), update_of_ne (by omega)]
  · right
    have hne : k ≠ l.last := by
      rintro rfl
      cases hk.symm.trans h.last_unchanged
    show update _ l.last _ k = _
    rw [update_of_ne hne, update_of_ne (by omega), hk]

theorem Known.pushes (hk : Known l r k) (h : l.Ok) (hpath : Path l.cells r cs l.last) :
    ∀ ds : List χ, Known (ds.foldl Log.push l) r k := by
  intro ds
  induction ds generalizing l cs with
  | nil => exact hk
  | cons d ds ih => exact ih (hk.push h hpath d) (h.push d) (h.path_push hpath d)

/-- To go back to `m` makes the cells after it invalid. -/
theorem Known.back (hk : Known l r k) (h : l.Ok) {rest : List χ}
    (hm : Path l.cells r cs m) (hlast : Path l.cells m rest l.last) (hcut : Cut l.cells m cells) :
    Known (l.back cells m) r k := by
  refine ⟨hk.lt, ?_⟩
  rcases hk.reached with ⟨cs', hk⟩ | hk
  · rcases hm.total hk with ⟨_ | ⟨c, ds⟩, hmk⟩ | ⟨ds, hkm⟩
    · cases hmk
      exact .inl ⟨cs', h.path_back hcut hk⟩
    · have hle := hmk.length_le h.increasing
      rw [length_cons] at hle
      right
      show update _ m _ k = _
      rw [update_of_ne (by omega), hcut.after k c ds hmk]
    · have hle := hkm.length_le h.increasing
      refine .inl ⟨cs', hk.congr h.increasing fun j hj => ?_⟩
      show update _ m _ j = _
      rw [update_of_ne (by omega), hcut.before j (by omega)]
  · right
    have hne : k ≠ m := by
      rintro rfl
      exact hlast.ne_invalid h.last_unchanged hk
    show update _ m _ k = _
    rw [update_of_ne hne, hcut.invalid k hk]

end Known

/-! ## Undoing -/

section Undo

variable {undo : χ → σ → σ} {agree : σ → σ → Prop} {l : Log χ} {r : Nat} {s0 s s' : σ}

/-- Undo changes, the last one first. -/
def undoAll (undo : χ → σ → σ) (cs : List χ) (s : σ) : σ := cs.foldr undo s

theorem undoAll_append (cs ds : List χ) :
    undoAll undo (cs ++ ds) s = undoAll undo cs (undoAll undo ds s) :=
  foldr_append

theorem undoAll_congr (hcongr : ∀ c s s', agree s s' → agree (undo c s) (undo c s'))
    (h : agree s s') : ∀ cs, agree (undoAll undo cs s) (undoAll undo cs s')
  | [] => h
  | c :: cs => hcongr c _ _ (undoAll_congr hcongr h cs)

/-- To undo the changes from the cell `r` on gives the state `s0` back. -/
def Tracks (undo : χ → σ → σ) (agree : σ → σ → Prop) (l : Log χ) (r : Nat) (s0 s : σ) : Prop :=
  ∃ cs, Path l.cells r cs l.last ∧ agree s0 (undoAll undo cs s)

/-- Changes and their log entries -/
theorem Tracks.pushes (htrans : ∀ a b c, agree a b → agree b c → agree a c)
    (hcongr : ∀ c s s', agree s s' → agree (undo c s) (undo c s'))
    (h : Tracks undo agree l r s0 s) (hl : l.Ok) (hcs : agree s (undoAll undo cs s')) :
    Tracks undo agree (cs.foldl Log.push l) r s0 s' := by
  obtain ⟨ds, hpath, hds⟩ := h
  refine ⟨ds ++ cs, hl.path_pushes hpath cs, ?_⟩
  rw [undoAll_append]
  exact htrans _ _ _ hds (undoAll_congr hcongr hcs ds)

/-- To go back to a later cell -/
theorem Tracks.back (h : Tracks undo agree l r s0 s) (hl : l.Ok) {cs rest : List χ}
    (hm : Path l.cells r cs m) (hlast : Path l.cells m rest l.last) (hcut : Cut l.cells m cells) :
    Tracks undo agree (l.back cells m) r s0 (undoAll undo rest s) := by
  obtain ⟨ds, hpath, hds⟩ := h
  obtain ⟨rest', rfl, hrest⟩ := hpath.split hl.last_unchanged hm
  obtain rfl : rest = rest' := by
    obtain ⟨tail, htail, hnil⟩ := hlast.split hl.last_unchanged hrest
    have hlen := hnil.length_le hl.increasing
    obtain rfl : tail = [] := eq_nil_of_length_eq_zero (by omega)
    rw [htail, append_nil]
  rw [undoAll_append] at hds
  exact ⟨cs, hl.path_back hcut hm, hds⟩

end Undo

end Trail
