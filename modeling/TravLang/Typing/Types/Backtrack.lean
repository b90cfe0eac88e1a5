import TravLang.Typing.Types.Basic
import TravLang.Lib.Result

/-!
# Backtracking restores the snapshot

Every change to a reference is in the log, and every change to a node whose identifier is not above
the one at the last snapshot. Hence to undo the log from a snapshot on gives back what existed then,
and this stays so when changes are made and when the log is cut at a later snapshot.
-/

namespace TravLang.Types

open List Function Refs
open Trail (Cell Log Cut Known Tracks undoAll Increasing)

variable {Path Longident : Type} {h0 h h' : Heap Path Longident}
  {st st' st'' : State Path Longident} {fuel : Nat} {h'' : Heap Path Longident} {k : Nat}
  {x : Node Path Longident} {ty : TypeExpr} {op : Op Path Longident} {s : Snapshot} {newId : Int}

/-! ## Agreement -/

/-- The heaps agree on what exists in `h0`. -/
structure Same (h0 h h' : Heap Path Longident) : Prop where
  nodes : ∀ r < h0.nodes.size, h.nodes.get r = h'.nodes.get r
  names : ∀ r < h0.names.size, h.names.get r = h'.names.get r
  rows : ∀ r < h0.rows.size, h.rows.get r = h'.rows.get r
  kinds : ∀ r < h0.kinds.size, h.kinds.get r = h'.kinds.get r
  commus : ∀ r < h0.commus.size, h.commus.get r = h'.commus.get r
  univars : ∀ r < h0.univars.size, h.univars.get r = h'.univars.get r

theorem Same.refl (h0 h : Heap Path Longident) : Same h0 h h :=
  ⟨fun _ _ => rfl, fun _ _ => rfl, fun _ _ => rfl, fun _ _ => rfl, fun _ _ => rfl, fun _ _ => rfl⟩

theorem Same.trans (a : Same h0 h h') (b : Same h0 h' h'') :
    Same h0 h h'' :=
  ⟨fun r hr => (a.nodes r hr).trans (b.nodes r hr), fun r hr => (a.names r hr).trans (b.names r hr),
    fun r hr => (a.rows r hr).trans (b.rows r hr), fun r hr => (a.kinds r hr).trans (b.kinds r hr),
    fun r hr => (a.commus r hr).trans (b.commus r hr),
    fun r hr => (a.univars r hr).trans (b.univars r hr)⟩

section Refs

variable {α : Type} {a b : Refs α} {n : Nat}

theorem Refs.set_same (hab : ∀ r < n, a.get r = b.get r) {x y : α} (hxy : k < n → x = y) :
    ∀ r < n, (a.set k x).get r = (b.set k y).get r := by
  intro r hr
  show update a.get k x r = update b.get k y r
  rw [update_apply, update_apply]
  split
  · next he => exact hxy (he ▸ hr)
  · exact hab r hr

/-- Contents that are put back -/
theorem Refs.set_back (a : Refs α) (k : Nat) (x : α) : (a.set k x).set k (a.get k) = a := by
  rw [set, set]
  simp only [update_idem, update_eq_self]

theorem Refs.get_set (a : Refs α) (k : Nat) (x : α) : (a.set k x).get k = x :=
  update_self ..

theorem Refs.get_set_of_ne (a : Refs α) {k r : Nat} (x : α) (hne : r ≠ k) :
    (a.set k x).get r = a.get r :=
  update_of_ne hne ..

theorem Refs.get_alloc (a : Refs α) (x : α) {r : Nat} (hr : r < a.size) :
    (a.alloc x).get r = a.get r :=
  update_of_ne (Nat.ne_of_lt hr) ..

theorem Refs.get_alloc_self (a : Refs α) (x : α) : (a.alloc x).get a.size = x :=
  update_self ..

end Refs

/-- To undo a change writes a fixed value to one place. -/
theorem Same.undo (hs : Same h0 h h') (ch : Change Path Longident) :
    Same h0 (undoChange ch h) (undoChange ch h') := by
  cases ch with
  | ctype ty desc | ccompress ty desc desc' | clevel ty level | cscope ty scope =>
    exact { hs with nodes := set_same hs.nodes fun hr => by rw [hs.nodes ty hr] }
  | cname r v => exact { hs with names := set_same hs.names fun _ => rfl }
  | crow r => exact { hs with rows := set_same hs.rows fun _ => rfl }
  | ckind r => exact { hs with kinds := set_same hs.kinds fun _ => rfl }
  | ccommu r => exact { hs with commus := set_same hs.commus fun _ => rfl }
  | cuniv r v => exact { hs with univars := set_same hs.univars fun _ => rfl }

/-- What exists in `h` exists in `h'`. -/
structure Grows (h h' : Heap Path Longident) : Prop where
  nodes : h.nodes.size ≤ h'.nodes.size
  names : h.names.size ≤ h'.names.size
  rows : h.rows.size ≤ h'.rows.size
  kinds : h.kinds.size ≤ h'.kinds.size
  commus : h.commus.size ≤ h'.commus.size
  univars : h.univars.size ≤ h'.univars.size

theorem Grows.refl (h : Heap Path Longident) : Grows h h :=
  ⟨Nat.le_refl _, Nat.le_refl _, Nat.le_refl _, Nat.le_refl _, Nat.le_refl _, Nat.le_refl _⟩

theorem Grows.trans (a : Grows h h') (b : Grows h' h'') : Grows h h'' :=
  ⟨Nat.le_trans a.nodes b.nodes, Nat.le_trans a.names b.names, Nat.le_trans a.rows b.rows,
    Nat.le_trans a.kinds b.kinds, Nat.le_trans a.commus b.commus, Nat.le_trans a.univars b.univars⟩

/-- To undo a change makes nothing and removes nothing. -/
theorem undoChange_grows (ch : Change Path Longident) (h : Heap Path Longident) :
    Grows (undoChange ch h) h ∧ Grows h (undoChange ch h) := by
  cases ch <;> exact ⟨⟨Nat.le_refl _, Nat.le_refl _, Nat.le_refl _, Nat.le_refl _, Nat.le_refl _,
    Nat.le_refl _⟩, ⟨Nat.le_refl _, Nat.le_refl _, Nat.le_refl _, Nat.le_refl _, Nat.le_refl _,
    Nat.le_refl _⟩⟩

/-- A node keeps its identifier. -/
theorem Refs.set_id (nodes : Refs (Node Path Longident)) (hid : x.id = (nodes.get k).id)
    (t : Nat) : ((nodes.set k x).get t).id = (nodes.get t).id := by
  by_cases ht : t = k
  · subst ht
    rw [get_set, hid]
  · rw [get_set_of_ne _ _ ht]

theorem undoChange_id (ch : Change Path Longident) (h : Heap Path Longident) (t : Nat) :
    ((undoChange ch h).nodes.get t).id = (h.nodes.get t).id := by
  cases ch with
  | ctype ty desc | ccompress ty desc desc'
  | clevel ty level
  | cscope ty scope => exact set_id h.nodes (by rfl) t
  | cname | crow | ckind | ccommu | cuniv => rfl

/-! ## Logged changes -/

/-- What exists in `h0` exists, and its nodes are older than the last snapshot. -/
structure Old (h0 : Heap Path Longident) (st : State Path Longident) : Prop where
  grows : Grows h0 st.heap
  ids : ∀ t < h0.nodes.size, (st.node t).id ≤ st.lastSnapshot

/-- No identifier is above the last one. -/
structure IdsOk (st : State Path Longident) : Prop where
  newId : -1 ≤ st.newId
  ids : ∀ t < st.heap.nodes.size, (st.node t).id ≤ st.newId

/-- A step whose changes to what exists in `h0` are in the log -/
structure Logged (h0 : Heap Path Longident) (st st' : State Path Longident) : Prop where
  changes : ∃ cs, st'.trail = cs.foldl Log.push st.trail ∧
    Same h0 st.heap (undoAll undoChange cs st'.heap)
  lastSnapshot : st'.lastSnapshot = st.lastSnapshot
  newId : st.newId ≤ st'.newId
  grows : Grows st.heap st'.heap
  ids : ∀ t < st.heap.nodes.size, (st'.node t).id = (st.node t).id
  idsOk : IdsOk st → IdsOk st'

namespace Logged

theorem refl (h0 : Heap Path Longident) (st : State Path Longident) : Logged h0 st st :=
  ⟨⟨[], rfl, .refl _ _⟩, rfl, Int.le_refl _, .refl _, fun _ _ => rfl, id⟩

theorem trans (a : Logged h0 st st') (b : Logged h0 st' st'') : Logged h0 st st'' := by
  obtain ⟨cs, hcs, hsame⟩ := a.changes
  obtain ⟨ds, hds, hsame'⟩ := b.changes
  refine ⟨⟨cs ++ ds, ?_, ?_⟩, b.lastSnapshot.trans a.lastSnapshot, Int.le_trans a.newId b.newId,
    a.grows.trans b.grows, fun t ht => ?_, b.idsOk ∘ a.idsOk⟩
  · rw [foldl_append, ← hcs, hds]
  · rw [Trail.undoAll_append]
    exact hsame.trans (Trail.undoAll_congr (fun c _ _ hs => hs.undo c) hsame' cs)
  · rw [b.ids t (Nat.lt_of_lt_of_le ht a.grows.nodes), a.ids t ht]

theorem old (a : Logged h0 st st') (h : Old h0 st) : Old h0 st' := by
  refine ⟨h.grows.trans a.grows, fun t ht => ?_⟩
  rw [a.ids t (Nat.lt_of_lt_of_le ht h.grows.nodes), a.lastSnapshot]
  exact h.ids t ht

end Logged

/-- A change of one place, with the entry that undoes it -/
theorem logged_one (ch : Change Path Longident) (hundo : undoChange ch h' = st.heap) :
    Logged h0 st { logChange st ch with heap := h' } := by
  have hids : ∀ t, (h'.nodes.get t).id = (st.node t).id := by
    intro t
    rw [State.node, ← hundo, undoChange_id]
  obtain ⟨hle, hge⟩ := undoChange_grows ch h'
  rw [hundo] at hle hge
  refine ⟨⟨[ch], rfl, ?_⟩, rfl, Int.le_refl _, hle, fun t _ => hids t, fun hok => ⟨hok.newId, ?_⟩⟩
  · show Same h0 st.heap (undoChange ch h')
    rw [hundo]
    exact .refl _ _
  · intro t ht
    change (h'.nodes.get t).id ≤ _
    rw [hids]
    exact hok.ids t (Nat.lt_of_lt_of_le ht hge.nodes)

/-- A change of a node that is younger than the last snapshot -/
theorem logged_young (hold : Old h0 st) (hyoung : ¬(st.node ty).id ≤ st.lastSnapshot)
    (hid : x.id = (st.node ty).id) :
    Logged h0 st { st with heap := { st.heap with nodes := st.heap.nodes.set ty x } } := by
  have hids := set_id st.heap.nodes hid
  refine ⟨⟨[], rfl, ?_⟩, rfl, Int.le_refl _, { Grows.refl st.heap with }, fun t _ => hids t,
    fun hok => ⟨hok.newId, fun t ht => ?_⟩⟩
  · refine { Same.refl h0 st.heap with nodes := fun r hr => ?_ }
    have hne : r ≠ ty := fun he => hyoung (he ▸ hold.ids r hr)
    exact (get_set_of_ne _ _ hne).symm
  · exact (hids t).symm ▸ hok.ids t ht

/-- The state in which a change of the node `ty` is logged, if the node is older than the last
snapshot -/
def logOld (st : State Path Longident) (ty : TypeExpr) (ch : Change Path Longident) :
    State Path Longident :=
  if (st.node ty).id ≤ st.lastSnapshot then logChange st ch else st

/-- A change of the fields of a node -/
theorem logged_node (hold : Old h0 st) (ty : TypeExpr) (ch : Change Path Longident)
    (f : Heap Path Longident → Heap Path Longident)
    (hf : f st.heap = { st.heap with nodes := st.heap.nodes.set ty x })
    (hid : x.id = (st.node ty).id) (hundo : undoChange ch (f st.heap) = st.heap) :
    Logged h0 st { logOld st ty ch with heap := f (logOld st ty ch).heap } := by
  unfold logOld
  split
  · exact logged_one ch hundo
  · next hyoung =>
    rw [hf]
    exact logged_young hold hyoung hid

section

variable (h ty)

theorem setNode_back (x : Node Path Longident) :
    { h with nodes := (h.nodes.set ty x).set ty (h.nodes.get ty) } = h := by
  rw [set_back]

theorem setDesc_back (d : TypeDesc Path Longident) :
    (h.setDesc ty d).setDesc ty (h.nodes.get ty).desc = h := by
  simp only [Heap.setDesc, get_set]
  exact setNode_back h ty _

theorem setLevel_back (level : Int) :
    (h.setLevel ty level).setLevel ty (h.nodes.get ty).level = h := by
  simp only [Heap.setLevel, get_set]
  exact setNode_back h ty _

theorem setScope_back (scope : Int) :
    (h.setScope ty scope).setScope ty (h.nodes.get ty).scope = h := by
  simp only [Heap.setScope, get_set]
  exact setNode_back h ty _

end

theorem logged_setDesc (hold : Old h0 st) (ty : TypeExpr) (d : TypeDesc Path Longident) :
    Logged h0 st ((logType st ty).setDesc ty d) :=
  logged_node hold ty (.ctype ty (st.node ty).desc) (fun h => h.setDesc ty d) rfl rfl
    (setDesc_back st.heap ty d)

/-! ## The operations -/

theorem reprLink_logged {t t' t'' : TypeExpr} {d : TypeDesc Path Longident}
    (h : reprLink t fuel st d t' = some (t'', st')) : Logged h0 st st' := by
  induction fuel generalizing d t' with
  | zero => cases h
  | succ fuel ih =>
    obtain ⟨next, -, h⟩ := Option.bind_eq_some_iff.mp h
    cases next with
    | some n => exact ih h
    | none =>
      cases h
      exact logged_one (.ccompress t (st.node t).desc d) (setDesc_back st.heap t d)

theorem repr_logged {t t' : TypeExpr} (h : repr fuel st t = some (t', st')) : Logged h0 st st' := by
  obtain ⟨next, -, h⟩ := Option.bind_eq_some_iff.mp h
  cases next with
  | none =>
    cases h
    exact .refl _ _
  | some n =>
    obtain ⟨next, -, h⟩ := Option.bind_eq_some_iff.mp h
    cases next with
    | none =>
      cases h
      exact .refl _ _
    | some n' => exact reprLink_logged h

theorem linkType_logged (hold : Old h0 st) {ty' : TypeExpr}
    (h : linkType fuel st ty ty' = some st') : Logged h0 st st' := by
  obtain ⟨⟨t, st1⟩, hrepr, h⟩ := Option.bind_eq_some_iff.mp h
  obtain ⟨⟨t', st2⟩, hrepr', h⟩ := Option.bind_eq_some_iff.mp h
  have h12 : Logged h0 st st2 := (repr_logged hrepr).trans (repr_logged hrepr')
  have hold2 := h12.old hold
  dsimp only at h
  split at h
  · cases h
    exact h12
  · have h3 := h12.trans (logged_setDesc hold2 t (.tlink t'))
    have hname : ∀ name, Logged h0 st
        ((logType ((logType st2 t).setDesc t (.tlink t')) t').setDesc t'
        (.tvar name)) := fun name => h3.trans (logged_setDesc (h3.old hold) t' (.tvar name))
    split at h
    · split at h
      · cases h
        exact hname _
      · cases h
        exact h3
      · split at h
        · cases h
          exact hname _
        · cases h
          exact h3
      · cases h
        exact h3
    · cases h
      exact h3

theorem setTypeDesc_logged (hold : Old h0 st) {td : TypeDesc Path Longident} {phys : Bool}
    (h : setTypeDesc fuel st ty td phys = some st') : Logged h0 st st' := by
  obtain ⟨⟨t, st1⟩, hrepr, h⟩ := Option.bind_eq_some_iff.mp h
  have h1 : Logged h0 st st1 := repr_logged hrepr
  dsimp only at h
  split at h
  · cases h
    exact h1.trans (logged_setDesc (h1.old hold) t td)
  · cases h
    exact h1

theorem setLevel_logged (hold : Old h0 st) {level : Int}
    (h : setLevel fuel st ty level = some st') :
    Logged h0 st st' := by
  obtain ⟨⟨t, st1⟩, hrepr, h⟩ := Option.bind_eq_some_iff.mp h
  have h1 : Logged h0 st st1 := repr_logged hrepr
  have h2 := logged_node (h1.old hold) t (.clevel t (st1.node t).level)
    (fun h => h.setLevel t level) rfl rfl (setLevel_back st1.heap t level)
  dsimp only at h
  split at h
  · cases h
    exact h1.trans h2
  · cases h
    exact h1

theorem setScope_logged (hold : Old h0 st) {scope : Int}
    (h : setScope fuel st ty scope = some st') :
    Logged h0 st st' := by
  obtain ⟨⟨t, st1⟩, hrepr, h⟩ := Option.bind_eq_some_iff.mp h
  have h1 : Logged h0 st st1 := repr_logged hrepr
  have h2 := logged_node (h1.old hold) t (.cscope t (st1.node t).scope)
    (fun h => h.setScope t scope) rfl rfl (setScope_back st1.heap t scope)
  dsimp only at h
  split at h
  · cases h
    exact h1.trans h2
  · cases h
    exact h1

theorem setUnivar_logged (rty : Nat) (ty : TypeExpr) : Logged h0 st (setUnivar st rty ty) :=
  logged_one (.cuniv rty (st.heap.univars.get rty))
    (congrArg (fun univars => { st.heap with univars }) (set_back ..))

theorem setName_logged (nm : Nat) (v : Option (Path × List TypeExpr)) :
    Logged h0 st (setName st nm v) :=
  logged_one (.cname nm (st.heap.names.get nm))
    (congrArg (fun names => { st.heap with names }) (set_back ..))

theorem linkRowFieldExt_logged {inside v : RowField}
    (h : linkRowFieldExt st fuel inside v = some (.ok st')) : Logged h0 st st' := by
  induction fuel generalizing inside with
  | zero => cases h
  | succ fuel ih =>
    unfold linkRowFieldExt at h
    split at h
    · next e =>
      split at h
      · next hnone =>
        cases h
        refine logged_one (.crow e) ?_
        rw [undoChange, ← hnone]
        exact congrArg (fun rows => { st.heap with rows }) (set_back ..)
      · exact ih h
    · cases h

theorem linkKind_logged {inside k : FieldKind} (h : linkKind st fuel inside k = some (.ok st')) :
    Logged h0 st st' := by
  induction fuel generalizing inside with
  | zero => cases h
  | succ fuel ih =>
    unfold linkKind at h
    split at h
    · next rk =>
      split at h
      · next hprivate =>
        obtain ⟨k', -, h⟩ := Option.bind_eq_some_iff.mp h
        split at h
        · cases h
          refine logged_one (.ckind rk) ?_
          rw [undoChange, ← hprivate]
          exact congrArg (fun kinds => { st.heap with kinds }) (set_back ..)
        · cases h
          exact .refl _ _
      · exact ih h
    · cases h

theorem linkCommu_logged {inside c : Commutable} (h : linkCommu st fuel inside c = some (.ok st')) :
    Logged h0 st st' := by
  induction fuel generalizing inside with
  | zero => cases h
  | succ fuel ih =>
    unfold linkCommu at h
    split at h
    · next rc =>
      split at h
      · next hunknown =>
        obtain ⟨c', -, h⟩ := Option.bind_eq_some_iff.mp h
        split at h
        · cases h
          refine logged_one (.ccommu rc) ?_
          rw [undoChange, ← hunknown]
          exact congrArg (fun commus => { st.heap with commus }) (set_back ..)
        · cases h
          exact .refl _ _
      · exact ih h
    · cases h

/-- New references and nodes: what exists is not changed. -/
theorem logged_new (hold : Old h0 st) (hnew : st.newId ≤ newId)
    (hsame : Same st.heap st.heap h') (hgrows : Grows st.heap h')
    (hids : -1 ≤ newId → ∀ t < h'.nodes.size, st.heap.nodes.size ≤ t →
      (h'.nodes.get t).id ≤ newId) :
    Logged h0 st { st with heap := h', newId } := by
  have hg := hold.grows
  refine ⟨⟨[], rfl, ?_⟩, rfl, hnew, hgrows, fun t ht => congrArg Node.id (hsame.nodes t ht).symm,
    fun hok => ⟨Int.le_trans hok.newId hnew, fun t ht => ?_⟩⟩
  · exact ⟨fun r hr => hsame.nodes r (Nat.lt_of_lt_of_le hr hg.nodes),
      fun r hr => hsame.names r (Nat.lt_of_lt_of_le hr hg.names),
      fun r hr => hsame.rows r (Nat.lt_of_lt_of_le hr hg.rows),
      fun r hr => hsame.kinds r (Nat.lt_of_lt_of_le hr hg.kinds),
      fun r hr => hsame.commus r (Nat.lt_of_lt_of_le hr hg.commus),
      fun r hr => hsame.univars r (Nat.lt_of_lt_of_le hr hg.univars)⟩
  · change (h'.nodes.get t).id ≤ newId
    by_cases hlt : t < st.heap.nodes.size
    · rw [← hsame.nodes t hlt]
      exact Int.le_trans (hok.ids t hlt) hnew
    · exact hids (Int.le_trans hok.newId hnew) t ht (Nat.le_of_not_lt hlt)

theorem createExpr_logged (hold : Old h0 st) (hnew : st.newId ≤ newId)
    (desc : TypeDesc Path Longident) (level scope : Int) {id : Int}
    (hid : -1 ≤ newId → id ≤ newId) :
    Logged h0 st (createExpr { st with newId } desc level scope id) := by
  refine logged_new hold hnew { Same.refl st.heap st.heap with
    nodes := fun r hr => (get_alloc _ _ hr).symm }
    { Grows.refl st.heap with nodes := Nat.le_succ _ } fun hpos t ht hge => ?_
  obtain rfl : t = st.heap.nodes.size := Nat.le_antisymm (Nat.le_of_lt_succ ht) hge
  show ((st.heap.nodes.alloc { desc, level, scope, id }).get st.heap.nodes.size).id ≤ newId
  rw [get_alloc_self]
  exact hid hpos

theorem settled_logged {res : Option (Except Exn (State Path Longident))}
    (hres : ∀ st', res = some (.ok st') → Logged h0 st st') (h : settled st res = some st') :
    Logged h0 st st' := by
  obtain ⟨r, rfl, h⟩ := Option.map_eq_some_iff.mp h
  cases r with
  | ok st1 =>
    cases h
    exact hres _ rfl
  | error e =>
    cases h
    exact .refl _ _

/-- **Every operation logs its changes.** -/
theorem execPlain_logged (hold : Old h0 st)
    (h : execPlain fuel st op = some st') : Logged h0 st st' := by
  have hnew : ∀ {h' : Heap Path Longident}, Same st.heap st.heap h' → Grows st.heap h' →
      h'.nodes = st.heap.nodes → Logged h0 st { st with heap := h' } := fun hsame hgrows hnodes =>
    logged_new hold (Int.le_refl _) hsame hgrows fun _ t ht hge =>
      absurd (hnodes ▸ ht) (Nat.not_lt.mpr hge)
  cases op with
  | repr ty =>
    obtain ⟨⟨t, st1⟩, hrun, rfl⟩ := Option.map_eq_some_iff.mp h
    exact repr_logged hrun
  | linkType ty ty' => exact linkType_logged hold h
  | setTypeDesc ty td phys => exact setTypeDesc_logged hold h
  | setLevel ty level => exact setLevel_logged hold h
  | setScope ty scope => exact setScope_logged hold h
  | setUnivar rty ty =>
    cases h
    exact setUnivar_logged rty ty
  | setName nm v =>
    cases h
    exact setName_logged nm v
  | linkRowFieldExt inside v => exact settled_logged (fun _ => linkRowFieldExt_logged) h
  | linkKind inside k => exact settled_logged (fun _ => linkKind_logged) h
  | linkCommu inside c => exact settled_logged (fun _ => linkCommu_logged) h
  | newty3 level scope desc =>
    cases h
    exact createExpr_logged hold (by omega) desc level scope fun _ => Int.le_refl _
  | newpersty desc level scope n =>
    cases h
    exact createExpr_logged hold (Int.le_refl _) desc level scope (by omega)
  | newName v =>
    cases h
    exact hnew { Same.refl st.heap st.heap with
      names := fun r hr => (get_alloc _ _ hr).symm }
      { Grows.refl st.heap with names := Nat.le_succ _ } rfl
  | newRow =>
    cases h
    exact hnew { Same.refl st.heap st.heap with
      rows := fun r hr => (get_alloc _ _ hr).symm }
      { Grows.refl st.heap with rows := Nat.le_succ _ } rfl
  | newKind =>
    cases h
    exact hnew { Same.refl st.heap st.heap with
      kinds := fun r hr => (get_alloc _ _ hr).symm }
      { Grows.refl st.heap with kinds := Nat.le_succ _ } rfl
  | newCommu =>
    cases h
    exact hnew { Same.refl st.heap st.heap with
      commus := fun r hr => (get_alloc _ _ hr).symm }
      { Grows.refl st.heap with commus := Nat.le_succ _ } rfl
  | newUnivar v =>
    cases h
    exact hnew { Same.refl st.heap st.heap with
      univars := fun r hr => (get_alloc _ _ hr).symm }
      { Grows.refl st.heap with univars := Nat.le_succ _ } rfl
  | snapshot => cases h
  | backtrack k => cases h

/-! ## Backtracking -/

section RevLog

variable {χ : Type} {cells cells' : Nat → Cell χ} {n e : Nat} {cs : List χ}

/-- `rev_log` from the cell `n` on: the cells after it become invalid. -/
theorem revLog_spec (hpath : Trail.Path cells n cs e) (he : cells e = .unchanged)
    (hinc : Increasing cells) (hfuel : cs.length ≤ fuel) (accu : List χ)
    (hafter : ∀ k, n < k → cells' k = cells k) :
    ∃ cells'', revLog fuel accu (cells n) cells' = .ok (cs.reverse ++ accu, cells'') ∧
      (∀ k c ds, Trail.Path cells n (c :: ds) k → cells'' k = .invalid) ∧
      ∀ k, cells'' k = cells' k ∨ (n < k ∧ cells'' k = .invalid) := by
  induction hpath generalizing fuel accu cells' with
  | nil r =>
    refine ⟨cells', by rw [he, revLog]; rfl, fun k c ds hk => ?_, fun k => .inl rfl⟩
    cases hk with
    | cons hr _ => cases hr.symm.trans he
  | @cons r next e c cs hr hn ih =>
    have hlt := hinc _ _ _ hr
    obtain _ | fuel := fuel
    · exact absurd hfuel (by simp)
    rw [length_cons] at hfuel
    have hafter' : ∀ k, next < k → update cells' next .invalid k = cells k := by
      intro k hk
      rw [update_of_ne (Nat.ne_of_gt hk), hafter k (by omega)]
    obtain ⟨cells'', hrun, hpast, hsame⟩ :=
      ih he (Nat.le_of_succ_le_succ hfuel) (c :: accu) hafter'
    refine ⟨cells'', ?_, fun k d ds hk => ?_, fun k => ?_⟩
    · rw [hr, revLog, hafter next hlt, hrun, reverse_cons, append_assoc]
      rfl
    · cases hk with
      | cons hr' hk =>
        cases hr.symm.trans hr'
        cases hk with
        | nil =>
          rcases hsame next with heq | ⟨hlt', -⟩
          · rw [heq, update_self]
          · omega
        | cons hnext hk => exact hpast k _ _ (.cons hnext hk)
    · rcases hsame k with heq | ⟨hk, heq⟩
      · by_cases hkn : k = next
        · subst hkn
          rw [update_self] at heq
          exact .inr ⟨hlt, heq⟩
        · rw [update_of_ne hkn] at heq
          exact .inl heq
      · exact .inr ⟨by omega, heq⟩

end RevLog

/-- **To backtrack to a snapshot on the trail undoes the changes since then.** -/
theorem backtrack_spec (hok : st.trail.Ok) {cs : List (Change Path Longident)}
    (hpath : Trail.Path st.trail.cells s.changes cs st.trail.last) :
    ∃ cells, Cut st.trail.cells s.changes cells ∧
      backtrack st s = .ok { st with
        heap := undoAll undoChange cs st.heap
        trail := st.trail.back cells s.changes
        lastSnapshot := s.old } := by
  obtain ⟨k, old⟩ := s
  dsimp only at hpath
  have hlen := hpath.length_le hok.increasing
  have hfuel : cs.length ≤ st.trail.size := by
    have := hok.last_lt
    omega
  have hafter : ∀ j, k < j → st.trail.cells j = st.trail.cells j := fun _ _ => rfl
  obtain ⟨cells, hrun, hafter, hsame⟩ :=
    revLog_spec hpath hok.last_unchanged hok.increasing hfuel [] hafter
  have hcut : Cut st.trail.cells k cells := by
    refine ⟨fun j hj => ?_, hafter, fun j hj => ?_, fun j c n hj => ?_⟩
    · exact (hsame j).resolve_right fun h => by omega
    · rcases hsame j with heq | ⟨-, heq⟩
      · rw [heq, hj]
      · exact heq
    · rcases hsame j with heq | ⟨-, heq⟩
      · rw [← heq, hj]
      · cases hj.symm.trans heq
  refine ⟨cells, hcut, ?_⟩
  unfold backtrack
  cases hpath with
  | nil =>
    -- nothing has changed, and the trail ends here already
    have hlast := hok.last_unchanged
    rw [hlast, revLog] at hrun
    cases hrun
    have hback : st.trail.back st.trail.cells st.trail.last = st.trail := by
      rw [Log.back, ← hlast, update_eq_self]
    rw [hlast, hback]
    rfl
  | cons hr hn =>
    rw [hr] at hrun ⊢
    dsimp only
    rw [hrun, Result.ok_bind, append_nil, foldl_reverse]
    rfl

/-! ## Runs -/

/-- What holds in a run: `h0` was the heap, and `floor` the last identifier, when the trail ended at
the cell `r`. -/
structure RunInv (h0 : Heap Path Longident) (floor : Int) (r : Nat) (st : State Path Longident)
    (taken : List Snapshot) : Prop where
  ok : st.trail.Ok
  tracks : Tracks undoChange (Same h0) st.trail r h0 st.heap
  grows : Grows h0 st.heap
  ids : ∀ t < h0.nodes.size, (st.node t).id ≤ floor
  lastSnapshot : floor ≤ st.lastSnapshot
  newId : floor ≤ st.newId
  idsOk : IdsOk st
  taken : ∀ s ∈ taken, Known st.trail r s.changes ∧ floor ≤ s.old

section Run

variable {floor : Int} {r : Nat} {taken taken' : List Snapshot}

theorem RunInv.old (h : RunInv h0 floor r st taken) : Old h0 st :=
  ⟨h.grows, fun t ht => Int.le_trans (h.ids t ht) h.lastSnapshot⟩

/-- Changes that are in the log -/
theorem RunInv.logged (h : RunInv h0 floor r st taken) (hl : Logged h0 st st') :
    RunInv h0 floor r st' taken := by
  obtain ⟨cs, htrail, hsame⟩ := hl.changes
  obtain ⟨ds, hpath, -⟩ := h.tracks
  refine ⟨htrail ▸ h.ok.pushes cs, ?_, h.grows.trans hl.grows, fun t ht => ?_, ?_,
    Int.le_trans h.newId hl.newId, hl.idsOk h.idsOk, fun s hs => ?_⟩
  · rw [htrail]
    exact h.tracks.pushes (fun _ _ _ => Same.trans) (fun c _ _ hs => hs.undo c) h.ok hsame
  · rw [hl.ids t (Nat.lt_of_lt_of_le ht h.grows.nodes)]
    exact h.ids t ht
  · rw [hl.lastSnapshot]
    exact h.lastSnapshot
  · obtain ⟨hk, hold⟩ := h.taken s hs
    exact ⟨htrail ▸ hk.pushes h.ok hpath cs, hold⟩

/-- A snapshot -/
theorem RunInv.take (h : RunInv h0 floor r st taken) :
    RunInv h0 floor r (snapshot st).2 (taken ++ [(snapshot st).1]) := by
  obtain ⟨cs, hpath, -⟩ := h.tracks
  refine { h with lastSnapshot := h.newId, idsOk := ⟨h.idsOk.newId, h.idsOk.ids⟩, taken := ?_ }
  exact forall_mem_append.mpr ⟨h.taken,
    forall_mem_singleton.mpr ⟨⟨h.ok.last_lt, .inl ⟨cs, hpath⟩⟩, h.lastSnapshot⟩⟩

/-- The identifiers when changes are undone -/
theorem undoAll_ids (cs : List (Change Path Longident)) (h : Heap Path Longident) :
    Grows h (undoAll undoChange cs h) ∧ Grows (undoAll undoChange cs h) h ∧
      ∀ t, ((undoAll undoChange cs h).nodes.get t).id = (h.nodes.get t).id := by
  induction cs with
  | nil => exact ⟨.refl h, .refl h, fun _ => rfl⟩
  | cons c cs ih =>
    obtain ⟨hle, hge⟩ := undoChange_grows c (undoAll undoChange cs h)
    exact ⟨ih.1.trans hge, hle.trans ih.2.1, fun t => (undoChange_id c _ t).trans (ih.2.2 t)⟩

/-- A backtrack to a later snapshot, or one that fails -/
theorem RunInv.backtrack (h : RunInv h0 floor r st taken) (hs : s ∈ taken)
    (hrun : backtrack st s = .ok st') : RunInv h0 floor r st' taken := by
  obtain ⟨hknown, hold⟩ := h.taken s hs
  obtain ⟨ds, hpath, -⟩ := h.tracks
  rcases hknown.reached with ⟨cs, hcs⟩ | hinvalid
  · obtain ⟨rest, -, hrest⟩ := hpath.split h.ok.last_unchanged hcs
    obtain ⟨cells, hcut, hrun'⟩ := backtrack_spec h.ok hrest
    obtain rfl := Except.ok.inj (hrun.symm.trans hrun')
    obtain ⟨hgrow, hshrink, hids⟩ := undoAll_ids rest st.heap
    refine ⟨h.ok.back hcut hknown.lt, h.tracks.back h.ok hcs hrest hcut, h.grows.trans hgrow,
      fun t ht => ?_, hold, h.newId, ⟨h.idsOk.newId, fun t ht => ?_⟩, fun s' hs' => ?_⟩
    · exact (hids t).symm ▸ h.ids t ht
    · exact (hids t).symm ▸ h.idsOk.ids t (Nat.lt_of_lt_of_le ht hshrink.nodes)
    · obtain ⟨hk, hold'⟩ := h.taken s' hs'
      exact ⟨hk.back h.ok hcs hrest hcut, hold'⟩
  · rw [TravLang.Types.backtrack, hinvalid] at hrun
    cases hrun

/-- **One operation keeps the invariant.** -/
theorem exec_inv (h : RunInv h0 floor r st taken)
    (hrun : exec fuel st taken op = some (st', taken')) : RunInv h0 floor r st' taken' := by
  have hplain : (exec fuel st taken op = (execPlain fuel st op).bind fun st => some (st, taken)) →
      RunInv h0 floor r st' taken' := by
    intro heq
    rw [heq] at hrun
    obtain ⟨st1, hstep, hrun⟩ := Option.bind_eq_some_iff.mp hrun
    cases hrun
    exact h.logged (execPlain_logged h.old hstep)
  cases op with
  | snapshot =>
    cases hrun
    exact h.take
  | backtrack k =>
    obtain ⟨s, hs, hrun⟩ := Option.bind_eq_some_iff.mp hrun
    obtain ⟨st1, hstep, hrun⟩ := Option.bind_eq_some_iff.mp hrun
    cases hrun
    obtain ⟨res, hres, hst⟩ := Option.map_eq_some_iff.mp hstep
    cases hres
    cases hback : backtrack st s with
    | error e =>
      rw [hback] at hst
      exact hst ▸ h
    | ok st2 =>
      rw [hback] at hst
      obtain rfl : st2 = st' := hst
      exact h.backtrack (List.mem_of_getElem? hs) hback
  | _ => exact hplain rfl

/-- **A run keeps the invariant.** -/
theorem run_inv {ops : List (Op Path Longident)} (h : RunInv h0 floor r st taken)
    (hrun : run fuel st taken ops = some (st', taken')) : RunInv h0 floor r st' taken' := by
  induction ops generalizing st taken with
  | nil =>
    cases hrun
    exact h
  | cons op ops ih =>
    obtain ⟨⟨st1, taken1⟩, hstep, hrun⟩ := Option.bind_eq_some_iff.mp hrun
    exact ih (exec_inv h hstep) hrun

/-- A snapshot begins a run of its own. -/
theorem RunInv.start (h : RunInv h0 floor r st taken) :
    RunInv st.heap st.newId (snapshot st).1.changes (snapshot st).2 [] :=
  ⟨h.ok, ⟨[], .nil _, .refl _ _⟩, .refl _, h.idsOk.ids, Int.le_refl _, Int.le_refl _,
    ⟨h.idsOk.newId, h.idsOk.ids⟩, nofun⟩

end Run

/-- A state that a client can reach -/
def Reachable (st : State Path Longident) : Prop :=
  ∃ fuel ops taken, run fuel initial [] ops = some (st, taken)

theorem Reachable.inv (h : Reachable st) :
    ∃ h0 floor r taken, RunInv h0 floor r st taken := by
  obtain ⟨fuel, ops, taken, hrun⟩ := h
  have hnone : ∀ t, ¬t < (initial : State Path Longident).heap.nodes.size := Nat.not_lt_zero
  exact ⟨initial.heap, -1, 0, taken, run_inv ⟨Trail.Log.ok_empty, ⟨[], .nil _, .refl _ _⟩, .refl _,
    fun t ht => absurd ht (hnone t), (by show (-1 : Int) ≤ 0; decide), Int.le_refl _,
    ⟨Int.le_refl _, fun t ht => absurd ht (hnone t)⟩, fun _ hs => (not_mem_nil hs).elim⟩ hrun⟩

/-- **To backtrack restores the snapshot.** Whatever a client does between a snapshot and the
backtrack to it, what existed at the snapshot has its contents of that time. -/
theorem backtrack_restores (hst : Reachable st) (fuel : Nat)
    (ops : List (Op Path Longident)) {taken : List Snapshot}
    (hrun : run fuel (snapshot st).2 [] ops = some (st', taken)) :
    ∃ st'', backtrack st' (snapshot st).1 = .ok st'' ∧ Same st.heap st.heap st''.heap := by
  obtain ⟨h0, floor, r, taken0, h⟩ := hst.inv
  have h' := run_inv h.start hrun
  obtain ⟨cs, hpath, hsame⟩ := h'.tracks
  obtain ⟨cells, -, hback⟩ := backtrack_spec h'.ok hpath
  exact ⟨_, hback, hsame⟩

/-- Two variables, the second one linked to the first -/
def linkedVars : List (Op Unit Unit) :=
  [.newty3 0 0 (.tvar none), .newty3 0 0 (.tvar none), .linkType 1 0]

/-- Changes of old and new nodes, with a snapshot to which the client backtracks -/
def someChanges : List (Op Unit Unit) :=
  [.newty3 0 0 (.ttuple [0]), .linkType 0 2, .repr 1, .snapshot, .setLevel 1 3, .backtrack 0,
    .newKind, .setTypeDesc 1 .tnil false]

theorem backtrack_restores_someChanges :
    ∃ st st' : State Unit Unit, ∃ taken, Reachable st ∧
      run 5 (snapshot st).2 [] someChanges = some (st', taken) ∧
      ∃ st'', backtrack st' (snapshot st).1 = .ok st'' ∧ Same st.heap st.heap st''.heap :=
  ⟨_, _, _, ⟨5, linkedVars, [], rfl⟩, rfl,
    backtrack_restores ⟨5, linkedVars, [], rfl⟩ 5 someChanges rfl⟩

end TravLang.Types
