import TravLang.Runtime.Graph
import TravLang.Runtime.Marshal.Sizes
import TravLang.Runtime.Marshal.Termination

/-!
# Marshalling and back

A value made of integers, strings, floats and ordinary blocks is read back as a value with an
isomorphic graph, sharing and cycles included. Without sharing, a value without cycles is read back
as the tree that it unfolds to.
-/

namespace TravLang.Runtime.Marshal

open Result List

variable {D : Type} {host : Host} {flags : Flags} {heap : Heap (Custom D)} {v u : Value}
  {em em' : List Nat} {vs : List Value} {items : List (Item D)}

/-- Strings, floats and ordinary blocks of a host. -/
def OrdinaryObj (host : Host) (heap : Heap (Custom D)) (o : Obj Value (Custom D)) : Prop :=
  o.wosize host ≤ host.maxWosize ∧ (∀ v ∈ o.fields, ValueOk host heap v) ∧
  match o with
  | .structured tag _ => OrdinaryTag tag
  | .string _ => True
  | .double _ => True
  | _ => False

instance (host : Host) (heap : Heap (Custom D)) :
    (o : Obj Value (Custom D)) → Decidable (OrdinaryObj host heap o)
  | .structured tag _ => inferInstanceAs (Decidable (_ ∧ _ ∧ OrdinaryTag tag))
  | .string _ | .double _ => inferInstanceAs (Decidable (_ ∧ _ ∧ True))
  | .doubleArray _ | .custom _ _ | .abstract _ => inferInstanceAs (Decidable (_ ∧ _ ∧ False))

/-- A value made of integers, strings, floats and ordinary blocks. -/
structure OrdinaryGraph (host : Host) (heap : Heap (Custom D)) (v : Value) : Prop where
  value : ValueOk host heap v
  objects : ∀ a o, heap.get a = some o → OrdinaryObj host heap o

/-- Strings, floats, float arrays and ordinary blocks of a host. -/
def DataObj (host : Host) (heap : Heap (Custom D)) (o : Obj Value (Custom D)) : Prop :=
  o.wosize host ≤ host.maxWosize ∧ (∀ v ∈ o.fields, ValueOk host heap v) ∧
  match o with
  | .structured tag _ => OrdinaryTag tag
  | .custom _ _ => False
  | .abstract _ => False
  | _ => True

instance (host : Host) (heap : Heap (Custom D)) :
    (o : Obj Value (Custom D)) → Decidable (DataObj host heap o)
  | .structured tag _ => inferInstanceAs (Decidable (_ ∧ _ ∧ OrdinaryTag tag))
  | .string _ | .double _ | .doubleArray _ => inferInstanceAs (Decidable (_ ∧ _ ∧ True))
  | .custom _ _ | .abstract _ => inferInstanceAs (Decidable (_ ∧ _ ∧ False))

/-- A value made of integers, strings, floats, float arrays and ordinary blocks. -/
structure DataGraph (host : Host) (heap : Heap (Custom D)) (v : Value) : Prop where
  value : ValueOk host heap v
  objects : ∀ a o, heap.get a = some o → DataObj host heap o

theorem OrdinaryGraph.data (h : OrdinaryGraph host heap v) : DataGraph host heap v := by
  refine ⟨h.value, fun a o hget => ?_⟩
  obtain ⟨hsize, hfields, hkind⟩ := h.objects a o hget
  refine ⟨hsize, hfields, ?_⟩
  cases o with
  | doubleArray ds => exact hkind.elim
  | _ => exact hkind

section

variable (h : DataGraph host heap v)

include h

theorem DataGraph.graphOk : GraphOk host heap v := by
  refine ⟨h.value, fun a o hget => ?_⟩
  obtain ⟨hsize, hfields, hkind⟩ := h.objects a o hget
  refine ⟨hsize, hfields, ?_⟩
  cases o with
  | structured tag fields =>
    exact ⟨hkind.1, fun hf => absurd hf hkind.2.2, fun ho => absurd ho hkind.2.1⟩
  | abstract n => exact hkind.elim
  | _ => trivial

variable {a : Nat} {o : Obj Value (Custom D)}

theorem DataGraph.tag_ne (hget : heap.get a = some o) :
    o.tag ≠ objectTag ∧ o.tag ≠ forwardTag := by
  have hkind := (h.objects a o hget).2.2
  cases o with
  | structured tag fields => exact hkind.2
  | _ =>
    simp [Obj.tag, objectTag, forwardTag, abstractTag, stringTag, doubleTag, doubleArrayTag,
      customTag]

theorem DataGraph.noObjects : NoObjects heap :=
  fun _ _ hget => (h.tag_ne hget).1

theorem DataGraph.shortCircuit_eq (hget : heap.get a = some o) : shortCircuit heap o = none := by
  have htag := (h.tag_ne hget).2
  unfold shortCircuit
  split
  · next tag f fields =>
    rw [if_neg]
    exact fun hf => htag hf.1
  · rfl

theorem DataGraph.follows_eq {u u' : Value} (hf : Follows heap u u') : u = u' := by
  induction hf with
  | refl => rfl
  | tail _ hstep =>
    obtain ⟨a, o, -, hget, hsome⟩ := hstep
    rw [h.shortCircuit_eq hget] at hsome
    cases hsome

theorem DataGraph.customsOk (r : Host) (findOps : Bytes → Option (CustomOps D)) :
    CustomsOk r findOps heap :=
  fun _ _ _ hget => (h.objects _ _ hget).2.2.elim

end

/-! ## The writer does not fail -/

section

variable (hflags : flags.compat32 = false)

include hflags

theorem externInt_ok (n : Int) : ∃ bs, externInt host flags n = .ok bs := by
  unfold externInt
  rw [hflags]
  split
  · exact ⟨_, rfl⟩
  split
  · exact ⟨_, rfl⟩
  split
  · exact ⟨_, rfl⟩
  split
  · exact ⟨_, rfl⟩
  · exact ⟨_, rfl⟩

theorem externHeader_ok (sz tag : Nat) : ∃ bs, externHeader host flags sz tag = .ok bs := by
  unfold externHeader
  simp only [hflags, Bool.false_eq_true, and_false, if_false]
  split
  · exact ⟨_, rfl⟩
  split
  · split
    · exact ⟨_, rfl⟩
    · exact ⟨_, rfl⟩
  · exact ⟨_, rfl⟩

theorem externString_ok (s : Bytes) : ∃ bs, externString host flags s = .ok bs := by
  have hlen : ∃ bs, externStringLength host flags s.length = .ok bs := by
    unfold externStringLength externLength
    simp only [hflags, Bool.false_eq_true, and_false, if_false]
    split
    · exact ⟨_, rfl⟩
    split
    · exact ⟨_, rfl⟩
    split
    · split
      · exact ⟨_, rfl⟩
      · exact ⟨_, rfl⟩
    · exact ⟨_, rfl⟩
  obtain ⟨bs, hbs⟩ := hlen
  exact ⟨_, by rw [externString, hbs, ok_bind]⟩

end

/-- The items of an ordinary value have encodings. -/
theorem Emit.encode_ok (hgraph : OrdinaryGraph host heap v) (hflags : flags.compat32 = false)
    (h : Emit host flags heap em u items em' vs) :
    ∃ bs, encodeAll host flags items = .ok bs := by
  cases h with
  | forward => exact ⟨[], rfl⟩
  | long n =>
    rw [encodeAll_singleton]
    exact externInt_ok hflags n
  | atom tag =>
    rw [encodeAll_singleton]
    exact externHeader_ok hflags 0 tag
  | empty =>
    rw [encodeAll_singleton]
    exact externHeader_ok hflags 0 _
  | shared =>
    rw [encodeAll_singleton]
    exact ⟨_, rfl⟩
  | @fresh a o item hget hforward hsize hnew hitem =>
    rw [encodeAll_singleton]
    have hkind := (hgraph.objects a o hget).2.2
    cases o with
    | structured tag fields =>
      cases hitem
      exact externHeader_ok hflags _ _
    | string s =>
      cases hitem
      exact externString_ok hflags s
    | double d =>
      cases hitem
      exact ⟨_, rfl⟩
    | _ => exact hkind.elim

/-- The only failure is that of the table. -/
theorem run_ordinary (hgraph : OrdinaryGraph host heap v) (hflags : flags.compat32 = false)
    {r : Except Exn ExternState}
    (h : Machine.Halts (externStep host flags heap) (externInit host, v, []) r) :
    (flags.noSharing = false ∧ r = .error .outOfMemory) ∨ ∃ s, r = .ok s := by
  obtain ⟨n, hn⟩ := h
  have hrun := run_externStep hgraph.data.graphOk.objects hn
    ⟨by simp [externInit], fun _ => standsFor_init host⟩ (by simpa using hgraph.value)
  cases r with
  | ok s => exact .inr ⟨s, rfl⟩
  | error e =>
    rcases hrun with ⟨hsharing, rfl⟩ | ⟨em, u, items, em', vs, hemit, herr⟩
    · exact .inl ⟨hsharing, rfl⟩
    · obtain ⟨bs, hbs⟩ := hemit.encode_ok hgraph hflags
      rw [hbs] at herr
      cases herr

/-! ## The graph that the reader has built -/

/-- A block all of whose fields have been read. -/
def complete : Obj (Option Value) (Custom D) → Option (Obj Value (Custom D))
  | .structured tag fields => (fields.mapM id).map (.structured tag)
  | .string s => some (.string s)
  | .double d => some (.double d)
  | .doubleArray ds => some (.doubleArray ds)
  | .custom c words => some (.custom c words)
  | .abstract words => some (.abstract words)

def InternState.graph (s : InternState D) : Graph (Custom D) := fun i => s.heap[i]?.bind complete

/-- Fields that have all been read. -/
theorem mapM_of_filled {R : Value → Value → Prop} : ∀ (fields : List Value)
    (fields' : List (Option Value)), fields.length = fields'.length →
    (∀ (j : Nat) (v : Value), fields[j]? = some v → ∃ v', fields'[j]? = some (some v') ∧ R v v') →
    ∃ vs, fields'.mapM id = some vs ∧ List.Forall₂ R fields vs
  | [], [], _, _ => ⟨[], rfl, .nil⟩
  | v :: fields, f :: fields', hlen, h => by
    obtain ⟨v', hv', hR⟩ := h 0 v rfl
    obtain ⟨vs, hvs, hall⟩ := mapM_of_filled fields fields'
      (Nat.succ.inj hlen) fun j u hu => h (j + 1) u hu
    obtain rfl : f = some v' := by simpa using hv'
    exact ⟨v' :: vs, by rw [mapM_cons, hvs]; rfl, .cons hR hall⟩

/-- The objects that have been written have contents. -/
theorem Emits.nonempty (h : Emits host flags heap em vs items em')
    (hem : ∀ a ∈ em, ∃ o, heap.get a = some o ∧ o.wosize host ≠ 0) :
    ∀ a ∈ em', ∃ o, heap.get a = some o ∧ o.wosize host ≠ 0 := by
  induction h with
  | done em => exact hem
  | step hemit _ ih =>
    refine ih ?_
    cases hemit with
    | fresh hget hforward hsize =>
      exact forall_mem_append.mpr ⟨hem, forall_mem_singleton.mpr ⟨_, hget, hsize⟩⟩
    | _ => exact hem

/-- The length of a float array takes four bytes at most. -/
def Obj.Short {F C : Type} : Obj F C → Prop
  | .doubleArray ds => ds.length < 2 ^ 32
  | _ => True

/-- Blocks with the same contents, up to a relation between their fields. -/
def Alike {C : Type} (same : Value → Value → Prop) : Obj Value C → Obj Value C → Prop
  | .structured tag fields, .structured tag' fields' =>
    tag = tag' ∧ List.Forall₂ same fields fields'
  | .string str, .string str' => str = str'
  | .double d, .double d' => d = d'
  | .doubleArray ds, .doubleArray ds' => ds = ds'
  | _, _ => False

/-- **At its end, the reader has a graph like that of the writer.** -/
theorem Sim.homomorphism (hgraph : DataGraph host heap v) {s : InternState D}
    (hsim : Sim host heap v em [] s [])
    (hem : ∀ a ∈ em, ∃ o, heap.get a = some o ∧ o.wosize host ≠ 0 ∧ Obj.Short o) :
    ∃ v', s.result = some v' ∧
      Homomorphism host heap.get s.graph v v' (fun a i => em[i]? = some a) := by
  have hfilled : ∀ {d : Dest} {u : Value}, expect heap v em d = some u →
      ∃ u', content s d = some (some u') ∧ Same host heap em u u' := by
    intro d u hd
    obtain ⟨c, hc, hmem | ⟨u', rfl, ⟨x, hx, hsame⟩ | hex⟩⟩ := hsim.filled hd
    · cases hmem
    · rw [← hgraph.follows_eq hx] at hsame
      exact ⟨u', hc, hsame⟩
    · obtain ⟨i, a, o, -, -, hget, htag⟩ := hex
      exact absurd htag (hgraph.noObjects a o hget)
  -- the blocks, with their fields related as the writer and the reader see them
  have hblock : ∀ {a i : Nat}, em[i]? = some a → ∃ o o', heap.get a = some o ∧
      s.graph i = some o' ∧ o.wosize host = o'.wosize host ∧ Alike (Same host heap em) o o' := by
    intro a i hi
    obtain ⟨o, o', hget, ho', hcorr⟩ := hsim.objects hi
    have hkind := (hgraph.objects a o hget).2.2
    cases o with
    | structured tag fields =>
      cases o' with
      | structured tag' fields' =>
        obtain ⟨rfl, hlen⟩ := hcorr
        obtain ⟨us, hus, hall⟩ := mapM_of_filled (R := Same host heap em) _ _ hlen (by
          intro j u hu
          obtain ⟨u', hu', hsame⟩ := hfilled (d := .field i j) (u := u) (by
            simp [expect, hi, hget, Obj.fields, hu])
          refine ⟨u', ?_, hsame⟩
          simpa [content, ho', Obj.fields] using hu')
        refine ⟨_, .structured tag us, hget, ?_, hall.length_eq, rfl, hall⟩
        rw [InternState.graph, ho', Option.bind_some, complete, hus]
        rfl
      | _ => exact hcorr.elim
    | string str =>
      cases o' with
      | string str' =>
        obtain rfl : str = str' := hcorr
        exact ⟨_, .string str, hget, by rw [InternState.graph, ho']; rfl, rfl, rfl⟩
      | _ => exact hcorr.elim
    | double d =>
      cases o' with
      | double d' =>
        obtain rfl : d = d' := hcorr
        exact ⟨_, .double d, hget, by rw [InternState.graph, ho']; rfl, rfl, rfl⟩
      | _ => exact hcorr.elim
    | doubleArray ds =>
      cases o' with
      | doubleArray ds' =>
        obtain ⟨o₁, hget₁, -, hshort⟩ := hem a (mem_iff_getElem?.mpr ⟨i, hi⟩)
        rw [hget] at hget₁
        cases hget₁
        obtain rfl : ds = ds' := hcorr.2 hshort
        exact ⟨_, .doubleArray ds, hget, by rw [InternState.graph, ho']; rfl, rfl, rfl⟩
      | _ => exact hcorr.elim
    | _ => exact hkind.elim
  have hview : ∀ {u u' : Value}, Same host heap em u u' →
      SameView (fun a i => em[i]? = some a) (Graph.view host heap.get u)
        (s.graph.view host u') := by
    intro u u' hsame
    cases hsame with
    | long n => exact rfl
    | atom tag => exact rfl
    | empty hget hsize =>
      rw [Graph.view_empty hget hsize]
      exact rfl
    | @block a i hi =>
      obtain ⟨o, o', hget, ho', hsize, -⟩ := hblock hi
      obtain ⟨o₁, hget₁, hne, -⟩ := hem a (mem_iff_getElem?.mpr ⟨i, hi⟩)
      rw [hget] at hget₁
      cases hget₁
      rw [Graph.view_block hget hne, Graph.view_block ho' (hsize ▸ hne)]
      exact hi
  obtain ⟨v', hv', hsame⟩ := hfilled (d := .root) rfl
  refine ⟨v', Option.some.inj hv', hview hsame, ?_⟩
  intro a i hi
  obtain ⟨o, o', hget, ho', -, hoo⟩ := hblock hi
  refine ⟨o, o', hget, ho', ?_⟩
  cases o with
  | structured tag fields =>
    cases o' with
    | structured tag' fields' => exact ⟨hoo.1, hoo.2.imp fun _ _ => hview⟩
    | _ => exact hoo.elim
  | string str =>
    cases o' with
    | string str' => exact hoo
    | _ => exact hoo.elim
  | double d =>
    cases o' with
    | double d' => exact hoo
    | _ => exact hoo.elim
  | doubleArray ds =>
    cases o' with
    | doubleArray ds' => exact hoo
    | _ => exact hoo.elim
  | _ => exact hoo.elim

/-- A correspondence of blocks with different places of a list is one-to-one. -/
theorem isomorphic_of_nodup {g g' : Graph (Custom D)} {v' : Value}
    (h : Homomorphism host g g' v v' (fun a i => em[i]? = some a)) (hnodup : em.Nodup) :
    Isomorphic host g g' v v' := by
  refine ⟨_, h, fun a ha => h.total ha, fun b hb => h.onto hb, ?_, ?_⟩
  · intro a a' b ha ha'
    exact Option.some.inj (ha.symm.trans ha')
  · intro a b b' hb hb'
    exact (List.getElem?_inj (List.getElem?_eq_some_iff.mp hb).1 hnodup).mp (hb.trans hb'.symm)


/-! ## Unfolding -/

section

variable (hgraph : OrdinaryGraph host heap v)

include hgraph

/-- A value of a graph without cycles unfolds to a tree. -/
theorem OrdinaryGraph.unfolds (hacyclic : Graph.Acyclic host heap.get) (hu : ValueOk host heap u) :
    ∃ t, Unfolds host heap.get u t := by
  -- by induction on the blocks, in the order of their fields
  have hblock : ∀ a, (heap.get a).isSome → ∃ t, Unfolds host heap.get (.block a) t := by
    intro a
    induction hacyclic.acc_heap a with
    | intro a _ ih =>
    intro ha
    obtain ⟨o, hget⟩ := Option.isSome_iff_exists.mp ha
    obtain ⟨-, hfields, hkind⟩ := hgraph.objects a o hget
    by_cases hsize : o.wosize host = 0
    · exact ⟨_, .atom (Graph.view_empty hget hsize)⟩
    have hview := Graph.view_block (g := heap.get) hget hsize
    cases o with
    | structured tag fields =>
      have hall : ∀ x ∈ fields, ∃ t, Unfolds host heap.get x t := by
        intro x hx
        have hx' := hfields x hx
        cases x with
        | long n => exact ⟨_, .long rfl⟩
        | atom t => exact ⟨_, .atom rfl⟩
        | block b =>
          obtain ⟨o', hb⟩ := Option.isSome_iff_exists.mp hx'.2.2
          by_cases hsize' : o'.wosize host = 0
          · exact ⟨_, .atom (Graph.view_empty hb hsize')⟩
          · exact ih b ⟨_, _, hget, hx, Graph.view_block hb hsize'⟩ hx'.2.2
      obtain ⟨ts, hts⟩ := exists_unfoldsAll hall
      exact ⟨_, .node hview hget hts⟩
    | string s => exact ⟨_, .string hview hget⟩
    | double d => exact ⟨_, .double hview hget⟩
    | _ => exact hkind.elim
  cases u with
  | long n => exact ⟨_, .long rfl⟩
  | atom t => exact ⟨_, .atom rfl⟩
  | block a => exact hblock a hu.2.2

/-- Each round without sharing takes a node off the trees that are left. -/
theorem Emit.unfoldsAll (hns : flags.noSharing = true) {rest : List Value} {ts : List Tree}
    (h : Emit host flags heap em u items em' vs) (hts : UnfoldsAll host heap.get (u :: rest) ts) :
    ∃ ts', sizeOf ts' < sizeOf ts ∧ UnfoldsAll host heap.get (vs ++ rest) ts' := by
  cases hts with
  | @cons _ t _ ts ht hts =>
  have hpos : 0 < sizeOf t := by
    cases t <;> simp only [Tree.long.sizeOf_spec, Tree.atom.sizeOf_spec, Tree.string.sizeOf_spec,
      Tree.double.sizeOf_spec, Tree.node.sizeOf_spec] <;> omega
  have hleaf : sizeOf ts < sizeOf (t :: ts) := by
    rw [List.cons.sizeOf_spec]
    omega
  cases h with
  | forward hget hforward =>
    rw [hgraph.data.shortCircuit_eq hget] at hforward
    cases hforward
  | shared hget hforward hsize hsharing =>
    rw [hns] at hsharing
    cases hsharing
  | @fresh a o item hget hforward hsize hnew hitem =>
    have hview := Graph.view_block (g := heap.get) hget hsize
    have hkind := (hgraph.objects a o hget).2.2
    cases o with
    | structured tag fields =>
      -- the tree of a block of fields is a node, and its subtrees are those of the fields
      obtain ⟨ts', rfl, hts'⟩ : ∃ ts', t = .node tag ts' ∧ UnfoldsAll host heap.get fields ts' := by
        cases ht with
        | long hv => rw [hview] at hv; cases hv
        | atom hv => rw [hview] at hv; cases hv
        | string hv ho | double hv ho =>
          rw [hview] at hv
          cases hv
          rw [hget] at ho
          cases ho
        | node hv ho hall =>
          rw [hview] at hv
          cases hv
          rw [hget] at ho
          cases ho
          exact ⟨_, rfl, hall⟩
      obtain ⟨ts₁, hts₁, hsize₁⟩ := UnfoldsAll.append hts hts'
      refine ⟨ts₁, ?_, hts₁⟩
      rw [List.cons.sizeOf_spec, Tree.node.sizeOf_spec]
      omega
    | string s => exact ⟨ts, hleaf, hts⟩
    | double d => exact ⟨ts, hleaf, hts⟩
    | _ => exact hkind.elim
  | _ => exact ⟨ts, hleaf, hts⟩

variable {s : ExternState}

/-- Without sharing, the writer comes to its end on a value without cycles. -/
theorem exists_halts_noSharing (hacyclic : Graph.Acyclic host heap.get)
    (hns : flags.noSharing = true) (hs : Written host flags s em) :
    ∃ r, Machine.Halts (externStep host flags heap) (s, v, []) r := by
  obtain ⟨t, ht⟩ := hgraph.unfolds hacyclic hgraph.value
  refine exists_halts (R := fun k _ vs => ∃ ts, k = sizeOf ts ∧ UnfoldsAll host heap.get vs ts)
    hgraph.data.graphOk.objects ?_ _ ⟨[t], rfl, .cons ht .nil⟩ hs (by simpa using hgraph.value)
  rintro k em u rest items em' vs ⟨ts, rfl, hts⟩ hemit
  obtain ⟨ts', hlt, hts'⟩ := hemit.unfoldsAll hgraph hns hts
  exact ⟨_, hlt, ts', rfl, hts'⟩

/-! ## Round trips -/

/-- What the reader makes of a run of the writer on its own host. -/
theorem read_ordinary
    (hrun : Machine.Halts (externStep host flags heap) (externInit host, v, []) (.ok s))
    (findOps : Bytes → Option (CustomOps D)) (f : String) (oid : Int) (rest : Bytes) :
    ∃ (em : List Nat) (m : Nat) (s' : InternState D) (v' : Value), (∀ fuel ≥ m,
      internRec fuel f host findOps (internAllocStorage (s.output ++ rest)
        flags.compressed oid (whsize host s) s.objCounter) = some (.ok s')) ∧
      s'.internSrc = rest ∧ s'.result = some v' ∧
      Homomorphism host heap.get s'.graph v v' (fun a i => em[i]? = some a) ∧
      (flags.noSharing = false → em.Nodup) ∧
      (flags.noSharing = true → Single s' s'.heap.length) := by
  have hsame : host.sixtyFour = true ∨ host.sixtyFour = false := by
    cases host.sixtyFour <;> simp
  obtain ⟨items, em, s', hemits, -, ⟨m, hm⟩, hsim, hsupply, -, -⟩ := reads_back hgraph.data.graphOk
    (hgraph.data.customsOk host findOps) (hsame.imp_right .inl)
      (hsame.imp_right .inl) hrun f oid rest
  have hem : ∀ a ∈ em, ∃ o, heap.get a = some o ∧ o.wosize host ≠ 0 ∧ Obj.Short o := by
    intro a ha
    obtain ⟨o, hget, hne⟩ := hemits.nonempty nofun a ha
    have hkind := (hgraph.objects a o hget).2.2
    refine ⟨o, hget, hne, ?_⟩
    cases o with
    | doubleArray ds => exact hkind.elim
    | _ => trivial
  obtain ⟨v', hv', hhom⟩ := hsim.homomorphism hgraph.data hem
  have haddr := hemits.addresses hgraph.data.graphOk.objects (by simpa using hgraph.value)
    ⟨fun _ => nodup_nil, nofun⟩
  obtain ⟨bs, hbs, hsrc⟩ := hsupply.src
  cases hbs
  exact ⟨em, m, s', v', fun fuel hfuel => Machine.run_mono hm hfuel, hsrc, hv', hhom, haddr.nodup,
    hsupply.single hgraph.data.noObjects⟩

end

/-- **Marshalling and back.** With the default flags the writer comes to its end, unless it runs out
of memory, and the reader rebuilds from its bytes, and from no other ones, a value with an
isomorphic graph. Without sharing, a value without cycles is rebuilt as the tree that it unfolds to:
every block is referred to from one place. -/
theorem marshal_round_trip (hgraph : OrdinaryGraph host heap v)
    (findOps : Bytes → Option (CustomOps D)) (f : String) :
    (∃ n, (∀ fuel ≥ n, externRec fuel host .default heap v = some (.error .outOfMemory)) ∨
      ∃ s, (∀ fuel ≥ n, externRec fuel host .default heap v = some (.ok s)) ∧
        ∀ oid rest, ∃ m s' v', (∀ fuel ≥ m, internRec fuel f host findOps
            (internAllocStorage (s.output ++ rest) false oid (whsize host s) s.objCounter) =
              some (.ok s')) ∧
          s'.internSrc = rest ∧ s'.result = some v' ∧
          Isomorphic host heap.get s'.graph v v') ∧
    (Graph.Acyclic host heap.get → ∃ n s,
      (∀ fuel ≥ n, externRec fuel host { Flags.default with noSharing := true } heap v =
        some (.ok s)) ∧
      ∀ oid rest, ∃ m s' v' t, (∀ fuel ≥ m, internRec fuel f host findOps
          (internAllocStorage (s.output ++ rest) false oid (whsize host s) s.objCounter) =
            some (.ok s')) ∧
        s'.internSrc = rest ∧ s'.result = some v' ∧
        Unfolds host heap.get v t ∧ Unfolds host s'.graph v' t ∧
        ∀ i < s'.heap.length, ∃! d, content s' d = some (some (.block i))) := by
  have hinit : ∀ flags, Written host flags (externInit host) [] :=
    fun flags => ⟨by simp [externInit], fun _ => standsFor_init host⟩
  constructor
  · obtain ⟨r, n, hn⟩ := exists_halts_sharing (show Flags.default.noSharing = false from rfl)
      hgraph.data.graphOk.objects (hinit .default) hgraph.value
    refine ⟨n, ?_⟩
    rcases run_ordinary hgraph rfl ⟨n, hn⟩ with ⟨-, rfl⟩ | ⟨s, rfl⟩
    · exact .inl fun fuel hfuel => Machine.run_mono hn hfuel
    refine .inr ⟨s, fun fuel hfuel => Machine.run_mono hn hfuel, fun oid rest => ?_⟩
    obtain ⟨em, m, s', v', hread, hsrc, hv', hhom, hnodup, -⟩ :=
      read_ordinary hgraph ⟨n, hn⟩ findOps f oid rest
    exact ⟨m, s', v', hread, hsrc, hv', isomorphic_of_nodup hhom (hnodup rfl)⟩
  · intro hacyclic
    obtain ⟨r, n, hn⟩ := exists_halts_noSharing hgraph hacyclic
      (show ({ Flags.default with noSharing := true } : Flags).noSharing = true from rfl) (hinit _)
    rcases run_ordinary hgraph rfl ⟨n, hn⟩ with ⟨hsharing, -⟩ | ⟨s, rfl⟩
    · cases hsharing
    refine ⟨n, s, fun fuel hfuel => Machine.run_mono hn hfuel, fun oid rest => ?_⟩
    obtain ⟨em, m, s', v', hread, hsrc, hv', hhom, -, hsingle⟩ :=
      read_ordinary hgraph ⟨n, hn⟩ findOps f oid rest
    obtain ⟨t, ht⟩ := hgraph.unfolds hacyclic hgraph.value
    refine ⟨m, s', v', t, hread, hsrc, hv', ht, ht.map hhom.block hhom.root, fun i hi => ?_⟩
    obtain ⟨d, hd, hunique⟩ := (hsingle rfl).1 i hi
    exact ⟨d, hd, hunique⟩

/-- A pair of a string with itself. -/
def sharedPair : Heap (Custom Unit) :=
  [(16, .structured 0 [.block 24, .block 24]), (24, .string [104, 105])]

/-- A list that starts with that pair and goes on with itself. -/
def cyclicPairs : Heap (Custom Unit) := (8, .structured 0 [.block 16, .block 8]) :: sharedPair

theorem ordinaryGraph_pairs : OrdinaryGraph host64 cyclicPairs (.block 8) ∧
    OrdinaryGraph host64 sharedPair (.block 16) :=
  ⟨⟨by decide +kernel, Heap.objects_of_mem (by decide +kernel)⟩,
    ⟨by decide +kernel, Heap.objects_of_mem (by decide +kernel)⟩⟩

theorem marshal_round_trip_pairs :
    (∃ n s m s' v', externRec n host64 .default cyclicPairs (.block 8) = some (.ok s) ∧
      internRec m "input_value" host64 (fun _ => none)
        (internAllocStorage (s.output ++ []) false 0 (whsize host64 s) s.objCounter) =
          some (.ok s') ∧
      s'.internSrc = [] ∧ s'.result = some v' ∧
      Isomorphic host64 cyclicPairs.get s'.graph (.block 8) v') ∧
    ∃ (n : Nat) (s : ExternState) (m : Nat) (s' : InternState Unit) (v' : Value) (t : Tree),
      externRec n host64 { Flags.default with noSharing := true }
        sharedPair (.block 16) = some (.ok s) ∧
      internRec m "input_value" host64 (fun _ => none)
        (internAllocStorage (s.output ++ []) false 0 (whsize host64 s) s.objCounter) =
          some (.ok s') ∧
      s'.internSrc = [] ∧ s'.result = some v' ∧
      Unfolds host64 sharedPair.get (.block 16) t ∧ Unfolds host64 s'.graph v' t := by
  obtain ⟨hcyclic, htree⟩ := ordinaryGraph_pairs
  constructor
  · obtain ⟨n, hn⟩ := (marshal_round_trip hcyclic (fun _ => none) "input_value").1
    -- the run of the writer is short, and does not run out of memory
    obtain ⟨s₁, hs₁⟩ := finished_iff
      (x := externRec 20 host64 .default cyclicPairs (.block 8)) (by decide +kernel)
    have hlong : externRec (max n 20) host64 .default cyclicPairs (.block 8) = some (.ok s₁) :=
      Machine.run_mono hs₁ (Nat.le_max_right n 20)
    rcases hn with herr | ⟨s, hs, hread⟩
    · rw [herr _ (Nat.le_max_left n 20)] at hlong
      cases hlong
    · obtain ⟨m, s', v', hm, hsrc, hv', hiso⟩ := hread 0 []
      exact ⟨n, s, m, s', v', hs n (Nat.le_refl n), hm m (Nat.le_refl m), hsrc, hv', hiso⟩
  · obtain ⟨n, s, hs, hread⟩ :=
      (marshal_round_trip htree (fun _ => none) "input_value").2
        (Heap.acyclic_of_above (by decide))
    obtain ⟨m, s', v', t, hm, hsrc, hv', ht, ht', -⟩ := hread 0 []
    exact ⟨n, s, m, s', v', t, hs n (Nat.le_refl n), hm m (Nat.le_refl m), hsrc, hv', ht, ht'⟩

end TravLang.Runtime.Marshal
