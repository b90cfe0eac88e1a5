import TravLang.Runtime.Marshal.Rebuilding

/-!
# Runs of the reader

The reader follows the writer item by item: from the items of the values that the writer goes on
with, it fills the places that it still has to fill. The region and the table that it was given
are enough, and are used up at the end.
-/

namespace TravLang.Runtime.Marshal

open Result List

variable {D : Type} {w r : Host} {flags : Flags} {heap : Heap (Custom D)} {v₀ : Value}
  {em em' : List Nat} {vs : List Value} {s s' : InternState D} {stack : List InternItem}
  {items : List (Item D)} {rest : Bytes} {o : Obj Value (Custom D)} {i a k : Nat} {item : Item D}
  {d : Dest}

/-! ## Steps that read nothing -/

theorem pending_cons_freshOID (i : Nat) (stack : List InternItem) :
    pending (.freshOID i :: stack) = pending stack := rfl

/-- The invariant is about the blocks and the result only. -/
theorem Sim.congr (h : Sim w heap v₀ em vs s stack) (hheap : s'.heap = s.heap)
    (hresult : s'.result = s.result) : Sim w heap v₀ em vs s' stack := by
  have hcontent : ∀ d, content s' d = content s d := by
    intro d
    cases d with
    | root => rw [content, content, hresult]
    | field i j => rw [content, content, hheap]
  refine ⟨hheap ▸ h.length, hheap ▸ h.objects, h.positive, h.oids, h.next, h.nodup, ?_, ?_⟩
  · intro hno d hd
    rw [hcontent]
    exact h.empty hno d hd
  · intro d v hd
    rw [hcontent]
    exact h.filled hd

/-- The writer skips a forwarding block. -/
theorem Sim.follow {u : Value} (h : Sim w heap v₀ em (.block a :: vs) s stack)
    (hget : heap.get a = some o) (hforward : shortCircuit heap o = some u) :
    Sim w heap v₀ em (u :: vs) s stack := by
  refine ⟨h.length, h.objects, h.positive, h.oids, ?_, h.nodup, h.empty, h.filled⟩
  have hnext := h.next
  rcases hp : pending stack with _ | ⟨d, ds⟩
  · rw [hp] at hnext
    cases hnext
  · rw [hp] at hnext
    obtain ⟨⟨v, hv, hfollows⟩, hnext⟩ := forall₂_cons.mp hnext
    exact .cons ⟨v, hv, hfollows.tail ⟨a, o, rfl, hget, hforward⟩⟩ hnext

/-- The identity of an object is renewed. -/
theorem Sim.freshOID (h : Sim w heap v₀ em vs s (.freshOID i :: stack)) :
    ∃ heap' result' oid', freshOID s i =
        .ok { s with heap := heap', result := result', oid := oid' } ∧
      heap'.length = s.heap.length ∧
      Sim w heap v₀ em vs { s with heap := heap', result := result', oid := oid' } stack := by
  obtain ⟨a, o, hi, hget, htag, htwo⟩ := h.oids mem_cons_self
  obtain ⟨o₁, o', ho₁, ho', hcorr⟩ := h.objects hi
  rw [hget] at ho₁
  cases ho₁
  have hno : ¬ NoObjects heap := fun hno => hno a o hget htag
  have hpop : Sim w heap v₀ em vs s stack :=
    ⟨h.length, h.objects, fun hm => h.positive (mem_cons_of_mem _ hm),
      fun hm => h.oids (mem_cons_of_mem _ hm), h.next, h.nodup, h.empty, h.filled⟩
  -- a block of fields, with two fields at least
  obtain ⟨tag, f₀, f₁, fields, rfl⟩ : ∃ tag f₀ f₁ fields,
      o' = .structured tag (f₀ :: f₁ :: fields) := by
    cases o with
    | structured tag fs =>
      cases o' with
      | structured tag' fs' =>
        have hlen : 2 ≤ fs'.length := hcorr.2 ▸ htwo
        obtain _ | ⟨f₀, _ | ⟨f₁, fields⟩⟩ := fs'
        · simp at hlen
        · simp at hlen
        · exact ⟨tag', f₀, f₁, fields, rfl⟩
      | _ => exact hcorr.elim
    | _ => simp [Obj.fields] at htwo
  have hplace : content s (.field i 1) = some f₁ := by simp [content, ho', Obj.fields]
  obtain ⟨heap', result', hstore, hlen, hobjects, hnew, hold⟩ := store_ok (.long s.oid) hplace
  have hsim : Sim w heap v₀ em vs
      { s with heap := heap', result := result', oid := s.oid + 1 } stack := by
    refine Sim.congr (s := { s with heap := heap', result := result' }) ?_ rfl rfl
    refine ⟨hlen.trans h.length, ?_, hpop.positive, hpop.oids, h.next, h.nodup,
      fun hno' => absurd hno' hno, ?_⟩
    · intro j b hj
      obtain ⟨x, x', hx, hx', hxx⟩ := h.objects hj
      obtain ⟨x₁, hx₁, hcorr₁⟩ := hobjects hx' hxx
      exact ⟨x, x₁, hx, hx₁, hcorr₁⟩
    · intro d v hd
      by_cases hdi : d = .field i 1
      · subst hdi
        exact ⟨_, hnew, .inr ⟨_, rfl, .inr ⟨i, a, o, rfl, hi, hget, htag⟩⟩⟩
      · rw [hold d hdi]
        exact h.filled hd
  have hrenew : (do
      let s ← s.store (.long s.oid) (.field i 1)
      .ok { s with oid := s.oid + 1 } : Except Exn (InternState D)) =
        .ok { s with heap := heap', result := result', oid := s.oid + 1 } := by
    rw [hstore, ok_bind]
  unfold Marshal.freshOID
  rw [ho']
  rcases f₁ with _ | n | _ | _
  · exact ⟨heap', result', _, hrenew, hlen, hsim⟩
  · by_cases hn : 0 ≤ n
    · exact ⟨heap', result', _, by simp only [if_pos hn]; exact hrenew, hlen, hsim⟩
    · exact ⟨s.heap, s.result, s.oid, by simp only [if_neg hn], rfl, hpop⟩
  · exact ⟨heap', result', _, hrenew, hlen, hsim⟩
  · exact ⟨heap', result', _, hrenew, hlen, hsim⟩

/-! ## The supplies of the reader -/

/-- What the reader has to read, and the memory it was given for it: `em'` are the objects that
there will be at the end. -/
structure Supply (w r : Host) (flags : Flags) (heap : Heap (Custom D)) (em em' : List Nat)
    (items : List (Item D)) (rest : Bytes) (s : InternState D) : Prop where
  src : ∃ bs, encodeAll w flags items = .ok bs ∧ s.internSrc = bs ++ rest
  compressed : s.compressed = flags.compressed
  dest : ∀ left, s.internDest = some left → left = wordsAll r items
  table : match s.internObjTable with
    | none => flags.noSharing = true ∨ em' = []
    | some t => flags.noSharing = false ∧ t.entries = (List.range em.length).map .block ∧
      t.size = em'.length
  single : NoObjects heap → flags.noSharing = true → Single s s.heap.length

theorem Supply.split (h : Supply w r flags heap em em' (item :: items) rest s) :
    ∃ bs bs', item.encode w flags = .ok bs ∧ encodeAll w flags items = .ok bs' ∧
      s.internSrc = bs ++ (bs' ++ rest) := by
  obtain ⟨bs, hbs, hsrc⟩ := h.src
  obtain ⟨b, hb, hrest⟩ := bind_eq_ok.mp hbs
  obtain ⟨b', hb', heq⟩ := bind_eq_ok.mp hrest
  obtain rfl := Except.ok.inj heq
  exact ⟨b, b', hb, hb', by rw [hsrc, append_assoc]⟩

/-- Storing a value that is not a block keeps the places of the blocks. -/
theorem Single.store {v : Value} (h : Single s k) (hempty : content s d = some none)
    (hnew : content s' d = some (some v)) (hold : ∀ e, e ≠ d → content s' e = content s e)
    (hv : ∀ i, v ≠ .block i) : Single s' k := by
  have hiff : ∀ i e, content s' e = some (some (.block i)) ↔
      content s e = some (some (.block i)) := by
    intro i e
    by_cases he : e = d
    · subst he
      rw [hnew, hempty]
      simp [hv i]
    · rw [hold e he]
  simpa only [Single, ne_eq, hiff] using h

/-- The first place of block `k`. -/
theorem Single.store_block (h : Single s k) (hempty : content s d = some none)
    (hnew : content s' d = some (some (.block k)))
    (hold : ∀ e, e ≠ d → content s' e = content s e) :
    Single s' (k + 1) := by
  constructor
  · intro i hi
    rcases Nat.lt_succ_iff_lt_or_eq.mp hi with hlt | rfl
    · obtain ⟨e, he, huniq⟩ := h.1 i hlt
      have hed : e ≠ d := by
        rintro rfl
        rw [hempty] at he
        cases he
      refine ⟨e, by rw [hold e hed, he], ?_⟩
      intro e' he'
      by_cases hed' : e' = d
      · subst hed'
        rw [hnew] at he'
        cases he'
        omega
      · exact huniq e' (by rw [← hold e' hed', he'])
    · refine ⟨d, hnew, ?_⟩
      intro e he
      by_contra hed
      rw [hold e hed] at he
      exact h.2 i (Nat.le_refl i) e he
  · intro i hi e he
    by_cases hed : e = d
    · subst hed
      rw [hnew] at he
      cases he
      omega
    · rw [hold e hed] at he
      exact h.2 i (by omega) e he

/-- A new block without values in its fields. -/
theorem Single.alloc {k words : Nat} {o' : Obj (Option Value) (Custom D)} {src : Bytes}
    (h : Single s k) (hnone : ∀ x ∈ o'.fields, x = none) : Single (s.alloc src words o') k := by
  have hiff : ∀ i e, content (s.alloc src words o') e = some (some (.block i)) ↔
      content s e = some (some (.block i)) := by
    intro i e
    cases e with
    | root => rfl
    | field a j =>
      rw [content_alloc]
      split
      · next ha =>
        subst ha
        constructor
        · intro hj
          cases hnone _ (mem_iff_getElem?.mpr ⟨j, hj⟩)
        · intro hj
          simp [content] at hj
      · rfl
  simpa only [Single, ne_eq, hiff] using h

/-! ## One round -/

theorem mem_readItems {item : InternItem} {n : Nat} (h : item ∈ readItems d n) :
    ∃ e m, item = .readItems e m ∧ 0 < m := by
  unfold readItems at h
  split at h
  · next hn =>
    rw [mem_singleton] at h
    exact ⟨d, n, h, hn⟩
  · cases h

theorem pending_readItems_cons (d : Dest) (n : Nat) (stack : List InternItem) :
    pending (.readItems d (n + 1) :: stack) =
      d :: pending (readItems d.next n ++ stack) := by
  rw [pending_append, pending_readItems]
  show (InternItem.readItems d (n + 1)).dests ++ pending stack = _
  rw [dests_succ]
  rfl

section

variable (hitem : itemOf o = some item) (htwo : o.tag = objectTag → 2 ≤ o.fields.length)

include hitem htwo

/-- The requests for a new block are for its fields, in order. -/
theorem pending_requests (n : Nat) : pending (item.requests n) = newDests n o := by
  cases o with
  | structured tag fields =>
    cases hitem
    simp only [Item.requests]
    split
    · next hobject =>
      have hlen : fields.length = 2 + (fields.length - 2) := by
        have : 2 ≤ fields.length := htwo hobject
        omega
      rw [pending_append, pending_cons_freshOID, pending_readItems, pending_readItems, newDests]
      simp only [InternItem.dests, Obj.fields]
      rw [← map_append, hlen, Nat.add_sub_cancel_left, List.range'_append_1]
    · rw [pending_readItems]
      rfl
  | _ =>
    cases hitem
    try rfl

theorem mem_requests {n : Nat} {req : InternItem} (h : req ∈ item.requests n) :
    (∃ e m, req = .readItems e m ∧ 0 < m) ∨
      (req = .freshOID n ∧ o.tag = objectTag ∧ 2 ≤ o.fields.length) := by
  cases o with
  | structured tag fields =>
    cases hitem
    simp only [Item.requests] at h
    split at h
    · next hobject =>
      rw [mem_append, mem_cons] at h
      rcases h with h | rfl | h
      · exact .inl (mem_readItems h)
      · exact .inr ⟨rfl, hobject, htwo hobject⟩
      · exact .inl (mem_readItems h)
    · exact .inl (mem_readItems h)
  | abstract n => cases hitem
  | _ =>
    cases hitem
    cases h

end

section Rounds

variable {findOps : Bytes → Option (CustomOps D)} {f : String} {u v' : Value} {d : Dest} {n : Nat}
  {item : Item D} {rest' : Bytes}

theorem internStep_readItems {s₁ s₂ : InternState D} {reqs : List InternItem}
    (hread : internValue f r findOps s = .ok (v', s₁, reqs)) (hstore : s₁.store v' d = .ok s₂) :
    internStep f r findOps (s, .readItems d (n + 1) :: stack) =
      .inl (s₂, reqs ++ (readItems d.next n ++ stack)) := by
  simp only [internStep, internItem]
  rw [hread, ok_bind]
  simp only
  rw [hstore, ok_bind]
  rfl

/-- An item without a block. -/
theorem round_immediate (f : String) (findOps : Bytes → Option (CustomOps D))
    (hsim : Sim w heap v₀ em (u :: vs) s (.readItems d (n + 1) :: stack))
    (hsupply : Supply w r flags heap em em' (item :: items) rest s) (hwords : item.words r = 0)
    (hread : ∀ {bs rest'}, item.encode w flags = .ok bs → s.internSrc = bs ++ rest' →
      internValue f r findOps s = .ok (v', { s with internSrc := rest' }, []))
    (hsame : Same w heap em u v') (hv : flags.noSharing = true → ∀ i, v' ≠ .block i) :
    ∃ s' stack', internStep f r findOps (s, .readItems d (n + 1) :: stack) = .inl (s', stack') ∧
      Sim w heap v₀ em vs s' stack' ∧ Supply w r flags heap em em' items rest s' ∧
      s'.allocated = s.allocated := by
  obtain ⟨bs, bs', hbs, hbs', hsrc⟩ := hsupply.split
  have hpending := pending_readItems_cons d n stack
  have hsim' : Sim w heap v₀ em (u :: vs) { s with internSrc := bs' ++ rest }
      (.readItems d (n + 1) :: stack) := hsim.congr rfl rfl
  obtain ⟨heap', result', hstore, hlen, hsim'', hnew, hold⟩ := hsim'.store hpending rfl
    (fun req hreq => (mem_append.mp hreq).imp mem_readItems (mem_cons_of_mem _)) hsame
  refine ⟨_, _, internStep_readItems (hread hbs hsrc) hstore, hsim'', ?_, rfl⟩
  refine ⟨⟨bs', hbs', rfl⟩, hsupply.compressed, ?_, hsupply.table, ?_⟩
  · intro left hleft
    have := hsupply.dest left hleft
    rwa [← singleton_append, wordsAll_append, wordsAll_singleton, hwords, Nat.zero_add] at this
  · intro hno hns
    have hsingle : Single { s with internSrc := bs' ++ rest } s.heap.length :=
      hsupply.single hno hns
    have hempty := hsim'.empty hno d (hpending ▸ mem_cons_self)
    have := hsingle.store hempty hnew hold (hv hns)
    rwa [← hlen] at this

/-- An item with a block. -/
theorem round_object
    (hsim : Sim w heap v₀ em (.block a :: vs) s (.readItems d (n + 1) :: stack))
    (hsupply : Supply w r flags heap em em' (item :: items) rest s)
    (hvalid : item.Valid w r findOps) (hc : Compatible w r flags) (hget : heap.get a = some o)
    (hitem : itemOf o = some item) (hobj : item.isObject = true)
    (htwo : o.tag = objectTag → 2 ≤ o.fields.length) (hlt : em.length < em'.length) :
    ∃ s' stack', internStep f r findOps (s, .readItems d (n + 1) :: stack) = .inl (s', stack') ∧
      Sim w heap v₀ (em ++ [a]) (o.fields ++ vs) s' stack' ∧
      Supply w r flags heap (em ++ [a]) em' items rest s' ∧
      s'.allocated = s.allocated + item.words r := by
  obtain ⟨bs, bs', hbs, hbs', hsrc⟩ := hsupply.split
  have hwords : wordsAll r (item :: items) = item.words r + wordsAll r items := by
    rw [← singleton_append, wordsAll_append, wordsAll_singleton]
  have hroom : s.Room (item.words r) := by
    constructor
    · intro left hleft
      have := hsupply.dest left hleft
      omega
    · intro t ht
      have htable := hsupply.table
      rw [ht] at htable
      obtain ⟨-, hentries, hsize⟩ := htable
      rw [hentries, hsize, length_map, length_range]
      exact hlt
  obtain ⟨o', hreceived, hread⟩ := internValue_object f hvalid hobj hc hbs hsrc hroom
  rw [hsim.length] at hread
  have hpending := pending_readItems_cons d n stack
  have hnone : ∀ x ∈ o'.fields, x = none := by
    intro x hx
    cases o with
    | structured tag fields =>
      cases hitem
      rw [show o' = _ from hreceived] at hx
      exact eq_of_mem_replicate hx
    | abstract n => cases hitem
    | doubleArray ds =>
      cases hitem
      obtain ⟨ds', -, -, rfl⟩ := hreceived
      cases hx
    | custom c k =>
      cases hitem
      obtain ⟨c', k', rfl⟩ := hreceived
      cases hx
    | _ =>
      cases hitem
      rw [show o' = _ from hreceived] at hx
      cases hx
  -- first the block, with the place for it still to be filled; then the place
  have hreqs : pending (item.requests em.length ++ (readItems d.next n ++ stack)) =
      newDests em.length o ++ pending (readItems d.next n ++ stack) := by
    rw [pending_append, pending_requests hitem htwo]
  have halloc := hsim.alloc (.readItems d 1 ::
      (item.requests em.length ++ (readItems d.next n ++ stack))) hpending hget
    (corresponds_of_received hitem hreceived) hnone
    (by
      rw [pending_readItems_cons, ← hreqs]
      rfl)
    (by
      intro req hreq
      rcases mem_cons.mp hreq with rfl | hreq
      · exact .inl ⟨d, 1, rfl, Nat.one_pos⟩
      rcases mem_append.mp hreq with hreq | hreq
      · exact (mem_requests hitem htwo hreq).imp_right .inr
      rcases mem_append.mp hreq with hreq | hreq
      · exact .inl (mem_readItems hreq)
      · exact .inr (.inl (mem_cons_of_mem _ hreq)))
    (bs' ++ rest) (item.words r)
  obtain ⟨heap', result', hstore, hlen, hsim'', hnew, hold⟩ := halloc.store
    (pending_readItems_cons d 0 _) rfl (fun req hreq => .inr (mem_cons_of_mem _ hreq))
    (Same.block (List.getElem?_concat_length))
  refine ⟨_, _, internStep_readItems hread hstore, hsim'', ?_, rfl⟩
  refine ⟨⟨bs', hbs', rfl⟩, hsupply.compressed, ?_, ?_, ?_⟩
  · intro left hleft
    obtain ⟨left₀, hleft₀, rfl⟩ := Option.map_eq_some_iff.mp hleft
    have := hsupply.dest left₀ hleft₀
    omega
  · have htable := hsupply.table
    simp only [InternState.alloc]
    cases ht : s.internObjTable with
    | none =>
      rw [ht] at htable
      exact htable
    | some t =>
      rw [ht] at htable
      obtain ⟨hns, hentries, hsize⟩ := htable
      refine ⟨hns, ?_, hsize⟩
      simp only
      rw [hentries, hsim.length, length_append, length_singleton, range_succ,
        map_append]
      rfl
  · intro hno hns
    have hempty := halloc.empty hno d (by rw [pending_readItems_cons]; exact mem_cons_self)
    have hsingle : Single (s.alloc (bs' ++ rest) (item.words r) o') em.length :=
      Single.alloc (hsim.length ▸ hsupply.single hno hns) hnone
    have := hsingle.store_block hempty hnew hold
    rwa [show em.length + 1 = heap'.length by rw [hlen]; simp [InternState.alloc, hsim.length]]
      at this

/-! ## Whole runs -/

theorem Supply.freshOID {heap' : List (Obj (Option Value) (Custom D))}
    {result' : Option Value} {oid' : Int} (h : Supply w r flags heap em em' items rest s)
    (hsim : Sim w heap v₀ em vs s (.freshOID i :: stack)) :
    Supply w r flags heap em em' items rest
      { s with heap := heap', result := result', oid := oid' } := by
  refine ⟨h.src, h.compressed, h.dest, h.table, fun hno => ?_⟩
  obtain ⟨a, o, -, hget, htag, -⟩ := hsim.oids mem_cons_self
  exact absurd htag (hno a o hget)

theorem internStep_freshOID (h : freshOID s i = .ok s') :
    internStep f r findOps (s, .freshOID i :: stack) = .inl (s', stack) := by
  simp only [internStep, internItem]
  rw [h, ok_bind]

/-- While there are values to come, the reader gets to a request for one of them. -/
theorem halts_of_request {Q : InternState D → Prop} : ∀ {stack : List InternItem}
    {s : InternState D}, Sim w heap v₀ em (u :: vs) s stack →
    Supply w r flags heap em em' items rest s →
    (∀ {s₁ : InternState D} {d : Dest} {n : Nat} {stack₁ : List InternItem},
      Sim w heap v₀ em (u :: vs) s₁ (.readItems d (n + 1) :: stack₁) →
      Supply w r flags heap em em' items rest s₁ → s₁.allocated = s.allocated →
      ∃ s', Machine.Halts (internStep f r findOps) (s₁, .readItems d (n + 1) :: stack₁) (.ok s') ∧
        Q s') →
    ∃ s', Machine.Halts (internStep f r findOps) (s, stack) (.ok s') ∧ Q s'
  | [], s, hsim, _, _ => nomatch hsim.next
  | .freshOID i :: stack, s, hsim, hsupply, h => by
    obtain ⟨heap', result', oid', hstep, -, hsim'⟩ := hsim.freshOID
    obtain ⟨s', hhalts, hq⟩ := halts_of_request hsim' (hsupply.freshOID hsim) h
    exact ⟨s', Machine.halts_of_inl (internStep_freshOID hstep) hhalts, hq⟩
  | .readItems d 0 :: stack, s, hsim, _, _ =>
    absurd (hsim.positive mem_cons_self) (Nat.lt_irrefl 0)
  | .readItems d (n + 1) :: stack, s, hsim, hsupply, h => h hsim hsupply rfl

/-- Without values to come, the reader comes to its end. -/
theorem halts_of_done : ∀ {stack : List InternItem} {s : InternState D},
    Sim w heap v₀ em [] s stack → Supply w r flags heap em em' [] rest s →
    ∃ s', Machine.Halts (internStep f r findOps) (s, stack) (.ok s') ∧
      Sim w heap v₀ em [] s' [] ∧ Supply w r flags heap em em' [] rest s' ∧
      s'.allocated = s.allocated
  | [], s, hsim, hsupply => ⟨s, Machine.halts_of_inr rfl, hsim, hsupply, rfl⟩
  | .freshOID i :: stack, s, hsim, hsupply => by
    obtain ⟨heap', result', oid', hstep, -, hsim'⟩ := hsim.freshOID
    obtain ⟨s', hhalts, hs'⟩ := halts_of_done hsim' (hsupply.freshOID hsim)
    exact ⟨s', Machine.halts_of_inl (internStep_freshOID hstep) hhalts, hs'⟩
  | .readItems d 0 :: stack, s, hsim, _ =>
    absurd (hsim.positive mem_cons_self) (Nat.lt_irrefl 0)
  | .readItems d (n + 1) :: stack, s, hsim, _ => by
    have hnext := hsim.next
    rw [pending_readItems_cons] at hnext
    cases hnext

/-- Objects are only added. -/
theorem Emits.grows (h : Emits w flags heap em vs items em') : ∃ l, em' = em ++ l := by
  induction h with
  | done em => exact ⟨[], (append_nil em).symm⟩
  | step hemit _ ih =>
    obtain ⟨l, rfl⟩ := ih
    cases hemit with
    | fresh => exact ⟨_, append_assoc _ _ _⟩
    | _ => exact ⟨l, rfl⟩

theorem isObject_of_itemOf (hitem : itemOf o = some item) (hsize : o.wosize w ≠ 0) :
    item.isObject = true := by
  cases o with
  | structured tag fields =>
    cases hitem
    exact decide_eq_true hsize
  | abstract n => cases hitem
  | _ =>
    cases hitem
    try rfl

theorem two_le_of_valid (hitem : itemOf o = some item) (hsize : o.wosize w ≠ 0)
    (hvalid : item.Valid w r findOps) (htag : o.tag = objectTag) :
    2 ≤ o.fields.length := by
  cases o with
  | structured tag fields =>
    cases hitem
    exact (hvalid.2.2 htag).resolve_left hsize
  | _ =>
    simp [Obj.tag, objectTag, abstractTag, stringTag, doubleTag, doubleArrayTag, customTag] at htag

/-- **The reader rebuilds what the writer has written**, and uses up the memory it was given. -/
theorem halts_of_emits (hc : Compatible w r flags)
    (hemits : Emits w flags heap em vs items em') :
    (∀ item ∈ items, item.Valid w r findOps) → ∀ {s : InternState D} {stack : List InternItem},
    Sim w heap v₀ em vs s stack → Supply w r flags heap em em' items rest s →
    ∃ s', Machine.Halts (internStep f r findOps) (s, stack) (.ok s') ∧
      Sim w heap v₀ em' [] s' [] ∧ Supply w r flags heap em' em' [] rest s' ∧
      s'.allocated = s.allocated + wordsAll r items := by
  induction hemits with
  | done em =>
    intro _ s stack hsim hsupply
    exact halts_of_done hsim hsupply
  | @step em em₁ em' v vs rest' items items' hemit hemits ih =>
    intro hvalid s stack hsim hsupply
    refine halts_of_request hsim hsupply ?_
    intro s₁ d n stack₁ hsim₁ hsupply₁ hallocated
    -- what remains to be done after a round for an item
    have hround : ∀ {item : Item D}, items = [item] →
        (∃ s₂ stack₂,
          internStep f r findOps (s₁, .readItems d (n + 1) :: stack₁) = .inl (s₂, stack₂) ∧
          Sim w heap v₀ em₁ (vs ++ rest') s₂ stack₂ ∧
          Supply w r flags heap em₁ em' items' rest s₂ ∧
          s₂.allocated = s₁.allocated + item.words r) →
        ∃ s', Machine.Halts (internStep f r findOps) (s₁, .readItems d (n + 1) :: stack₁)
            (.ok s') ∧ Sim w heap v₀ em' [] s' [] ∧ Supply w r flags heap em' em' [] rest s' ∧
          s'.allocated = s.allocated + wordsAll r (items ++ items') := by
      rintro item rfl ⟨s₂, stack₂, hstep, hsim₂, hsupply₂, hall₂⟩
      obtain ⟨s', hhalts, hsim', hsupply', hall'⟩ :=
        ih (fun x hx => hvalid x (mem_append_right _ hx)) hsim₂ hsupply₂
      refine ⟨s', Machine.halts_of_inl hstep hhalts, hsim', hsupply', ?_⟩
      rw [hall', hall₂, hallocated, wordsAll_append, wordsAll_singleton, Nat.add_assoc]
    cases hemit with
    | long k =>
      refine hround rfl (round_immediate f findOps hsim₁ hsupply₁ rfl (fun henc hsrc => ?_)
        (.long k) fun _ _ => nofun)
      exact internValue_int f (hvalid (.int k) (by simp)) hc henc hsrc
    | atom tag =>
      refine hround rfl (round_immediate f findOps hsim₁ hsupply₁ rfl (fun henc hsrc => ?_)
        (.atom tag) fun _ _ => nofun)
      exact internValue_atom f (hvalid (.block tag 0) (by simp)).1 hc henc hsrc
    | @empty a o hget hforward hsize =>
      refine hround rfl (round_immediate f findOps hsim₁ hsupply₁ rfl (fun henc hsrc => ?_)
        (.empty hget hsize) fun _ _ => nofun)
      exact internValue_atom f (hvalid (.block o.tag 0) (by simp)).1 hc henc hsrc
    | @forward a o u hget hforward =>
      obtain ⟨s', hhalts, hsim', hsupply', hall'⟩ := ih hvalid (hsim₁.follow hget hforward) hsupply₁
      exact ⟨s', hhalts, hsim', hsupply', by rw [hall', hallocated]; rfl⟩
    | @shared a pos o hget hforward hsize hsharing hpos =>
      have hshared := hvalid (.shared (if flags.compressed then pos else em.length - pos)) (by simp)
      have hlt : pos < em.length := (List.getElem?_eq_some_iff.mp hpos).1
      obtain ⟨l, hl⟩ := hemits.grows
      -- the table has an entry for the object
      obtain ⟨t, ht, hentries⟩ : ∃ t, s₁.internObjTable = some t ∧
          t.entries = (List.range em.length).map .block := by
        have htable := hsupply₁.table
        cases ht : s₁.internObjTable with
        | none =>
          rw [ht] at htable
          rcases htable with hns | hnil
          · rw [hsharing] at hns
            cases hns
          · rw [hl, append_eq_nil_iff] at hnil
            rw [hnil.1] at hlt
            cases hlt
        | some t =>
          rw [ht] at htable
          exact ⟨t, rfl, htable.2.1⟩
      have hentry : t.entries[pos]? = some (.block pos) := by
        rw [hentries, List.getElem?_map, List.getElem?_range hlt]
        rfl
      have hdistance : (if flags.compressed then pos else em.length - pos) =
          if s₁.compressed then pos else t.entries.length - pos := by
        rw [hsupply₁.compressed, hentries, length_map, length_range]
      refine hround rfl (round_immediate f findOps hsim₁ hsupply₁ rfl (fun henc hsrc => ?_)
        (.block hpos) (by rw [hsharing]; nofun))
      cases henc
      exact internValue_shared f hshared.1 hshared.2 ht hdistance hentry hsrc
    | @fresh a o item hget hforward hsize hnew hitem =>
      have hitemOk := hvalid item (by simp)
      obtain ⟨l, hl⟩ := hemits.grows
      have hlt : em.length < em'.length := by
        rw [hl]
        simp
      exact hround rfl (round_object hsim₁ hsupply₁ hitemOk hc hget hitem
        (isObject_of_itemOf hitem hsize) (two_le_of_valid hitem hsize hitemOk) hlt)

end Rounds

end TravLang.Runtime.Marshal
