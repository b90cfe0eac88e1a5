import TravLang.Runtime.Marshal.Writing

/-!
# What the reader rebuilds

The blocks that the reader makes are numbered in the order in which the writer has written them, so
block `i` of the reader stands for the `i`-th address that was written. While the reader works, the
places that are still to be filled are those for which the writer has values to come. The invariant
says that every other place has been filled with a value that stands for the value of the writer.
-/

namespace TravLang.Runtime.Marshal

open Result List

variable {D : Type} {w r : Host} {flags : Flags} {heap : Heap (Custom D)} {v₀ v v' u : Value}
  {em : List Nat} {o' : Obj (Option Value) (Custom D)} {o : Obj Value (Custom D)} {d : Dest}
  {a : Nat} {vs : List Value} {s : InternState D} {stack stack₀ : List InternItem} {ds : List Dest}

/-! ## Values of the writer and of the reader -/

/-- From a value to what is left of it when forwarding blocks are skipped. -/
def Follows (heap : Heap (Custom D)) : Value → Value → Prop :=
  Relation.ReflTransGen fun v u => ∃ a o, v = .block a ∧ heap.get a = some o ∧
    shortCircuit heap o = some u

/-- The same value, when block `i` stands for the `i`-th address of `em`. -/
inductive Same (w : Host) (heap : Heap (Custom D)) (em : List Nat) : Value → Value → Prop where
  | long (n : Int) : Same w heap em (.long n) (.long n)
  | atom (tag : Nat) : Same w heap em (.atom tag) (.atom tag)
  | empty {a : Nat} {o : Obj Value (Custom D)} : heap.get a = some o → o.wosize w = 0 →
      Same w heap em (.block a) (.atom o.tag)
  | block {a i : Nat} : em[i]? = some a → Same w heap em (.block a) (.block i)

/-- The same value, up to forwarding blocks. -/
def SameValue (w : Host) (heap : Heap (Custom D)) (em : List Nat) (v v' : Value) : Prop :=
  ∃ u, Follows heap v u ∧ Same w heap em u v'

/-- The same block, except for the values in its fields, for what custom blocks contain and for the
floats of very long arrays. -/
def Corresponds : Obj Value (Custom D) → Obj (Option Value) (Custom D) → Prop
  | .structured tag fields, .structured tag' fields' => tag = tag' ∧ fields.length = fields'.length
  | .string s, .string s' => s = s'
  | .double d, .double d' => d = d'
  | .doubleArray ds, .doubleArray ds' => ds.length = ds'.length ∧ (ds.length < 2 ^ 32 → ds = ds')
  | .custom _ _, .custom _ _ => True
  | _, _ => False

theorem Same.mono (h : Same w heap em v v') (a : Nat) :
    Same w heap (em ++ [a]) v v' := by
  cases h with
  | long n => exact .long n
  | atom tag => exact .atom tag
  | empty hget hsize => exact .empty hget hsize
  | block hi =>
    exact .block (by rw [List.getElem?_append_left (List.getElem?_eq_some_iff.mp hi).1, hi])

theorem SameValue.mono (h : SameValue w heap em v v') (a : Nat) :
    SameValue w heap (em ++ [a]) v v' := by
  obtain ⟨u, hu, hsame⟩ := h
  exact ⟨u, hu, hsame.mono a⟩

theorem corresponds_of_received {item : Item D} (hitem : itemOf o = some item)
    (h : item.Received o') : Corresponds o o' := by
  cases o with
  | structured tag fields =>
    cases hitem
    rw [show o' = _ from h]
    exact ⟨rfl, length_replicate.symm⟩
  | string s | double d =>
    cases hitem
    rw [show o' = _ from h]
    rfl
  | doubleArray ds =>
    cases hitem
    obtain ⟨ds', hlen, hsame, rfl⟩ := h
    exact ⟨hlen.symm, fun hshort => (hsame hshort).symm⟩
  | custom c n =>
    cases hitem
    obtain ⟨c', n', rfl⟩ := h
    trivial
  | abstract n => cases hitem

/-! ## Places -/

/-- The places that a request is about. -/
def InternItem.dests : InternItem → List Dest
  | readItems .root n => List.replicate n .root
  | readItems (.field a i) n => (List.range' i n).map (.field a)
  | freshOID _ => []

/-- The places that are still to be filled, in order. -/
def pending (stack : List InternItem) : List Dest := stack.flatMap InternItem.dests

theorem pending_append (stack stack' : List InternItem) :
    pending (stack ++ stack') = pending stack ++ pending stack' := flatMap_append

theorem pending_readItems (dest : Dest) (n : Nat) :
    pending (readItems dest n) = (InternItem.readItems dest n).dests := by
  cases n with
  | zero => cases dest <;> rfl
  | succ n => simp [readItems, pending]

/-- A request starts with its place. -/
theorem dests_succ (dest : Dest) (n : Nat) :
    (InternItem.readItems dest (n + 1)).dests =
      dest :: (InternItem.readItems dest.next n).dests := by
  cases dest <;> rfl

/-- The value of the writer for a place of the reader. -/
def expect (heap : Heap (Custom D)) (v₀ : Value) (em : List Nat) : Dest → Option Value
  | .root => some v₀
  | .field i j => em[i]?.bind fun a => (heap.get a).bind fun o => o.fields[j]?

/-- What a place of the reader contains, if there is such a place. -/
def content (s : InternState D) : Dest → Option (Option Value)
  | .root => some s.result
  | .field i j => s.heap[i]?.bind fun o => o.fields[j]?

theorem expect_mono (h : expect heap v₀ em d = some v) (a : Nat) :
    expect heap v₀ (em ++ [a]) d = some v := by
  cases d with
  | root => exact h
  | field i j =>
    obtain ⟨b, hb, hv⟩ := Option.bind_eq_some_iff.mp h
    have hlt := (List.getElem?_eq_some_iff.mp hb).1
    rw [expect, List.getElem?_append_left hlt, hb]
    exact hv

/-- A place of the writer that is new with the object `a`. -/
theorem expect_append (hget : heap.get a = some o) (h : expect heap v₀ (em ++ [a]) d = some v) :
    expect heap v₀ em d = some v ∨ ∃ j, d = .field em.length j ∧ o.fields[j]? = some v := by
  cases d with
  | root => exact .inl h
  | field i j =>
    rw [expect] at h ⊢
    rcases Nat.lt_trichotomy i em.length with hlt | rfl | hgt
    · rw [List.getElem?_append_left hlt] at h
      exact .inl h
    · right
      refine ⟨j, rfl, ?_⟩
      simpa [hget] using h
    · rw [List.getElem?_eq_none (by simp; omega)] at h
      cases h

/-- A place that exists can be filled; nothing else changes. -/
theorem store_ok {s : InternState D} {c : Option Value} (v : Value) (h : content s d = some c) :
    ∃ heap' result', s.store v d = .ok { s with heap := heap', result := result' } ∧
      heap'.length = s.heap.length ∧
      (∀ {o : Obj Value (Custom D)} {i : Nat} {o' : Obj (Option Value) (Custom D)},
        s.heap[i]? = some o' → Corresponds o o' → ∃ o₁, heap'[i]? = some o₁ ∧ Corresponds o o₁) ∧
      content { s with heap := heap', result := result' } d = some (some v) ∧
      ∀ d', d' ≠ d → content { s with heap := heap', result := result' } d' = content s d' := by
  cases d with
  | root =>
    refine ⟨s.heap, some v, rfl, rfl, fun hi hc => ⟨_, hi, hc⟩, rfl, ?_⟩
    intro d' hd'
    cases d' with
    | root => exact absurd rfl hd'
    | field i j => rfl
  | field a i =>
    obtain ⟨o', ho', hc⟩ := Option.bind_eq_some_iff.mp h
    cases o' with
    | structured tag fields =>
      have hlt : i < fields.length := (List.getElem?_eq_some_iff.mp hc).1
      have halt : a < s.heap.length := (List.getElem?_eq_some_iff.mp ho').1
      refine ⟨s.heap.set a (.structured tag (fields.set i (some v))), s.result, ?_, by simp, ?_, ?_,
        ?_⟩
      · simp only [InternState.store, ho']
        rw [if_pos hlt]
      · intro o k o₁ hk hcorr
        by_cases hak : a = k
        · subst hak
          rw [ho'] at hk
          cases hk
          refine ⟨_, List.getElem?_set_self halt, ?_⟩
          cases o with
          | structured tag' fields' => exact ⟨hcorr.1, by rw [length_set]; exact hcorr.2⟩
          | _ => exact hcorr.elim
        · exact ⟨o₁, by rw [List.getElem?_set_ne hak, hk], hcorr⟩
      · simp [content, halt, Obj.fields, hlt]
      · intro d' hd'
        cases d' with
        | root => rfl
        | field b j =>
          simp only [content]
          by_cases hab : a = b
          · subst hab
            have hij : i ≠ j := fun hij => hd' (by rw [hij])
            rw [List.getElem?_set_self halt, ho']
            simp [Obj.fields, List.getElem?_set_ne hij]
          · rw [List.getElem?_set_ne hab]
    | _ => simp [Obj.fields] at hc

/-! ## The invariant of the reader -/

/-- There are no objects, whose identities are renewed. -/
def NoObjects (heap : Heap (Custom D)) : Prop := ∀ a o, heap.get a = some o → o.tag ≠ objectTag

/-- The place of the identity of an object. -/
def Exempt (heap : Heap (Custom D)) (em : List Nat) (d : Dest) : Prop :=
  ∃ i a o, d = .field i 1 ∧ em[i]? = some a ∧ heap.get a = some o ∧ o.tag = objectTag

/-- The reader is in state `s` with requests `stack`, and the writer has written the objects `em` of
the graph of `v₀` and goes on with the values `vs`. -/
structure Sim (w : Host) (heap : Heap (Custom D)) (v₀ : Value) (em : List Nat) (vs : List Value)
    (s : InternState D) (stack : List InternItem) : Prop where
  length : s.heap.length = em.length
  objects : ∀ {i a : Nat}, em[i]? = some a →
    ∃ o o', heap.get a = some o ∧ s.heap[i]? = some o' ∧ Corresponds o o'
  positive : ∀ {d : Dest} {n : Nat}, .readItems d n ∈ stack → 0 < n
  oids : ∀ {i : Nat}, .freshOID i ∈ stack → ∃ a o, em[i]? = some a ∧ heap.get a = some o ∧
    o.tag = objectTag ∧ 2 ≤ o.fields.length
  next : List.Forall₂ (fun d u => ∃ v, expect heap v₀ em d = some v ∧ Follows heap v u)
    (pending stack) vs
  nodup : (pending stack).Nodup
  empty : NoObjects heap → ∀ d ∈ pending stack, content s d = some none
  filled : ∀ {d : Dest} {v : Value}, expect heap v₀ em d = some v → ∃ c, content s d = some c ∧
    (d ∈ pending stack ∨ ∃ v', c = some v' ∧ (SameValue w heap em v v' ∨ Exempt heap em d))

/-- The first `k` blocks are referred to from one place each, and the others from none. -/
def Single (s : InternState D) (k : Nat) : Prop :=
  (∀ i < k, ∃ d, content s d = some (some (.block i)) ∧
    ∀ d', content s d' = some (some (.block i)) → d' = d) ∧
  ∀ i, k ≤ i → ∀ d, content s d ≠ some (some (.block i))

/-- A place that is still to be filled is one for which the writer has a value. -/
theorem Sim.expected (h : Sim w heap v₀ em vs s stack) (hd : d ∈ pending stack) :
    ∃ v, expect heap v₀ em d = some v := by
  obtain ⟨i, hi, rfl⟩ := getElem_of_mem hd
  obtain ⟨v, hv, -⟩ := (forall₂_iff_get.mp h.next).2 i hi (h.next.length_eq ▸ hi)
  exact ⟨v, hv⟩

/-- The next place is filled. -/
theorem Sim.store (h : Sim w heap v₀ em (u :: vs) s stack) (hpending : pending stack = d :: ds)
    (hpending₀ : pending stack₀ = ds)
    (hsub : ∀ item ∈ stack₀, (∃ e n, item = .readItems e n ∧ 0 < n) ∨ item ∈ stack)
    (hsame : Same w heap em u v') :
    ∃ heap' result', s.store v' d = .ok { s with heap := heap', result := result' } ∧
      heap'.length = s.heap.length ∧
      Sim w heap v₀ em vs { s with heap := heap', result := result' } stack₀ ∧
      content { s with heap := heap', result := result' } d = some (some v') ∧
      ∀ d', d' ≠ d → content { s with heap := heap', result := result' } d' = content s d' := by
  have hnext := h.next
  have hnodup := h.nodup
  rw [hpending] at hnext hnodup
  obtain ⟨⟨v, hexpect, hfollows⟩, hnext⟩ := forall₂_cons.mp hnext
  obtain ⟨hd, hnodup⟩ := nodup_cons.mp hnodup
  obtain ⟨c, hc, -⟩ := h.filled hexpect
  obtain ⟨heap', result', hstore, hlen, hobjects, hnew, hold⟩ := store_ok v' hc
  refine ⟨heap', result', hstore, hlen, ?_, hnew, hold⟩
  refine ⟨hlen.trans h.length, ?_, ?_, ?_, hpending₀ ▸ hnext, hpending₀ ▸ hnodup, ?_, ?_⟩
  · intro i a hi
    obtain ⟨o, o', ho, ho', hcorr⟩ := h.objects hi
    obtain ⟨o₁, ho₁, hcorr₁⟩ := hobjects ho' hcorr
    exact ⟨o, o₁, ho, ho₁, hcorr₁⟩
  · intro e n hmem
    rcases hsub _ hmem with ⟨e', n', heq, hpos⟩ | hmem
    · cases heq
      exact hpos
    · exact h.positive hmem
  · intro i hmem
    rcases hsub _ hmem with ⟨e', n', heq, -⟩ | hmem
    · cases heq
    · exact h.oids hmem
  · intro hno e he
    rw [hpending₀] at he
    have hne : e ≠ d := fun heq => hd (heq ▸ he)
    rw [hold e hne]
    exact h.empty hno e (hpending ▸ mem_cons_of_mem _ he)
  · intro e v₁ he
    by_cases hed : e = d
    · subst hed
      rw [hexpect] at he
      cases he
      exact ⟨_, hnew, .inr ⟨v', rfl, .inl ⟨u, hfollows, hsame⟩⟩⟩
    · obtain ⟨c₁, hc₁, hcases⟩ := h.filled he
      refine ⟨c₁, by rw [hold e hed, hc₁], hcases.imp_left fun hmem => ?_⟩
      rw [hpending₀]
      rw [hpending] at hmem
      exact (mem_cons.mp hmem).resolve_left hed

theorem content_alloc (o' : Obj (Option Value) (Custom D)) (words : Nat) (src : Bytes)
    (i j : Nat) : content (s.alloc src words o') (.field i j) =
      if i = s.heap.length then o'.fields[j]? else content s (.field i j) := by
  simp only [content, InternState.alloc]
  rcases Nat.lt_trichotomy i s.heap.length with hlt | rfl | hgt
  · rw [List.getElem?_append_left hlt, if_neg (by omega)]
  · simp
  · rw [if_neg (by omega), List.getElem?_eq_none (by simp; omega),
      List.getElem?_eq_none (by omega)]

/-- The places that a new block has. -/
def newDests (n : Nat) (o : Obj Value (Custom D)) : List Dest :=
  (List.range' 0 o.fields.length).map (.field n)

/-- A new block is made, and its fields are requested. -/
theorem Sim.alloc (h : Sim w heap v₀ em (u :: vs) s stack) (stack₀ : List InternItem)
    (hpending : pending stack = d :: ds) (hget : heap.get a = some o) (hcorr : Corresponds o o')
    (hnone : ∀ f ∈ o'.fields, f = none)
    (hpending₀ : pending stack₀ = d :: (newDests em.length o ++ ds))
    (hsub : ∀ item ∈ stack₀, (∃ e n, item = .readItems e n ∧ 0 < n) ∨ item ∈ stack ∨
      (item = .freshOID em.length ∧ o.tag = objectTag ∧ 2 ≤ o.fields.length))
    (src : Bytes) (words : Nat) :
    Sim w heap v₀ (em ++ [a]) (u :: (o.fields ++ vs)) (s.alloc src words o') stack₀ := by
  have hfields : o'.fields.length = o.fields.length := by
    cases o <;> cases o' <;> simp_all [Corresponds, Obj.fields]
  have hnew : ∀ j < o.fields.length,
      content (s.alloc src words o') (.field em.length j) = some none := by
    intro j hj
    rw [content_alloc, if_pos h.length.symm, List.getElem?_eq_getElem (hfields ▸ hj)]
    exact congrArg some (hnone _ (getElem_mem _))
  have hold : ∀ {e c}, content s e = some c → content (s.alloc src words o') e = some c := by
    intro e c he
    cases e with
    | root => exact he
    | field i j =>
      have hlt : i < s.heap.length := by
        obtain ⟨x, hx, -⟩ := Option.bind_eq_some_iff.mp he
        exact (List.getElem?_eq_some_iff.mp hx).1
      rw [content_alloc, if_neg (by omega)]
      exact he
  have hexpected : ∀ {e v}, expect heap v₀ em e = some v → e ∉ newDests em.length o := by
    intro e v he hmem
    obtain ⟨j, -, rfl⟩ := mem_map.mp hmem
    simp [expect] at he
  have hnext := h.next
  rw [hpending] at hnext
  obtain ⟨⟨v, hexpect, hfollows⟩, hnext⟩ := forall₂_cons.mp hnext
  refine ⟨?_, ?_, ?_, ?_, ?_, ?_, ?_, ?_⟩
  · simp [InternState.alloc, h.length]
  · intro i b hi
    rcases Nat.lt_or_ge i em.length with hlt | hge
    · rw [List.getElem?_append_left hlt] at hi
      obtain ⟨x, x', hx, hx', hxx⟩ := h.objects hi
      exact ⟨x, x', hx, by
        rw [InternState.alloc, List.getElem?_append_left (h.length ▸ hlt), hx'], hxx⟩
    · have hi' : i = em.length := by
        have := (List.getElem?_eq_some_iff.mp hi).1
        simp at this
        omega
      subst hi'
      rw [List.getElem?_concat_length, Option.some.injEq] at hi
      subst hi
      exact ⟨o, o', hget, by simp [InternState.alloc, ← h.length], hcorr⟩
  · intro e n hmem
    rcases hsub _ hmem with ⟨e', n', heq, hpos⟩ | hmem | ⟨heq, -⟩
    · cases heq
      exact hpos
    · exact h.positive hmem
    · cases heq
  · intro i hmem
    rcases hsub _ hmem with ⟨e', n', heq, -⟩ | hmem | ⟨heq, htag, htwo⟩
    · cases heq
    · obtain ⟨b, x, hb, hx⟩ := h.oids hmem
      exact ⟨b, x, by rw [List.getElem?_append_left (List.getElem?_eq_some_iff.mp hb).1, hb], hx⟩
    · cases heq
      exact ⟨a, o, List.getElem?_concat_length, hget, htag, htwo⟩
  · rw [hpending₀]
    refine .cons ⟨v, expect_mono hexpect a, hfollows⟩ ?_
    refine rel_append ?_ (hnext.imp fun e x ⟨v₁, hv₁, hf⟩ => ⟨v₁, expect_mono hv₁ a, hf⟩)
    rw [newDests, forall₂_map_left_iff, forall₂_iff_get]
    refine ⟨by simp, ?_⟩
    intro j hj hj'
    refine ⟨_, ?_, .refl⟩
    simp [expect, hget]
  · rw [hpending₀]
    have hnodup := h.nodup
    rw [hpending] at hnodup
    obtain ⟨hd, hnodup⟩ := nodup_cons.mp hnodup
    have hfresh : ∀ e ∈ d :: ds, e ∉ newDests em.length o := by
      intro e he
      obtain ⟨v₁, hv₁⟩ := h.expected (hpending ▸ he)
      exact hexpected hv₁
    refine nodup_cons.mpr ⟨?_, nodup_append.mpr ⟨?_, hnodup, ?_⟩⟩
    · rw [mem_append, not_or]
      exact ⟨hfresh d mem_cons_self, hd⟩
    · exact List.Nodup.map (fun i j hij => by cases hij; rfl) List.nodup_range'
    · rintro e he e' he' rfl
      exact hfresh e (mem_cons_of_mem _ he') he
  · intro hno e he
    rw [hpending₀, mem_cons, mem_append] at he
    rcases he with rfl | he | he
    · exact hold (h.empty hno e (hpending ▸ mem_cons_self))
    · obtain ⟨j, hj, rfl⟩ := mem_map.mp he
      exact hnew j (by simpa using hj)
    · exact hold (h.empty hno e (hpending ▸ mem_cons_of_mem _ he))
  · intro e v₁ he
    rcases expect_append hget he with he | ⟨j, rfl, hj⟩
    · obtain ⟨c, hc, hcases⟩ := h.filled he
      refine ⟨c, hold hc, ?_⟩
      rcases hcases with hmem | ⟨v', hv', hsame | hex⟩
      · left
        rw [hpending] at hmem
        rw [hpending₀, mem_cons, mem_append]
        rcases mem_cons.mp hmem with rfl | hmem
        · exact .inl rfl
        · exact .inr (.inr hmem)
      · exact .inr ⟨v', hv', .inl (hsame.mono a)⟩
      · obtain ⟨i, b, x, rfl, hb, hx⟩ := hex
        exact .inr ⟨v', hv', .inr ⟨i, b, x, rfl,
          by rw [List.getElem?_append_left (List.getElem?_eq_some_iff.mp hb).1, hb], hx⟩⟩
    · have hlt : j < o.fields.length := (List.getElem?_eq_some_iff.mp hj).1
      refine ⟨none, hnew j hlt, .inl ?_⟩
      rw [hpending₀, mem_cons, mem_append]
      exact .inr (.inl (mem_map.mpr ⟨j, by simpa using hlt, rfl⟩))

end TravLang.Runtime.Marshal
