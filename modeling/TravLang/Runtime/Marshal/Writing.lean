import TravLang.Runtime.Marshal.PositionTable
import TravLang.Runtime.Marshal.Reading

/-!
# What the writer writes

The traversal of the writer is described without its table and its stack: a list of addresses,
those of the objects that have been written so far, and a list of values that come next. Each round
turns the first of these values into an item, or replaces it. The bytes written are the encodings
of the items, and the sizes announced are the sums of their sizes.
-/

namespace TravLang.Runtime.Marshal

open Result List

variable {D : Type} {w : Host} {flags : Flags} {heap : Heap (Custom D)} {em : List Nat} {bs : Bytes}
  {s : ExternState} {item : Item D} {a slot : Nat} {o : Obj Value (Custom D)} {v : Value}
  {items : List (Item D)} {r : Except Exn ExternState} {vs rest : List Value}

/-! ## Graphs that can be written -/

/-- A value of host `w`, in a heap that has the block it points to. -/
def ValueOk (w : Host) (heap : Heap (Custom D)) : Value → Prop
  | .long n => InRange w n
  | .atom tag => tag < 256 ∧ tag ≠ forwardTag
  | .block a => 0 < a ∧ a < 2 ^ w.wordBits ∧ (heap.get a).isSome

instance (w : Host) (heap : Heap (Custom D)) : (v : Value) → Decidable (ValueOk w heap v)
  | .long n => inferInstanceAs (Decidable (InRange w n))
  | .atom _ => inferInstanceAs (Decidable (_ ∧ _))
  | .block _ => inferInstanceAs (Decidable (_ ∧ _ ∧ _))

/-- A block of host `w` that can be written. -/
def ObjOk (w : Host) (heap : Heap (Custom D)) (o : Obj Value (Custom D)) : Prop :=
  o.wosize w ≤ w.maxWosize ∧ (∀ v ∈ o.fields, ValueOk w heap v) ∧
  match o with
  | .structured tag fields =>
    FieldsTag tag ∧ (tag = forwardTag → fields ≠ []) ∧
      (tag = objectTag → fields = [] ∨ 2 ≤ fields.length)
  | .abstract _ => False
  | _ => True

instance (w : Host) (heap : Heap (Custom D)) (o : Obj Value (Custom D)) :
    Decidable (ObjOk w heap o) := by
  cases o <;> exact inferInstanceAs (Decidable (_ ∧ _ ∧ _))

/-- A value all of whose graph can be written on host `w`. -/
structure GraphOk (w : Host) (heap : Heap (Custom D)) (v : Value) : Prop where
  value : ValueOk w heap v
  objects : ∀ a o, heap.get a = some o → ObjOk w heap o

/-! ## The traversal, abstractly -/

/-- The item for a block that has not been written. -/
def itemOf : Obj Value (Custom D) → Option (Item D)
  | .structured tag fields => some (.block tag fields.length)
  | .string s => some (.string s)
  | .double d => some (.double d)
  | .doubleArray ds => some (.doubleArray ds)
  | .custom c _ => some (.custom c)
  | .abstract _ => none

/-- What a value is turned into, when the objects `em` have been written: items, the objects that
have been written then, and the values to go on with. -/
inductive Emit (w : Host) (flags : Flags) (heap : Heap (Custom D)) (em : List Nat) :
    Value → List (Item D) → List Nat → List Value → Prop where
  | long (n : Int) : Emit w flags heap em (.long n) [.int n] em []
  | atom (tag : Nat) : Emit w flags heap em (.atom tag) [.block tag 0] em []
  | forward {a : Nat} {o : Obj Value (Custom D)} {f : Value} : heap.get a = some o →
      shortCircuit heap o = some f → Emit w flags heap em (.block a) [] em [f]
  | empty {a : Nat} {o : Obj Value (Custom D)} : heap.get a = some o →
      shortCircuit heap o = none → o.wosize w = 0 →
      Emit w flags heap em (.block a) [.block o.tag 0] em []
  | shared {a pos : Nat} {o : Obj Value (Custom D)} : heap.get a = some o →
      shortCircuit heap o = none → o.wosize w ≠ 0 → flags.noSharing = false →
      em[pos]? = some a →
      Emit w flags heap em (.block a)
        [.shared (if flags.compressed then pos else em.length - pos)] em []
  | fresh {a : Nat} {o : Obj Value (Custom D)} {item : Item D} : heap.get a = some o →
      shortCircuit heap o = none → o.wosize w ≠ 0 → (flags.noSharing = false → a ∉ em) →
      itemOf o = some item → Emit w flags heap em (.block a) [item] (em ++ [a]) o.fields

/-- The items for a list of values. -/
inductive Emits (w : Host) (flags : Flags) (heap : Heap (Custom D)) :
    List Nat → List Value → List (Item D) → List Nat → Prop where
  | done (em : List Nat) : Emits w flags heap em [] [] em
  | step {em em₁ em' : List Nat} {v : Value} {vs rest : List Value} {items items' : List (Item D)} :
      Emit w flags heap em v items em₁ vs → Emits w flags heap em₁ (vs ++ rest) items' em' →
      Emits w flags heap em (v :: rest) (items ++ items') em'

/-! ## Sequences of items -/

def encodeAll (w : Host) (flags : Flags) : List (Item D) → Except Exn Bytes
  | [] => .ok []
  | item :: items => do
    let bs ← item.encode w flags
    let bs' ← encodeAll w flags items
    .ok (bs ++ bs')

def wordsAll (host : Host) (items : List (Item D)) : Nat := (items.map (Item.words host)).sum

theorem encodeAll_singleton (item : Item D) :
    encodeAll w flags [item] = item.encode w flags := by
  unfold encodeAll
  cases item.encode w flags with
  | error e => rfl
  | ok bs => simp [encodeAll]

theorem encodeAll_append : ∀ {items items' : List (Item D)} {bs bs' : Bytes},
    encodeAll w flags items = .ok bs → encodeAll w flags items' = .ok bs' →
    encodeAll w flags (items ++ items') = .ok (bs ++ bs')
  | [], items', bs, bs', h, h' => by
    obtain rfl := Except.ok.inj h
    exact h'
  | item :: items, items', bs, bs', h, h' => by
    obtain ⟨b, hb, h⟩ := bind_eq_ok.mp h
    obtain ⟨b', hb', h⟩ := bind_eq_ok.mp h
    obtain rfl := Except.ok.inj h
    rw [cons_append, encodeAll, hb, ok_bind, encodeAll_append hb' h', ok_bind,
      append_assoc]

theorem wordsAll_append (host : Host) (items items' : List (Item D)) :
    wordsAll host (items ++ items') = wordsAll host items + wordsAll host items' := by
  rw [wordsAll, map_append, sum_append]
  rfl

@[simp] theorem wordsAll_singleton (host : Host) (item : Item D) :
    wordsAll host [item] = item.words host := by
  simp [wordsAll]

/-! ## One round of the writer -/

/-- The state of the writer after the objects `em`. -/
structure Written (w : Host) (flags : Flags) (s : ExternState) (em : List Nat) : Prop where
  counter : s.objCounter = if flags.noSharing then 0 else em.length
  table : flags.noSharing = false → StandsFor w s.posTable em

/-- From state `s` to `s'`, the writer has written these items. -/
structure Wrote (w : Host) (flags : Flags) (s s' : ExternState) (items : List (Item D)) : Prop where
  output : ∃ bs, encodeAll w flags items = .ok bs ∧ s'.output = s.output ++ bs
  size32 : s'.size32 = s.size32 + wordsAll host32 items
  size64 : s'.size64 = s.size64 + wordsAll host64 items

/-- The values that come next. -/
def Next.pending : Next → List Value
  | value v stack => v :: stack.flatten
  | nextItem stack => stack.flatten

theorem Wrote.of_write (h : item.encode w flags = .ok bs) (h32 : item.words host32 = 0)
    (h64 : item.words host64 = 0) :
    Wrote w flags s (s.write bs) [item] :=
  ⟨⟨bs, by rw [encodeAll_singleton, h], rfl⟩, by rw [wordsAll_singleton, h32]; rfl,
    by rw [wordsAll_singleton, h64]; rfl⟩

/-- A block is recorded, unless the table overflows. -/
theorem externRecordLocation_written (s₁ : ExternState) (hs : Written w flags s em)
    (htable : s₁.posTable = s.posTable) (hcounter : s₁.objCounter = s.objCounter)
    (hslot : flags.noSharing = false → Probing.Holds (hash w s.posTable.shift)
      (s.posTable.entries.set slot (some (a, em.length))) (em ++ [a]).zipIdx) :
    (flags.noSharing = false ∧ externRecordLocation w flags s₁ a slot = .error .outOfMemory) ∨
    ∃ s', externRecordLocation w flags s₁ a slot = .ok s' ∧ Written w flags s' (em ++ [a]) ∧
      s'.output = s₁.output ∧ s'.size32 = s₁.size32 ∧ s'.size64 = s₁.size64 := by
  cases hsharing : flags.noSharing with
  | true =>
    refine .inr ⟨s₁, by rw [externRecordLocation, if_pos hsharing], ⟨?_, ?_⟩, rfl, rfl, rfl⟩
    · rw [hcounter, hs.counter, if_pos hsharing, if_pos hsharing]
    · rw [hsharing]
      nofun
  | false =>
    have hlen : s₁.objCounter = em.length := by
      rw [hcounter, hs.counter, if_neg (by simp [hsharing])]
    rcases externRecordLocation_spec hsharing (htable ▸ hs.table hsharing) hlen
      (htable ▸ hslot hsharing) with herr | ⟨t, ht, hst⟩
    · exact .inl ⟨rfl, herr⟩
    · refine .inr ⟨_, ht, ⟨?_, fun _ => hst⟩, rfl, rfl, rfl⟩
      rw [if_neg (by simp [hsharing]), hlen, length_append]
      rfl

/-- What a round of the writer can do with a value: it fails because the table overflows or because
of an item that cannot be encoded, or it writes the items of the value. -/
def RoundOk (w : Host) (flags : Flags) (heap : Heap (Custom D)) (em : List Nat) (v : Value)
    (s : ExternState) (stack : List (List Value)) : Except Exn (ExternState × Next) → Prop
  | .error e => (flags.noSharing = false ∧ e = .outOfMemory) ∨
    ∃ items em' vs, Emit w flags heap em v items em' vs ∧ encodeAll w flags items = .error e
  | .ok (s', next) => ∃ items em' vs, Emit w flags heap em v items em' vs ∧
    Wrote w flags s s' items ∧ Written w flags s' em' ∧ next.pending = vs ++ stack.flatten

/-- The end of the contents of a block: its sizes are added, and it is recorded. -/
theorem record_contents {n32 n64 : Nat} {next : Next} {vs : List Value} {stack : List (List Value)}
    (hs : Written w flags s em)
    (hslot : flags.noSharing = false → Probing.Holds (hash w s.posTable.shift)
      (s.posTable.entries.set slot (some (a, em.length))) (em ++ [a]).zipIdx)
    (hemit : Emit w flags heap em (.block a) [item] (em ++ [a]) vs)
    (henc : item.encode w flags = .ok bs) (h32 : item.words host32 = n32)
    (h64 : item.words host64 = n64) (hnext : next.pending = vs ++ stack.flatten) :
    RoundOk w flags heap em (.block a) s stack
      (externRecordLocation w flags ((s.write bs).addSizes n32 n64) a slot >>= fun s =>
        .ok (s, next)) := by
  rcases externRecordLocation_written ((s.write bs).addSizes n32 n64) hs rfl rfl hslot with
    ⟨hsharing, herr⟩ | ⟨s', hs', hwritten, hout, hs32, hs64⟩
  · rw [herr]
    exact .inl ⟨hsharing, rfl⟩
  · rw [hs']
    refine ⟨_, _, _, hemit, ⟨⟨bs, by rw [encodeAll_singleton, henc], hout⟩, ?_, ?_⟩, hwritten,
      hnext⟩
    · rw [hs32, wordsAll_singleton, h32]
      rfl
    · rw [hs64, wordsAll_singleton, h64]
      rfl

theorem externCustom_sizes {c : Custom D} {sz32 sz64 : Nat}
    (h : externCustom c = .ok (bs, sz32, sz64)) :
    Item.customSize host32 c = sz32 ∧ Item.customSize host64 c = sz64 := by
  unfold externCustom at h
  cases hser : c.ops.serialize with
  | none =>
    rw [hser] at h
    cases h
  | some serialize =>
    rcases hp : serialize c.data with ⟨payload, n32, n64⟩
    simp only [hser, hp] at h
    simp only [Item.customSize, hser, hp, host32, host64, Bool.false_eq_true, if_false, if_true]
    cases hfl : c.ops.fixedLength with
    | none =>
      rw [hfl] at h
      cases h
      exact ⟨rfl, rfl⟩
    | some sizes =>
      rw [hfl] at h
      simp only at h
      split at h
      · cases h
      · cases h
        exact ⟨rfl, rfl⟩

theorem externContents_ok (stack : List (List Value)) (hs : Written w flags s em)
    (hget : heap.get a = some o) (hforward : shortCircuit heap o = none) (hsize : o.wosize w ≠ 0)
    (ho : ObjOk w heap o) (hnew : flags.noSharing = false → a ∉ em)
    (hslot : flags.noSharing = false → Probing.Holds (hash w s.posTable.shift)
      (s.posTable.entries.set slot (some (a, em.length))) (em ++ [a]).zipIdx) :
    RoundOk w flags heap em (.block a) s stack
      (externContents w flags s a slot stack o) := by
  have hemit : ∀ {item}, itemOf o = some item →
      Emit w flags heap em (.block a) [item] (em ++ [a]) o.fields :=
    fun hitem => .fresh hget hforward hsize hnew hitem
  -- an item whose encoding may fail
  have hencode : ∀ (item : Item D) {k : Bytes → Except Exn (ExternState × Next)},
      itemOf o = some item →
      (∀ bs, item.encode w flags = .ok bs → RoundOk w flags heap em (.block a) s stack (k bs)) →
      RoundOk w flags heap em (.block a) s stack (item.encode w flags >>= k) := by
    intro item k hitem hk
    cases henc : item.encode w flags with
    | error e => exact .inr ⟨_, _, _, hemit hitem, by rw [encodeAll_singleton, henc]⟩
    | ok bs => exact hk bs henc
  cases o with
  | string str =>
    exact hencode (.string str) rfl fun bs henc =>
      record_contents hs hslot (hemit rfl) henc rfl rfl rfl
  | double d => exact record_contents hs hslot (hemit rfl) rfl rfl rfl rfl
  | doubleArray ds =>
    exact hencode (.doubleArray ds) rfl fun bs henc =>
      record_contents hs hslot (hemit rfl) henc rfl
        (by simp [Item.words, Host.doubleWosize, Host.wordSize, host64]) rfl
  | abstract n => exact ho.2.2.elim
  | custom c n =>
    simp only [externContents]
    cases henc : externCustom c with
    | error e =>
      rw [error_bind]
      exact .inr ⟨_, _, _, hemit rfl, by rw [encodeAll_singleton, Item.encode, henc]; rfl⟩
    | ok p =>
      obtain ⟨bs, sz32, sz64⟩ := p
      obtain ⟨h32, h64⟩ := externCustom_sizes henc
      rw [ok_bind]
      refine record_contents hs hslot (hemit rfl) ?_ ?_ ?_ rfl
      · rw [Item.encode, henc]
        rfl
      · rw [Item.words, h32, Nat.shiftRight_eq_div_pow]
        rfl
      · rw [Item.words, h64, Nat.shiftRight_eq_div_pow]
        rfl
  | structured tag fields =>
    obtain ⟨-, hcont, hclosure, hinfix⟩ := ho.2.2.1
    have hne : fields.length ≠ 0 := hsize
    simp only [externContents]
    rw [if_neg (by simp [hclosure, hinfix]), if_neg hcont]
    refine hencode (.block tag fields.length) rfl fun bs henc => ?_
    have hwords : ∀ host, (Item.block tag fields.length : Item D).words host =
        1 + fields.length := fun host => if_neg hne
    rcases fields with _ | ⟨v, _ | ⟨v', rest⟩⟩
    · exact absurd rfl hne
    · exact record_contents hs hslot (hemit rfl) henc (hwords _) (hwords _) rfl
    · exact record_contents hs hslot (hemit rfl) henc (hwords _) (hwords _) rfl

/-- **A round of the writer writes the items of its value.** -/
theorem externItem_ok (stack : List (List Value)) (hs : Written w flags s em)
    (hv : ValueOk w heap v) (hobjs : ∀ a o, heap.get a = some o → ObjOk w heap o) :
    RoundOk w flags heap em v s stack (externItem w flags heap s stack v) := by
  -- an item without a block
  have hwrite : ∀ {v : Value} (item : Item D), Emit w flags heap em v [item] em [] →
      item.words host32 = 0 → item.words host64 = 0 →
      RoundOk w flags heap em v s stack (item.encode w flags >>= fun bs =>
        .ok (s.write bs, .nextItem stack)) := by
    intro v item hemit h32 h64
    cases henc : item.encode w flags with
    | error e => exact .inr ⟨_, _, _, hemit, by rw [encodeAll_singleton, henc]⟩
    | ok bs => exact ⟨_, _, _, hemit, Wrote.of_write henc h32 h64, ⟨hs.counter, hs.table⟩, rfl⟩
  cases v with
  | long n => exact hwrite _ (.long n) rfl rfl
  | atom tag =>
    simp only [externItem]
    rw [if_neg hv.2]
    exact hwrite _ (.atom tag) rfl rfl
  | block a =>
    obtain ⟨o, hget⟩ := Option.isSome_iff_exists.mp hv.2.2
    have ho := hobjs a o hget
    simp only [externItem, hget]
    cases hforward : shortCircuit heap o with
    | some f =>
      refine ⟨[], em, [f], .forward hget hforward, ⟨⟨[], rfl, ?_⟩, rfl, rfl⟩, hs, rfl⟩
      exact (append_nil _).symm
    | none =>
      simp only
      rw [if_neg]
      · split
        · next hzero => exact hwrite _ (.empty hget hforward hzero) rfl rfl
        next hsize =>
        cases hsharing : flags.noSharing with
        | true =>
          exact externContents_ok stack hs hget hforward hsize ho (by simp [hsharing])
            (by simp [hsharing])
        | false =>
          rcases externLookupPosition_spec (hs.table hsharing) a with
            ⟨pos, hlookup, hpos⟩ | ⟨slot, hlookup, hnew, hslot⟩
          · have hcounter : s.objCounter = em.length := by
              rw [hs.counter, if_neg (by simp [hsharing])]
            rw [hlookup, ok_bind]
            simp only [hcounter]
            exact hwrite (.shared _) (.shared hget hforward hsize hsharing hpos) rfl rfl
          · rw [hlookup, ok_bind]
            exact externContents_ok stack hs hget hforward hsize ho (fun _ => hnew) fun _ => hslot
      · -- a forwarding block has a field
        rintro ⟨htag, hzero⟩
        cases o with
        | structured tag fields => exact ho.2.2.2.1 htag (length_eq_zero_iff.mp hzero)
        | _ =>
          simp [Obj.tag, forwardTag, abstractTag, stringTag, doubleTag, doubleArrayTag,
            customTag] at htag

/-! ## Runs of the writer -/

theorem popItem_none : ∀ (stack : List (List Value)), popItem stack = none → stack.flatten = []
  | [], _ => rfl
  | [] :: stack, h => popItem_none stack h
  | [_] :: _, h => by cases h
  | (_ :: _ :: _) :: _, h => by cases h

theorem popItem_some {stack' : List (List Value)} : ∀ (stack : List (List Value)),
    popItem stack = some (v, stack') → stack.flatten = v :: stack'.flatten
  | [] :: stack, h => popItem_some stack h
  | [u] :: stack, h => by
    cases h
    rfl
  | (u :: u' :: rest) :: stack, h => by
    cases h
    rfl

theorem shortCircuit_mem {f : Value} (h : shortCircuit heap o = some f) : f ∈ o.fields := by
  unfold shortCircuit at h
  split at h
  · split at h
    · cases h
      exact mem_cons_self
    · cases h
  · cases h

/-- The values that come next are in the graph. -/
theorem Emit.valueOk {em' : List Nat}
    (h : Emit w flags heap em v items em' vs) (hobjs : ∀ a o, heap.get a = some o → ObjOk w heap o)
    (hvs : ∀ u ∈ v :: rest, ValueOk w heap u) : ∀ u ∈ vs ++ rest, ValueOk w heap u := by
  intro u hu
  rcases mem_append.mp hu with hu | hu
  · cases h with
    | forward hget hforward =>
      rw [mem_singleton.mp hu]
      exact (hobjs _ _ hget).2.1 _ (shortCircuit_mem hforward)
    | fresh hget => exact (hobjs _ _ hget).2.1 u hu
    | _ => cases hu
  · exact hvs u (mem_cons_of_mem _ hu)

theorem Wrote.trans {s₁ s' : ExternState} {items' : List (Item D)} (h : Wrote w flags s s₁ items)
    (h' : Wrote w flags s₁ s' items') :
    Wrote w flags s s' (items ++ items') := by
  obtain ⟨bs, hbs, hout⟩ := h.output
  obtain ⟨bs', hbs', hout'⟩ := h'.output
  refine ⟨⟨bs ++ bs', encodeAll_append hbs hbs', ?_⟩, ?_, ?_⟩
  · rw [hout', hout, append_assoc]
  · rw [h'.size32, h.size32, wordsAll_append, Nat.add_assoc]
  · rw [h'.size64, h.size64, wordsAll_append, Nat.add_assoc]

/-- What a run of the writer on some values can give: a failure as in one of its rounds, or the
items of the values. -/
def RunOk (w : Host) (flags : Flags) (heap : Heap (Custom D)) (em : List Nat) (vs : List Value)
    (s : ExternState) : Except Exn ExternState → Prop
  | .error e => (flags.noSharing = false ∧ e = .outOfMemory) ∨
    ∃ em v items em' vs, Emit w flags heap em v items em' vs ∧ encodeAll w flags items = .error e
  | .ok s' => ∃ items em', Emits w flags heap em vs items em' ∧ Wrote w flags s s' items ∧
    Written w flags s' em'

/-- The rest of a run, after a first round. -/
theorem RunOk.step {em₁ : List Nat}
    {s s₁ : ExternState} (hemit : Emit w flags heap em v items em₁ vs)
    (hwrote : Wrote w flags s s₁ items) (h : RunOk w flags heap em₁ (vs ++ rest) s₁ r) :
    RunOk w flags heap em (v :: rest) s r := by
  cases r with
  | error e => exact h
  | ok s' =>
    obtain ⟨items', em', hemits, hwrote', hwritten'⟩ := h
    exact ⟨_, _, .step hemit hemits, hwrote.trans hwrote', hwritten'⟩

/-- **A run of the writer writes the items of its values.** -/
theorem run_externStep (hobjs : ∀ a o, heap.get a = some o → ObjOk w heap o) {n : Nat}
    : ∀ {s : ExternState} {v : Value} {stack : List (List Value)}
    {em : List Nat}, Machine.run (externStep w flags heap) n (s, v, stack) = some r →
    Written w flags s em → (∀ u ∈ v :: stack.flatten, ValueOk w heap u) →
    RunOk w flags heap em (v :: stack.flatten) s r := by
  induction n with
  | zero =>
    intro s v stack em h
    cases h
  | succ n ih =>
    intro s v stack em h hs hvs
    have hround := externItem_ok stack hs (hvs v mem_cons_self) hobjs
    rw [Machine.run, externStep] at h
    cases hitem : externItem w flags heap s stack v with
    | error e =>
      rw [hitem] at h hround
      cases h
      rcases hround with hoom | ⟨items, em', vs, hemit, henc⟩
      · exact .inl hoom
      · exact .inr ⟨em, v, items, em', vs, hemit, henc⟩
    | ok p =>
      obtain ⟨s₁, next⟩ := p
      rw [hitem] at h hround
      obtain ⟨items, em₁, vs, hemit, hwrote, hwritten, hpending⟩ := hround
      have hpend : ∀ u ∈ next.pending, ValueOk w heap u := hpending ▸ hemit.valueOk hobjs hvs
      refine RunOk.step hemit hwrote ?_
      rw [← hpending]
      cases next with
      | value v' stack' => exact ih h hwritten hpend
      | nextItem stack' =>
        simp only at h
        cases hpop : popItem stack' with
        | some p =>
          obtain ⟨v', stack''⟩ := p
          rw [hpop] at h
          have hnext : (Next.nextItem stack').pending = v' :: stack''.flatten :=
            popItem_some stack' hpop
          rw [hnext] at hpend ⊢
          exact ih h hwritten hpend
        | none =>
          rw [hpop] at h
          cases h
          have hnext : (Next.nextItem stack').pending = [] := popItem_none stack' hpop
          rw [hnext]
          exact ⟨[], em₁, .done em₁, ⟨⟨[], rfl, (append_nil _).symm⟩, rfl, rfl⟩, hwritten⟩

end TravLang.Runtime.Marshal
