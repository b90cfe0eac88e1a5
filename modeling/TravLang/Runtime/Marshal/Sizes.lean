import Mathlib.Order.Interval.Finset.Nat
import TravLang.Runtime.Marshal.Runs

/-!
# The sizes announced in a message

The writer announces how many words the blocks of a message take, on hosts with words of either
size, and how many objects there are. The reader allocates exactly so many words, and stores
exactly so many entries in its table, as long as the counters of the writer and the size of the
table do not wrap around.
-/

namespace TravLang.Runtime.Marshal

open Result List

variable {D : Type} {w r : Host} {flags : Flags} {heap : Heap (Custom D)} {em em' : List Nat}
  {vs : List Value} {items : List (Item D)} {o : Obj Value (Custom D)} {item : Item D}
  {findOps : Bytes → Option (CustomOps D)} {s : ExternState} {v : Value}

/-! ## The items of a graph can be read -/

/-- Objects at addresses of host `w`, each of them once if there is sharing. -/
structure Addresses (w : Host) (flags : Flags) (em : List Nat) : Prop where
  nodup : flags.noSharing = false → em.Nodup
  range : ∀ a ∈ em, 0 < a ∧ a < 2 ^ w.wordBits

theorem Emits.addresses (h : Emits w flags heap em vs items em')
    (hobjs : ∀ a o, heap.get a = some o → ObjOk w heap o) (hvs : ∀ u ∈ vs, ValueOk w heap u)
    (hem : Addresses w flags em) : Addresses w flags em' := by
  induction h with
  | done em => exact hem
  | step hemit _ ih =>
    refine ih (hemit.valueOk hobjs hvs) ?_
    cases hemit with
    | @fresh a o item hget hforward hsize hnew hitem =>
      obtain ⟨hpos, hlt, -⟩ := hvs (.block a) mem_cons_self
      refine ⟨fun hsharing => ?_, ?_⟩
      · rw [nodup_append]
        refine ⟨hem.nodup hsharing, nodup_singleton a, ?_⟩
        rintro x hx y hy rfl
        rw [mem_singleton] at hy
        exact hnew hsharing (hy ▸ hx)
      · exact forall_mem_append.mpr ⟨hem.range, forall_mem_singleton.mpr ⟨hpos, hlt⟩⟩
    | _ => exact hem

theorem Addresses.length_lt (h : Addresses w flags em) (hsharing : flags.noSharing = false) :
    em.length < 2 ^ w.wordBits := by
  have hsub : em.toFinset ⊆ Finset.Ioo 0 (2 ^ w.wordBits) := by
    intro a ha
    exact Finset.mem_Ioo.mpr (h.range a (mem_toFinset.mp ha))
  have hcard := Finset.card_le_card hsub
  rw [toFinset_card_of_nodup (h.nodup hsharing), Nat.card_Ioo] at hcard
  have := Nat.two_pow_pos w.wordBits
  omega

theorem words_pos_of_itemOf (hitem : itemOf o = some item) (hsize : o.wosize w ≠ 0)
    (host : Host) : 1 ≤ item.words host := by
  cases o with
  | structured tag fields =>
    cases hitem
    rw [Item.words, if_neg (by exact hsize)]
    exact Nat.le_add_right 1 _
  | custom c n =>
    cases hitem
    exact Nat.le_trans (by decide) (Nat.le_add_right 2 _)
  | abstract n => cases hitem
  | _ =>
    cases hitem
    exact Nat.le_add_right 1 _

/-- Each object takes a word at least. -/
theorem Emits.length_le (h : Emits w flags heap em vs items em') (host : Host) :
    em'.length ≤ em.length + wordsAll host items := by
  induction h with
  | done em => exact Nat.le_add_right _ _
  | step hemit _ ih =>
    rw [wordsAll_append]
    cases hemit with
    | fresh hget hforward hsize hnew hitem =>
      have := words_pos_of_itemOf hitem hsize host
      rw [length_append, length_singleton] at ih
      rw [wordsAll_singleton]
      omega
    | _ => omega

/-- The custom blocks of a heap can be read on host `r`. -/
def CustomsOk (r : Host) (findOps : Bytes → Option (CustomOps D)) (heap : Heap (Custom D)) : Prop :=
  ∀ a c n, heap.get a = some (.custom c n) → TrueSizes r findOps c

/-- A block of a host is smaller than its memory. -/
theorem mul_wordSize_lt {n : Nat} (h : n ≤ w.maxWosize) : n * 8 + 8 < 2 ^ w.wordBits := by
  rcases w with ⟨_ | _, _⟩
  all_goals
    simp [Host.maxWosize, Host.wordBits, Host.wordSize] at h ⊢
    omega

theorem valid_of_itemOf {a : Nat} (hget : heap.get a = some o)
    (ho : ObjOk w heap o) (hcustom : CustomsOk r findOps heap) (hitem : itemOf o = some item) :
    item.Valid w r findOps := by
  have hmax := ho.1
  have hword := wordSize_cases w
  cases o with
  | structured tag fields =>
    cases hitem
    obtain ⟨htag, -, htwo⟩ := ho.2.2
    refine ⟨Nat.lt_trans htag.1 (by decide), hmax, fun hobject => ?_⟩
    exact (htwo hobject).imp_left fun hnil => by rw [hnil]; rfl
  | string str =>
    cases hitem
    have hdiv : (str.length + w.wordSize) / w.wordSize * 8 + 8 < 2 ^ w.wordBits :=
      mul_wordSize_lt hmax
    show str.length < 2 ^ w.wordBits
    rcases hword with h | h <;> rw [h] at hdiv <;> omega
  | double d =>
    cases hitem
    trivial
  | doubleArray ds =>
    cases hitem
    have hdiv : ds.length * (8 / w.wordSize) * 8 + 8 < 2 ^ w.wordBits := mul_wordSize_lt hmax
    show ds.length < 2 ^ w.wordBits
    rcases hword with h | h <;> rw [h] at hdiv <;> omega
  | custom c n =>
    cases hitem
    exact hcustom a c n hget
  | abstract n => cases hitem

theorem tag_lt_of_objOk (ho : ObjOk w heap o) : o.tag < 256 := by
  cases o with
  | structured tag fields => exact Nat.lt_trans ho.2.2.1.1 (by decide)
  | _ => simp [Obj.tag, stringTag, doubleTag, doubleArrayTag, customTag, abstractTag]

/-- The items of a graph are read on a host that is allowed, if its references are not too far. -/
theorem Emits.valid (h : Emits w flags heap em vs items em')
    (hobjs : ∀ a o, heap.get a = some o → ObjOk w heap o) (hcustom : CustomsOk r findOps heap)
    (hlength : flags.noSharing = false → em'.length < 2 ^ w.wordBits ∧
      (r.sixtyFour = true ∨ em'.length < 2 ^ 32))
    (hvs : ∀ u ∈ vs, ValueOk w heap u) : ∀ item ∈ items, item.Valid w r findOps := by
  induction h with
  | done em => nofun
  | @step em em₁ em' v vs rest items items' hemit hemits ih =>
    have hrest : ∀ item ∈ items', item.Valid w r findOps := ih hlength (hemit.valueOk hobjs hvs)
    have hfirst : ∀ item ∈ items, item.Valid w r findOps := by
      have hv := hvs v mem_cons_self
      cases hemit with
      | long n =>
        simp only [mem_singleton, forall_eq]
        exact hv
      | atom tag => simpa using ⟨hv.1, Nat.zero_le _, fun _ => .inl rfl⟩
      | forward => nofun
      | @empty a o hget =>
        simpa using ⟨tag_lt_of_objOk (hobjs a o hget), Nat.zero_le _, fun _ => .inl rfl⟩
      | @shared a pos o hget hforward hsize hsharing hpos =>
        obtain ⟨l, rfl⟩ := hemits.grows
        obtain ⟨hlt, hr⟩ := hlength hsharing
        have hpos' : pos < em.length := (List.getElem?_eq_some_iff.mp hpos).1
        have hd : (if flags.compressed then pos else em.length - pos) ≤ (em ++ l).length := by
          rw [length_append]
          split <;> omega
        simp only [mem_singleton, forall_eq]
        exact ⟨Nat.lt_of_le_of_lt hd hlt, hr.imp_right (Nat.lt_of_le_of_lt hd)⟩
      | @fresh a o item hget hforward hsize hnew hitem =>
        simpa using valid_of_itemOf hget (hobjs a o hget) hcustom hitem
    intro item hitem
    exact (mem_append.mp hitem).elim (hfirst item) (hrest item)

/-! ## From the end of the writer to the end of the reader -/

/-- The size of a message for its reader. -/
def whsize (r : Host) (s : ExternState) : Nat := if r.sixtyFour then s.size64 else s.size32

theorem wordsAll_host (r : Host) (items : List (Item D)) :
    wordsAll r items = if r.sixtyFour then wordsAll host64 items else wordsAll host32 items := by
  rcases r with ⟨_ | _, _⟩ <;> rfl

/-- The reader before its first round. -/
theorem sim_init (w : Host) (heap : Heap (Custom D)) (v : Value) (src : Bytes) (compressed : Bool)
    (oid : Int) (wh n : Nat) : Sim w heap v [] [v]
      (internAllocStorage src compressed oid wh n : InternState D) (readItems .root 1) where
  length := rfl
  objects := nofun
  positive h := by
    cases mem_singleton.mp h
    exact Nat.one_pos
  oids h := by cases mem_singleton.mp h
  next := .cons ⟨v, rfl, .refl⟩ .nil
  nodup := nodup_singleton _
  empty _ d hd := by
    obtain rfl := mem_singleton.mp hd
    rfl
  filled {d v₁} hd := by
    cases d with
    | root => exact ⟨none, rfl, .inl (mem_singleton.mpr rfl)⟩
    | field i j => cases hd

theorem supply_init {bs rest : Bytes} {oid : Int} (hemits : Emits w flags heap [] vs items em)
    (hbs : encodeAll w flags items = .ok bs)
    (hcounter : s.objCounter = if flags.noSharing then 0 else em.length)
    (hsize : whsize r s = wordsAll r items) :
    Supply w r flags heap [] em items rest
      (internAllocStorage (bs ++ rest) flags.compressed oid (whsize r s) s.objCounter) := by
  refine ⟨⟨bs, hbs, rfl⟩, rfl, ?_, ?_, ?_⟩
  · intro left hleft
    simp only [internAllocStorage] at hleft
    split at hleft
    · cases hleft
      exact hsize
    · cases hleft
  · have hle := hemits.length_le r
    simp only [internAllocStorage]
    by_cases hzero : whsize r s = 0 ∨ s.objCounter = 0
    · rw [if_pos hzero]
      cases hsharing : flags.noSharing with
      | true => exact .inl rfl
      | false =>
        rw [hsharing] at hcounter
        right
        rw [← length_eq_zero_iff]
        rcases hzero with hzero | hzero
        · rw [← hsize, hzero] at hle
          exact Nat.le_zero.mp hle
        · rw [← hzero, hcounter]
          rfl
    · rw [if_neg hzero]
      rw [not_or] at hzero
      cases hsharing : flags.noSharing with
      | true =>
        rw [hsharing] at hcounter
        exact absurd hcounter hzero.2
      | false =>
        rw [hsharing] at hcounter
        exact ⟨rfl, rfl, hcounter⟩
  · intro _ _
    refine ⟨nofun, ?_⟩
    intro i _ d hd
    cases d with
    | root => cases hd
    | field a j => cases hd

/-- **The reader reads what a run of the writer has written.** -/
theorem reads_back (hgraph : GraphOk w heap v) (hcustom : CustomsOk r findOps heap)
    (hc : Compatible w r flags)
    (hfar : r.sixtyFour = true ∨ w.sixtyFour = false ∨ s.size32 < 2 ^ 32)
    (hrun : Machine.Halts (externStep w flags heap) (externInit w, v, []) (.ok s)) (f : String)
    (oid : Int) (rest : Bytes) :
    ∃ items em s', Emits w flags heap [] [v] items em ∧ Written w flags s em ∧
      Machine.Halts (internStep f r findOps) (internAllocStorage (s.output ++ rest)
        flags.compressed oid (whsize r s) s.objCounter, readItems .root 1) (.ok s') ∧
      Sim w heap v em [] s' [] ∧ Supply w r flags heap em em [] rest s' ∧
      s'.allocated = whsize r s ∧ encodeAll w flags items = .ok s.output := by
  obtain ⟨n, hn⟩ := hrun
  have hinit : Written w flags (externInit w) [] :=
    ⟨by simp [externInit], fun _ => standsFor_init w⟩
  have hvs : ∀ u ∈ v :: ([] : List (List Value)).flatten, ValueOk w heap u := by
    simpa using hgraph.value
  obtain ⟨items, em, hemits, hwrote, hwritten⟩ := run_externStep hgraph.objects hn hinit hvs
  obtain ⟨bs, hbs, hout⟩ := hwrote.output
  have hout' : s.output = bs := hout
  have hsize : whsize r s = wordsAll r items := by
    rw [wordsAll_host, whsize, hwrote.size32, hwrote.size64]
    simp [externInit]
  have haddr := hemits.addresses hgraph.objects hvs ⟨fun _ => nodup_nil, nofun⟩
  have hlength : flags.noSharing = false → em.length < 2 ^ w.wordBits ∧
      (r.sixtyFour = true ∨ em.length < 2 ^ 32) := by
    intro hsharing
    have hlt := haddr.length_lt hsharing
    refine ⟨hlt, ?_⟩
    rcases hfar with hr | hw | hs32
    · exact .inl hr
    · right
      simpa [Host.wordBits, Host.wordSize, hw] using hlt
    · right
      have hle := hemits.length_le host32
      rw [hwrote.size32] at hs32
      simp only [length_nil] at hle
      omega
  have hvalid := hemits.valid hgraph.objects hcustom hlength hvs
  obtain ⟨s', hhalts, hsim, hsupply, hall⟩ := halts_of_emits (f := f) hc hemits hvalid
    (sim_init w heap v (bs ++ rest) flags.compressed oid (whsize r s) s.objCounter)
    (supply_init hemits hbs hwritten.counter hsize)
  rw [hout']
  refine ⟨items, em, s', hemits, hwritten, hhalts, hsim, hsupply, ?_, hbs⟩
  rw [hall, hsize]
  exact Nat.zero_add _

/-! ## Messages -/

/-- What the header of a message says about the run of the writer. -/
theorem externValue_ok {fuel : Nat} {zstd : Option (Bytes → Option Bytes)} {toBlock : Bool}
    {header data : Bytes}
    (h : externValue fuel w zstd toBlock flags heap v = some (.ok (header, data, s))) :
    externRec fuel w (flags.effective zstd toBlock) heap v = some (.ok s) ∧
      externHeaderOf w (flags.effective zstd toBlock) zstd s = .ok (header, data) ∧
      (w.sixtyFour = true → flags.compat32 = true → s.size32 < 2 ^ 32) := by
  obtain ⟨r, hr, h⟩ := Option.map_eq_some_iff.mp h
  obtain ⟨s', hs', h⟩ := bind_eq_ok.mp h
  obtain ⟨p, hheader, h⟩ := bind_eq_ok.mp h
  cases h
  subst hs'
  refine ⟨hr, hheader, fun hw hcompat => ?_⟩
  have hcompat' : (flags.effective zstd toBlock).compat32 = true := hcompat
  by_contra hbig
  rw [Nat.not_lt] at hbig
  unfold externHeaderOf at hheader
  simp only at hheader
  split at hheader
  · split at hheader
    · cases hheader
    · rw [if_pos ⟨hw, hcompat', .inr (.inr (.inl hbig))⟩] at hheader
      cases hheader
  · rw [if_pos ⟨hw, .inr (.inl hbig)⟩, if_pos hcompat'] at hheader
    cases hheader

/-- The entries of the table are the objects that were announced. -/
theorem Supply.objCounter_eq {s' : InternState D} {rest : Bytes}
    (h : Supply w r flags heap em em [] rest s') (hs : Written w flags s em) :
    s'.objCounter = s.objCounter := by
  rw [hs.counter, InternState.objCounter]
  have htable := h.table
  cases ht : s'.internObjTable with
  | none =>
    rw [ht] at htable
    rcases htable with hns | rfl
    · rw [if_pos hns]
    · simp
  | some t =>
    rw [ht] at htable
    obtain ⟨hns, hentries, -⟩ := htable
    rw [if_neg (by simp [hns])]
    simp only [hentries, length_map, length_range]

/-- The size that the counters of the writer, which are words of its host, have for a reader. -/
def announced (w r : Host) (s : ExternState) : Nat := w.uintnat (whsize r s)

/-- The entries that `num_objects * sizeof(value)` bytes have room for. -/
def tableRoom (r : Host) (numObjects : Nat) : Nat :=
  r.uintnat (numObjects * r.wordSize) / r.wordSize

/-- Custom blocks with a byte. -/
def byteOps (host : Host) : CustomOps UInt8 where
  identifier := [95, 98]
  serialize := some fun b => ([b], 4, 8)
  deserialize
    | [] => .error .outOfBounds
    | b :: bs => .ok (b, host.wordSize, bs)
  fixedLength := none

/-- A cyclic graph with a block of each kind. -/
def allKinds : Heap (Custom UInt8) :=
  [(8, .structured 0 [.long (-70000), .block 16, .block 8, .block 24, .block 32, .block 40,
    .atom 0]),
   (16, .string [104, 105]), (24, .double 4614256656552045848), (32, .doubleArray [0, 1, 2]),
   (40, .custom ⟨byteOps host64, 7⟩ 1)]

theorem graphOk_allKinds : GraphOk host64 allKinds (.block 8) :=
  ⟨by decide +kernel, Heap.objects_of_mem (by decide +kernel)⟩

theorem customsOk_allKinds : CustomsOk host32 (fun _ => some (byteOps host32)) allKinds := by
  intro a c n h
  have hmem := Heap.mem_of_get h
  obtain rfl : c = ⟨byteOps host64, 7⟩ := by
    simp only [allKinds, mem_cons, not_mem_nil, Prod.mk.injEq, reduceCtorEq, and_false,
      Obj.custom.injEq, or_false, false_or] at hmem
    exact hmem.2.1
  refine ⟨by decide, ?_⟩
  intro serialize hser payload sz32 sz64 hp
  cases hser
  cases hp
  exact ⟨by decide, byteOps host32, 7, rfl, rfl, fun rest => rfl⟩

/-- A computation that has come to its end with a result. -/
def finished {ε α : Type} : Option (Except ε α) → Bool
  | some (.ok _) => true
  | _ => false

theorem finished_iff {ε α : Type} {x : Option (Except ε α)} (h : finished x = true) :
    ∃ a, x = some (.ok a) := by
  unfold finished at h
  split at h
  · exact ⟨_, rfl⟩
  · cases h

/-- Pairs with the same component twice, over an empty string. -/
def doubled : Nat → Heap (Custom Unit)
  | 0 => [(1, .string [])]
  | n + 1 => (n + 2, .structured 0 [.block (n + 1), .block (n + 1)]) :: doubled n

/-- Their words, without sharing -/
def doubledWords : Nat → Nat
  | 0 => 2
  | n + 1 => 3 + 2 * doubledWords n

def unshared : Flags := { Flags.default with noSharing := true }

theorem get_doubled {n i : Nat} (h : i ≤ n) :
    (doubled n).get (i + 1) = (doubled i).head?.map Prod.snd := by
  induction n with
  | zero =>
    obtain rfl := Nat.le_zero.mp h
    rfl
  | succ n ih =>
    rcases Nat.lt_or_eq_of_le h with hlt | rfl
    · rw [← ih (by omega), doubled, Heap.get, lookup_cons,
        show (i + 1 == n + 2) = false by simp; omega]
      rfl
    · simp [doubled, Heap.get]

/-- What is left to do after a value -/
def After (heap : Heap (Custom Unit)) (s : ExternState) (stack : List (List Value))
    (r : Except Exn ExternState) : Prop :=
  match popItem stack with
  | none => r = .ok s
  | some (v, stack) => Machine.Halts (externStep host32 unshared heap) (s, v, stack) r

theorem halts_doubled {n : Nat} (i : Nat) (s : ExternState) (stack : List (List Value))
    (h : i ≤ n) : ∃ s', s'.size32 = s.size32 + doubledWords i ∧ ∀ r, After (doubled n) s' stack r →
      Machine.Halts (externStep host32 unshared (doubled n)) (s, .block (i + 1), stack) r := by
  induction i generalizing s stack with
  | zero =>
    have hitem : externItem host32 unshared (doubled n) s stack (.block (0 + 1)) =
        .ok ((s.write [0x20]).addSizes 2 2, .nextItem stack) := by
      simp only [externItem, get_doubled h]
      rfl
    refine ⟨(s.write [0x20]).addSizes 2 2, rfl, fun r hafter => ?_⟩
    unfold After at hafter
    split at hafter
    · next hpop =>
      exact Machine.halts_of_inr (by simp only [externStep, hitem, hpop, hafter])
    · next hpop =>
      exact Machine.halts_of_inl (by simp only [externStep, hitem, hpop]) hafter
  | succ i ih =>
    have hitem : externItem host32 unshared (doubled n) s stack (.block (i + 1 + 1)) =
        .ok ((s.write [0xA0]).addSizes 3 3, .value (.block (i + 1))
          ([.block (i + 1)] :: stack)) := by
      simp only [externItem, get_doubled h]
      rfl
    obtain ⟨s₁, hs₁, h₁⟩ := ih ((s.write [0xA0]).addSizes 3 3) ([.block (i + 1)] :: stack)
      (by omega)
    obtain ⟨s₂, hs₂, h₂⟩ := ih s₁ stack (by omega)
    refine ⟨s₂, ?_, fun r hafter => Machine.halts_of_inl (by simp only [externStep, hitem])
      (h₁ r (h₂ r hafter))⟩
    have hsize : ((s.write [0xA0]).addSizes 3 3).size32 = s.size32 + 3 := rfl
    rw [hs₂, hs₁, hsize, doubledWords]
    omega

end TravLang.Runtime.Marshal
