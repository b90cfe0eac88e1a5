import TravLang.Runtime.Marshal.Items

/-!
# What the reader does with an item

An item makes the reader take a value that it has, or allocate a block of a known size. The lemmas
here say this for each kind of item, from the bytes that the writer produces for it.
-/

namespace TravLang.Runtime.Marshal

open Result

variable {D : Type}

namespace Item

def encode (host : Host) (flags : Flags) : Item D → Except Exn Bytes
  | int n => externInt host flags n
  | shared d => .ok (externSharedReference host d)
  | block tag size => externHeader host flags size tag
  | string s => externString host flags s
  | double d => .ok (externDouble host d)
  | doubleArray ds => externDoubleArray host flags ds
  | custom c => (externCustom c).map Prod.fst

/-- The size that the serializer of a custom block reports. -/
def customSize (host : Host) (c : Custom D) : Nat :=
  match c.ops.serialize with
  | none => 0
  | some serialize =>
    if host.sixtyFour then (serialize c.data).2.2 else (serialize c.data).2.1

/-- The number of words that the block of an item takes, with its header. -/
def words (host : Host) : Item D → Nat
  | int _ => 0
  | shared _ => 0
  | block _ size => if size = 0 then 0 else 1 + size
  | string s => 1 + (s.length + host.wordSize) / host.wordSize
  | double _ => 1 + host.doubleWosize
  | doubleArray ds => 1 + ds.length * host.doubleWosize
  | custom c => 2 + (customSize host c + host.wordSize - 1) / host.wordSize

/-- Whether there is a block for an item. -/
def isObject : Item D → Bool
  | int _ => false
  | shared _ => false
  | block _ size => size ≠ 0
  | _ => true

/-- What the writer on host `w` may write for the reader on host `r`. -/
def Valid (w r : Host) (findOps : Bytes → Option (CustomOps D)) : Item D → Prop
  | int n => InRange w n
  | shared d => d < 2 ^ w.wordBits ∧ (r.sixtyFour = true ∨ d < 2 ^ 32)
  | block tag size => tag < 256 ∧ size ≤ w.maxWosize ∧ (tag = objectTag → size = 0 ∨ 2 ≤ size)
  | string s => s.length < 2 ^ w.wordBits
  | double _ => True
  | doubleArray ds => ds.length < 2 ^ w.wordBits
  | custom c => TrueSizes r findOps c

/-- The block that the reader makes for an item, before its fields are read. -/
def Received : Item D → Obj (Option Value) (Custom D) → Prop
  | block tag size, o => o = .structured tag (List.replicate size none)
  | string s, o => o = .string s
  | double d, o => o = .double d
  | doubleArray ds, o => ∃ ds', ds'.length = ds.length ∧ (ds.length < 2 ^ 32 → ds' = ds) ∧
    o = .doubleArray ds'
  | custom _, o => ∃ c words, o = .custom c words
  | _, _ => False

/-- What the reader still has to do for block `a`. -/
def requests (a : Nat) : Item D → List InternItem
  | block tag size =>
    if tag = objectTag then
      readItems (.field a 0) 2 ++ .freshOID a :: readItems (.field a 2) (size - 2)
    else readItems (.field a 0) size
  | _ => []

end Item

namespace InternState

/-- After a new block. -/
def alloc (s : InternState D) (src : Bytes) (words : Nat) (o : Obj (Option Value) (Custom D)) :
    InternState D :=
  { s with
    internSrc := src
    heap := s.heap ++ [o]
    allocated := s.allocated + words
    internDest := s.internDest.map (· - words)
    internObjTable :=
      s.internObjTable.map fun t => { t with entries := t.entries ++ [.block s.heap.length] } }

/-- There is room for a block of so many words, and for its entry in the table. -/
def Room (s : InternState D) (words : Nat) : Prop :=
  (∀ left, s.internDest = some left → words ≤ left) ∧
  ∀ t, s.internObjTable = some t → t.entries.length < t.size

end InternState

section Values

variable {w r : Host} {flags : Flags} {findOps : Bytes → Option (CustomOps D)} {bs rest : Bytes}
  {s : InternState D} {o : Obj (Option Value) (Custom D)} {wosize : Nat} (f : String)

theorem internAllocObj_ok (h : s.Room (1 + wosize)) (o : Obj (Option Value) (Custom D)) :
    internAllocObj s wosize o = .ok (s.heap.length,
      { s with heap := s.heap ++ [o], allocated := s.allocated + (1 + wosize),
               internDest := s.internDest.map (· - (1 + wosize)) }) := by
  rcases s with ⟨src, compressed, table, _ | left, heap, allocated, result, oid⟩
  · rfl
  · exact if_pos (h.1 left rfl)

theorem internRecordObj_ok (h : ∀ t, s.internObjTable = some t → t.entries.length < t.size)
    (v : Value) :
    internRecordObj s v = .ok { s with
      internObjTable := s.internObjTable.map fun t => { t with entries := t.entries ++ [v] } } := by
  rcases s with ⟨src, compressed, _ | t, dest, heap, allocated, result, oid⟩
  · rfl
  · exact if_pos (h t rfl)

theorem internLeaf_ok (h : s.Room (1 + wosize)) (src : Bytes) :
    internLeaf s src wosize o = .ok (.block s.heap.length, s.alloc src (1 + wosize) o, []) := by
  have hroom : ({ s with internSrc := src } : InternState D).Room (1 + wosize) := h
  rw [internLeaf, internAllocObj_ok hroom, ok_bind]
  simp only
  rw [internRecordObj_ok (by exact h.2), ok_bind]
  rfl

theorem internValue_int {n : Int} (hn : InRange w n) (hc : Compatible w r flags)
    (h : externInt w flags n = .ok bs) (hsrc : s.internSrc = bs ++ rest) :
    internValue f r findOps s = .ok (.long n, { s with internSrc := rest }, []) := by
  rw [internValue, hsrc, readCode_int f rest hn hc h, ok_bind]
  rfl

theorem internValue_atom {tag : Nat} (htag : tag < 256) (hc : Compatible w r flags)
    (h : externHeader w flags 0 tag = .ok bs) (hsrc : s.internSrc = bs ++ rest) :
    internValue f r findOps s = .ok (.atom tag, { s with internSrc := rest }, []) := by
  rw [internValue, hsrc, readCode_block f rest htag (Nat.zero_le _) hc h, ok_bind]
  rfl

theorem internValue_shared {d pos : Nat} {t : ObjTable} {v : Value} (hd : d < 2 ^ w.wordBits)
    (hr : r.sixtyFour = true ∨ d < 2 ^ 32) (ht : s.internObjTable = some t)
    (hpos : d = if s.compressed then pos else t.entries.length - pos)
    (hv : t.entries[pos]? = some v) (hsrc : s.internSrc = externSharedReference w d ++ rest) :
    internValue f r findOps s = .ok (v, { s with internSrc := rest }, []) := by
  have hlt : pos < t.entries.length := (List.getElem?_eq_some_iff.mp hv).1
  rw [internValue, hsrc, readCode_shared f rest hd hr, ok_bind]
  simp only [internLabel, ht]
  cases hcomp : s.compressed with
  | true =>
    simp only [hcomp, if_true] at hpos
    subst hpos
    simp [hv]
  | false =>
    simp only [hcomp, Bool.false_eq_true, if_false] at hpos
    rw [if_neg (by simp; omega)]
    simp only [Bool.false_eq_true, if_false, show t.entries.length - d = pos by omega, hv]

/-- The contents of a custom block, once the reader knows the size that was announced. -/
theorem readCustom_ok (code : Nat) {c : Custom D} {ops : CustomOps D} {data : D}
    {payload sizes : Bytes} {expected : Nat} (hname : 0 ∉ c.ops.identifier)
    (hfind : findOps c.ops.identifier = some ops)
    (hcode : ¬ (code = codeCustomFixed ∧ ops.fixedLength = none))
    (hsize : ∀ rest, readExpectedSize r (sizes ++ rest)
      (if code = codeCustomFixed then ops.fixedLength else none) = .ok (expected, rest))
    (hdes : ∀ rest, ops.deserialize (payload ++ rest) = .ok (data, expected, rest))
    (hroom : s.Room (1 + (1 + (expected + r.wordSize - 1) / r.wordSize)))
    (hsrc : s.internSrc = c.ops.identifier ++ [0] ++ (sizes ++ (payload ++ rest))) :
    ∃ words, readCustom f r findOps s code = .ok (.block s.heap.length,
      s.alloc rest (1 + (1 + (expected + r.wordSize - 1) / r.wordSize))
        (.custom ⟨ops, data⟩ words)) := by
  refine ⟨(expected + r.wordSize - 1) / r.wordSize, ?_⟩
  have hroom' : ({ s with internSrc := rest } : InternState D).Room
    (1 + (1 + (expected + r.wordSize - 1) / r.wordSize)) := hroom
  rw [readCustom, hsrc, readIdentifier_append _ hname, ok_bind]
  simp only [hfind]
  rw [if_neg hcode, hsize, ok_bind]
  simp only
  rw [hdes, ok_bind]
  simp only
  rw [internAllocObj_ok hroom', ok_bind]
  simp only [ne_eq, not_true_eq_false, if_false]
  rw [internRecordObj_ok (by exact hroom.2), ok_bind]
  rfl

theorem internValue_custom {c : Custom D} (hc : TrueSizes r findOps c)
    (h : (externCustom c).map Prod.fst = .ok bs) (hroom : s.Room ((Item.custom c).words r))
    (hsrc : s.internSrc = bs ++ rest) :
    ∃ data words, internValue f r findOps s =
      .ok (.block s.heap.length, s.alloc rest ((Item.custom c).words r) (.custom data words),
        []) := by
  obtain ⟨hname, hc⟩ := hc
  unfold externCustom at h
  cases hser : c.ops.serialize with
  | none => rw [hser] at h; cases h
  | some serialize =>
    rcases hp : serialize c.data with ⟨payload, sz32, sz64⟩
    obtain ⟨hlt, ops, data, hfind, hfixed, hdes⟩ := hc serialize hser payload sz32 sz64 hp
    have hwords : (Item.custom c).words r =
        1 + (1 + ((if r.sixtyFour then sz64 else sz32) + r.wordSize - 1) / r.wordSize) := by
      simp only [Item.words, Item.customSize, hser, hp]
      omega
    rw [hwords] at hroom ⊢
    have readLabel : ∀ (code : Nat) {src : Bytes}, code < 256 →
        s.internSrc = UInt8.ofNat code :: src →
        (∀ src, dispatch f r code src = .ok (.readCustom code, src)) →
        (∃ words, readCustom f r findOps { s with internSrc := src } code =
          .ok (.block s.heap.length, s.alloc rest (1 + (1 + ((if r.sixtyFour then sz64 else sz32) +
            r.wordSize - 1) / r.wordSize)) (.custom ⟨ops, data⟩ words))) →
        ∃ c words, internValue f r findOps s = .ok (.block s.heap.length, s.alloc rest (1 + (1 +
          ((if r.sixtyFour then sz64 else sz32) + r.wordSize - 1) / r.wordSize)) (.custom c words),
          []) := by
      rintro code src hcode hs hdispatch ⟨words, hread⟩
      refine ⟨⟨ops, data⟩, words, ?_⟩
      rw [internValue, hs, readCode_cons hcode, hdispatch, ok_bind]
      simp only [internLabel]
      rw [hread, ok_bind]
    simp only [hser, hp] at h
    cases hfl : c.ops.fixedLength with
    | none =>
      rw [hfl] at h
      obtain rfl := Except.ok.inj h
      have hsrc' : s.internSrc = UInt8.ofNat codeCustomLen :: (c.ops.identifier ++ [0] ++
          ((BigEndian.store 4 sz32 ++ BigEndian.store 8 sz64) ++ (payload ++ rest))) := by
        rw [hsrc]
        simp [writebyte]
      exact readLabel _ (by decide) hsrc' (fun _ => rfl) (readCustom_ok f codeCustomLen hname hfind
        (fun h => absurd h.1 (by decide)) (readExpectedSize_store hlt) hdes hroom rfl)
    | some sizes =>
      rw [hfl] at h hfixed
      obtain ⟨bsize32, bsize64⟩ := sizes
      simp only at h
      split at h
      · cases h
      next hsizes =>
      obtain ⟨rfl, rfl⟩ : sz32 = bsize32 ∧ sz64 = bsize64 := by
        simpa only [not_or, not_not, ne_eq] using hsizes
      obtain rfl := Except.ok.inj h
      have hsrc' : s.internSrc = UInt8.ofNat codeCustomFixed :: (c.ops.identifier ++ [0] ++
          ([] ++ (payload ++ rest))) := by
        rw [hsrc]
        simp [writebyte]
      have hexpected : ∀ rest, readExpectedSize r ([] ++ rest)
          (if codeCustomFixed = codeCustomFixed then ops.fixedLength else none) =
            .ok (if r.sixtyFour then sz64 else sz32, rest) := by
        intro rest
        rw [if_pos rfl, hfixed]
        rfl
      exact readLabel _ (by decide) hsrc' (fun _ => rfl)
        (readCustom_ok f codeCustomFixed hname hfind
        (by simp [hfixed]) hexpected hdes hroom rfl)

/-- **The reader makes a block for an item**, of the size that the item has on its host. -/
theorem internValue_object {item : Item D} (hvalid : item.Valid w r findOps)
    (hobj : item.isObject = true) (hc : Compatible w r flags)
    (h : item.encode w flags = .ok bs) (hsrc : s.internSrc = bs ++ rest)
    (hroom : s.Room (item.words r)) :
    ∃ o, item.Received o ∧ internValue f r findOps s =
      .ok (.block s.heap.length, s.alloc rest (item.words r) o, item.requests s.heap.length) := by
  cases item with
  | int n => cases hobj
  | shared d => cases hobj
  | block tag size =>
    have hsize : size ≠ 0 := by simpa [Item.isObject] using hobj
    obtain ⟨htag, hmax, htwo⟩ := hvalid
    refine ⟨_, rfl, ?_⟩
    rw [Item.words, if_neg hsize] at hroom ⊢
    have hroom' : ({ s with internSrc := rest } : InternState D).Room (1 + size) := hroom
    rw [internValue, hsrc, readCode_block f rest htag hmax hc h, ok_bind]
    simp only [internLabel]
    rw [if_neg hsize, internAllocObj_ok hroom', ok_bind]
    simp only
    rw [internRecordObj_ok (by exact hroom.2), ok_bind, Item.requests]
    split
    · next hobject =>
      rw [if_neg (by have := htwo hobject; omega)]
      rfl
    · rfl
  | string str =>
    refine ⟨_, rfl, ?_⟩
    rw [internValue, hsrc, readCode_string f rest hc hvalid h, ok_bind]
    simp only [internLabel]
    rw [readblock_append rfl, ok_bind]
    exact internLeaf_ok (s := { s with internSrc := str ++ rest }) hroom rest
  | double d =>
    obtain rfl := Except.ok.inj h
    refine ⟨_, rfl, ?_⟩
    rw [internValue, hsrc, readCode_double, ok_bind]
    simp only [internLabel]
    rw [readfloat_doubleBytes, ok_bind]
    exact internLeaf_ok (s := { s with internSrc := doubleBytes w d ++ rest }) hroom rest
  | doubleArray ds =>
    obtain ⟨code, hcode, hread⟩ := readCode_doubleArray f rest (.inl hc) hvalid h
    obtain ⟨ds', hlen, hsame, hfloats⟩ : ∃ ds', ds'.length = ds.length ∧
        (ds.length < 2 ^ 32 → ds' = ds) ∧ readfloats r code ds.length
          (ds.flatMap (doubleBytes w) ++ rest) = .ok (ds', rest) := by
      obtain ⟨h8, h32, h64⟩ := readfloats_doubleBytes (w := w) (r := r) rest ds
      rcases hcode with ⟨rfl | rfl, -⟩ | ⟨rfl, hlong⟩
      · exact ⟨ds, rfl, fun _ => rfl, h8⟩
      · exact ⟨ds, rfl, fun _ => rfl, h32⟩
      · exact ⟨_, by split <;> simp, fun hshort => absurd hshort (by omega), h64⟩
    refine ⟨_, ⟨ds', hlen, hsame, rfl⟩, ?_⟩
    rw [internValue, hsrc, hread, ok_bind]
    simp only [internLabel]
    rw [hfloats, ok_bind]
    exact internLeaf_ok (s := { s with internSrc := ds.flatMap (doubleBytes w) ++ rest }) hroom rest
  | custom c =>
    obtain ⟨data, words, hread⟩ := internValue_custom f hvalid h hroom hsrc
    exact ⟨_, ⟨data, words, rfl⟩, hread⟩

end Values

end TravLang.Runtime.Marshal
