import TravLang.Lib.Result
import TravLang.Runtime.Marshal.Intern

/-!
# The items of a message

A message is a sequence of items: integers, references to shared objects, headers, and the
contents of blocks without fields. The writer has several encodings for each kind of item. This
file shows that the reader gets back what an item says, on the host of the writer or on another
one that the flags of the message allow.
-/

namespace TravLang.Runtime.Marshal

open Result List BigEndian Host

variable {D : Type} {k : Nat} {n : Int}

inductive Item (D : Type) where
  | int (n : Int)
  | shared (d : Nat)
  | block (tag size : Nat)
  | string (s : Bytes)
  | double (d : UInt64)
  | doubleArray (ds : List UInt64)
  | custom (c : Custom D)

/-- The reader may have smaller words than the writer only if the writer was asked to allow it. -/
def Compatible (w r : Host) (flags : Flags) : Prop :=
  r.sixtyFour = true ∨ w.sixtyFour = false ∨ flags.compat32 = true

/-! ## Numbers -/

theorem readblock_append {bs : Bytes} (h : bs.length = k) (rest : Bytes) :
    readblock k (bs ++ rest) = .ok (bs, rest) := by
  subst h
  rw [readblock, if_pos (by simp), take_left, drop_left]

theorem readUnsigned_store {n : Nat} (h : n < 256 ^ k) (rest : Bytes) :
    readUnsigned k (store k n ++ rest) = .ok (n, rest) := by
  rw [readUnsigned, readblock_append (length_store k n), ok_bind]
  simp only [load_store_of_lt h]

theorem readSigned_store (h : -256 ^ k ≤ n * 2) (h' : n * 2 < 256 ^ k) (rest : Bytes) :
    readSigned k (store k n ++ rest) = .ok (n, rest) := by
  rw [readSigned, readblock_append (length_store k n), ok_bind]
  simp only [loadSigned_store h h']

theorem readCode_cons {code : Nat} (h : code < 256) (f : String) (r : Host) (src : Bytes) :
    readCode f r (UInt8.ofNat code :: src) = dispatch f r code src := by
  have hload : load [UInt8.ofNat code] = code := by
    rw [load, foldl_cons, foldl_nil, UInt8.toNat_ofNat_of_lt' h]
    omega
  show dispatch f r (load [UInt8.ofNat code]) src = _
  rw [hload]

/-- A code, and an unsigned number of `k` bytes. -/
theorem readCode_unsigned {f : String} {r : Host} {rest : Bytes} {code n : Nat} (hcode : code < 256)
    (hn : n < 256 ^ k) (label : Nat → Label) (hdispatch : ∀ src, dispatch f r code src =
      (readUnsigned k src >>= fun p => .ok (label p.1, p.2))) :
    readCode f r (UInt8.ofNat code :: store k n ++ rest) = .ok (label n, rest) := by
  rw [cons_append, readCode_cons hcode, hdispatch, readUnsigned_store hn, ok_bind]

theorem int_of_31_bits (h : -2 ^ 30 ≤ n) (h' : n < 2 ^ 30) (r : Host) : r.int n = n := by
  apply int_of_inRange
  rcases r with ⟨_ | _, _⟩ <;> simp [InRange, wordBits, wordSize] <;> omega

/-! ## Integers, references and headers -/

section ReadBack

variable {w r : Host} {flags : Flags} {bs : Bytes} (f : String) (rest : Bytes)

theorem readCode_int (hn : InRange w n) (hc : Compatible w r flags)
    (h : externInt w flags n = .ok bs) : readCode f r (bs ++ rest) = .ok (.value n, rest) := by
  -- a code, and a signed number of `k` bytes
  have hsigned : ∀ {code : Nat} (k : Nat), code < 256 → -256 ^ k ≤ n * 2 → n * 2 < 256 ^ k →
      -2 ^ 30 ≤ n → n < 2 ^ 30 → (∀ src, dispatch f r code src =
        (readSigned k src >>= fun p => .ok (.value (r.int p.1), p.2))) →
      readCode f r (UInt8.ofNat code :: store k n ++ rest) = .ok (.value n, rest) := by
    intro code k hcode hlow hhigh hn1 hn2 hdispatch
    rw [cons_append, readCode_cons hcode, hdispatch, readSigned_store hlow hhigh, ok_bind,
      int_of_31_bits hn1 hn2]
  unfold externInt at h
  split at h
  · next hsmall =>
    obtain ⟨n, rfl⟩ := Int.eq_ofNat_of_zero_le hsmall.1
    obtain rfl := Except.ok.inj h
    have hlt : n < 0x40 := by omega
    have hand : (prefixSmallInt + n) &&& 0x3F = n := by
      rw [show 0x3F = 2 ^ 6 - 1 from rfl, Nat.and_two_pow_sub_one_eq_mod, prefixSmallInt]
      omega
    rw [writebyte, singleton_append, readCode_cons (by simp [prefixSmallInt]; omega)]
    unfold dispatch
    rw [if_pos (by simp), if_neg (by simp [prefixSmallBlock, prefixSmallInt]; omega)]
    simp only [Int.toNat_natCast, hand]
  split at h
  · next h8 =>
    obtain rfl := Except.ok.inj h
    exact hsigned 1 (by decide) (by omega) (by omega) (by omega) (by omega) fun _ => rfl
  split at h
  · next h16 =>
    obtain rfl := Except.ok.inj h
    exact hsigned 2 (by decide) (by omega) (by omega) (by omega) (by omega) fun _ => rfl
  split at h
  · next h64 =>
    split at h
    · cases h
    next hcompat =>
    obtain rfl := Except.ok.inj h
    -- the reader has words of 64 bits as well
    have hr : r.sixtyFour = true := by simpa [Compatible, h64.1, hcompat] using hc
    obtain ⟨hn1, hn2⟩ : -2 ^ 62 ≤ n ∧ n < 2 ^ 62 := by
      simpa [InRange, wordBits, wordSize, h64.1] using hn
    have hload : r.int (load (store 8 n)) = n := by
      rw [load_store, Host.int]
      have hbits : r.wordBits - 1 = 63 := by simp [wordBits, wordSize, hr]
      rw [hbits, ← Int.emod_bmod, Int.emod_emod_of_dvd _ (by decide), Int.emod_bmod]
      exact Int.bmod_eq_of_le_mul_two (by simp; omega) (by simp; omega)
    rw [writecode64, cons_append, readCode_cons (by decide)]
    show (if r.sixtyFour then _ else _ : Except Exn (Label × Bytes)) = _
    rw [if_pos hr, read64u, readUnsigned, readblock_append (length_store 8 n), ok_bind,
      ok_bind]
    simp only [hload]
  · next h32 =>
    obtain rfl := Except.ok.inj h
    obtain ⟨hn1, hn2⟩ : -2 ^ 30 ≤ n ∧ n < 2 ^ 30 := by
      by_cases hw : w.sixtyFour = true
      · simp only [hw, true_and, not_or, not_lt, not_le] at h32
        omega
      · simpa [InRange, wordBits, wordSize, hw] using hn
    exact hsigned 4 (by decide) (by omega) (by omega) hn1 hn2 fun _ => rfl

/-- A reference that does not fit in four bytes can only be read with words of 64 bits. -/
theorem readCode_shared {d : Nat} (hd : d < 2 ^ w.wordBits)
    (hr : r.sixtyFour = true ∨ d < 2 ^ 32) :
    readCode f r (externSharedReference w d ++ rest) = .ok (.readShared d, rest) := by
  unfold externSharedReference
  split
  · next h8 => exact readCode_unsigned (by decide) (by omega) .readShared fun _ => rfl
  split
  · next h16 => exact readCode_unsigned (by decide) (by omega) .readShared fun _ => rfl
  split
  · next h64 =>
    have hr64 : r.sixtyFour = true := hr.resolve_right (by omega)
    have hlt : d < 256 ^ 8 := by simpa [wordBits, wordSize, h64.1] using hd
    exact readCode_unsigned (by decide) hlt .readShared fun _ => if_pos hr64
  · next h32 =>
    have hlt : d < 256 ^ 4 := by
      by_cases hw : w.sixtyFour = true
      · simp only [hw, true_and, not_le] at h32
        exact h32
      · simpa [wordBits, wordSize, hw] using hd
    exact readCode_unsigned (by decide) hlt .readShared fun _ => rfl

theorem makeHeader_eq (sz tag : Nat) : makeHeader sz tag = sz * 1024 + 768 + tag := by
  rw [makeHeader, Nat.shiftLeft_eq]
  rfl

variable {sz tag : Nat}

theorem tagHd_makeHeader (htag : tag < 256) : tagHd (makeHeader sz tag) = tag := by
  rw [tagHd, makeHeader_eq]
  omega

theorem wosizeHd_makeHeader (htag : tag < 256) (hhd : makeHeader sz tag < 2 ^ r.wordBits) :
    wosizeHd r (makeHeader sz tag) = sz := by
  rw [wosizeHd, Nat.mod_eq_of_lt hhd, makeHeader_eq, Nat.shiftRight_eq_div_pow]
  omega

theorem makeHeader_lt (htag : tag < 256) (hsz : sz ≤ w.maxWosize) :
    makeHeader sz tag < 2 ^ w.wordBits := by
  rw [makeHeader_eq]
  rcases w with ⟨_ | _, _⟩
  all_goals
    simp [maxWosize, wordBits, wordSize] at hsz ⊢
    omega

/-- Four bytes are a word of both kinds of hosts, or part of it. -/
theorem two_pow_32_le (r : Host) : 2 ^ 32 ≤ 2 ^ r.wordBits := by
  rcases r with ⟨_ | _, _⟩
  · exact Nat.le_refl (2 ^ 32)
  · exact (by decide : 2 ^ 32 ≤ 2 ^ 64)

theorem readCode_block (htag : tag < 256) (hsz : sz ≤ w.maxWosize) (hc : Compatible w r flags)
    (h : externHeader w flags sz tag = .ok bs) :
    readCode f r (bs ++ rest) = .ok (.readBlock tag sz, rest) := by
  have hlt := makeHeader_lt htag hsz
  have h32 : makeHeader sz tag < 2 ^ 32 → bs = writecode32 codeBlock32 (makeHeader sz tag) →
      readCode f r (bs ++ rest) = .ok (.readBlock tag sz, rest) := by
    rintro hlt rfl
    refine (readCode_unsigned (by decide) hlt (fun n => .readBlock (tagHd n) (wosizeHd r n))
      fun _ => rfl).trans ?_
    rw [tagHd_makeHeader htag,
      wosizeHd_makeHeader htag (Nat.lt_of_lt_of_le hlt (two_pow_32_le r))]
  unfold externHeader at h
  split at h
  · next hsmall =>
    obtain rfl := Except.ok.inj h
    have hcode : prefixSmallBlock + tag + sz <<< 4 = 128 + tag + sz * 16 := by
      rw [Nat.shiftLeft_eq]
      rfl
    have htag' : (128 + tag + sz * 16) &&& 0xF = tag := by
      rw [show 0xF = 2 ^ 4 - 1 from rfl, Nat.and_two_pow_sub_one_eq_mod]
      omega
    have hsz' : (128 + tag + sz * 16) >>> 4 &&& 0x7 = sz := by
      rw [show 0x7 = 2 ^ 3 - 1 from rfl, Nat.and_two_pow_sub_one_eq_mod,
        Nat.shiftRight_eq_div_pow]
      omega
    rw [hcode, writebyte, singleton_append, readCode_cons (by omega)]
    unfold dispatch
    rw [if_pos (by simp [prefixSmallInt]; omega), if_pos (by simp [prefixSmallBlock]; omega),
      htag', hsz']
  · simp only at h
    split at h
    · next hw =>
      split at h
      · cases h
      next hcompat =>
      split at h
      · next hhd => exact h32 hhd (Except.ok.inj h).symm
      · next hhd =>
        obtain rfl := Except.ok.inj h
        -- a header of more than four bytes belongs to a block that a 32-bit host cannot have
        have hr : r.sixtyFour = true := by
          rcases hc with hr | hw' | hflag
          · exact hr
          · rw [hw] at hw'
            cases hw'
          · rw [makeHeader_eq] at hhd
            simp only [hflag, and_true, not_lt] at hcompat
            omega
        have hbits : 256 ^ 8 = 2 ^ w.wordBits := by simp [wordBits, wordSize, hw]
        have hbits' : 256 ^ 8 = 2 ^ r.wordBits := by simp [wordBits, wordSize, hr]
        refine (readCode_unsigned (by decide) (hbits ▸ hlt)
          (fun n => .readBlock (tagHd n) (wosizeHd r n)) fun _ => ?_).trans ?_
        · exact if_pos hr
        rw [tagHd_makeHeader htag, wosizeHd_makeHeader htag (hbits' ▸ hbits ▸ hlt)]
    · next hw =>
      refine h32 ?_ (Except.ok.inj h).symm
      simpa [wordBits, wordSize, hw] using hlt

/-! ## Contents -/

/-- The reading of a length, from the codes for its three encodings. -/
theorem readCode_length {limit code8 code32 code64 len : Nat} {msg : String}
    (label : Nat → Nat → Label) (hc : Compatible w r flags ∨ len < 2 ^ 32)
    (hlen : len < 2 ^ w.wordBits)
    (hlimit : limit < 2 ^ 32) (hcodes : code8 < 256 ∧ code32 < 256 ∧ code64 < 256)
    (h8 : ∀ src, dispatch f r code8 src =
      (read8u src >>= fun p => .ok (label code8 p.1, p.2)))
    (h32 : ∀ src, dispatch f r code32 src =
      (read32u src >>= fun p => .ok (label code32 p.1, p.2)))
    (h64 : r.sixtyFour = true → ∀ src, dispatch f r code64 src =
      (read64u src >>= fun p => .ok (label code64 p.1, p.2)))
    (h : externLength w flags limit msg code8 code32 code64 len = .ok bs) :
    ∃ code, ((code = code8 ∨ code = code32) ∧ len < 2 ^ 32 ∨ code = code64 ∧ 2 ^ 32 ≤ len) ∧
      readCode f r (bs ++ rest) = .ok (label code len, rest) := by
  unfold externLength at h
  split at h
  · next hlt =>
    obtain rfl := Except.ok.inj h
    exact ⟨code8, .inl ⟨.inl rfl, by omega⟩, readCode_unsigned hcodes.1 (by omega) _ h8⟩
  have hread32 : len < 2 ^ 32 → bs = writecode32 code32 len →
      ∃ code, ((code = code8 ∨ code = code32) ∧ len < 2 ^ 32 ∨ code = code64 ∧ 2 ^ 32 ≤ len) ∧
        readCode f r (bs ++ rest) = .ok (label code len, rest) := by
    rintro hlt rfl
    exact ⟨code32, .inl ⟨.inr rfl, hlt⟩, readCode_unsigned hcodes.2.1 hlt _ h32⟩
  split at h
  · next hw =>
    split at h
    · cases h
    next hcompat =>
    split at h
    · next hlt => exact hread32 hlt (Except.ok.inj h).symm
    · next hge =>
      obtain rfl := Except.ok.inj h
      have hr : r.sixtyFour = true := by
        rcases hc with (hr | hw' | hflag) | hlt
        · exact hr
        · rw [hw] at hw'
          cases hw'
        · simp only [hflag, and_true, not_lt] at hcompat
          omega
        · exact absurd hlt hge
      have hbits : 256 ^ 8 = 2 ^ w.wordBits := by simp [wordBits, wordSize, hw]
      exact ⟨code64, .inr ⟨rfl, Nat.not_lt.mp hge⟩,
        readCode_unsigned hcodes.2.2 (hbits ▸ hlen) _ (h64 hr)⟩
  · next hw =>
    refine hread32 ?_ (Except.ok.inj h).symm
    simpa [wordBits, wordSize, hw] using hlen

theorem readCode_string {str : Bytes} (hc : Compatible w r flags)
    (hlen : str.length < 2 ^ w.wordBits) (h : externString w flags str = .ok bs) :
    readCode f r (bs ++ rest) = .ok (.readString str.length, str ++ rest) := by
  obtain ⟨len, hl, hbs⟩ := bind_eq_ok.mp h
  obtain rfl := Except.ok.inj hbs
  rw [append_assoc]
  unfold externStringLength at hl
  split at hl
  · next hsmall =>
    obtain rfl := Except.ok.inj hl
    have hand : (prefixSmallString + str.length) &&& 0x1F = str.length := by
      rw [show 0x1F = 2 ^ 5 - 1 from rfl, Nat.and_two_pow_sub_one_eq_mod, prefixSmallString]
      omega
    rw [writebyte, singleton_append,
      readCode_cons (by simp [prefixSmallString]; omega)]
    unfold dispatch
    rw [if_neg (by simp [prefixSmallInt, prefixSmallString]; omega), if_pos (by simp), hand]
  · have h64 : r.sixtyFour = true → ∀ src, dispatch f r codeString64 src =
        (read64u src >>= fun p => .ok (.readString p.1, p.2)) := fun hr _ => if_pos hr
    obtain ⟨_, -, hread⟩ := readCode_length f (str ++ rest) (fun _ => .readString) (.inl hc) hlen
      (by decide) (by decide) (fun _ => rfl) (fun _ => rfl) h64 hl
    exact hread

theorem codeDoubleArray_lt (w : Host) : codeDoubleArray8Native w < 256 ∧
    codeDoubleArray32Native w < 256 ∧ codeDoubleArray64Native w < 256 := by
  rcases w with ⟨_ | _, _ | _⟩ <;> decide

/-- The codes for float arrays do not depend on the host of the reader. -/
theorem dispatch_doubleArray (w : Host) :
    (∀ src, dispatch f r (codeDoubleArray8Native w) src =
      (read8u src >>= fun p => .ok (.readDoubleArray (codeDoubleArray8Native w) p.1, p.2))) ∧
    (∀ src, dispatch f r (codeDoubleArray32Native w) src =
      (read32u src >>= fun p => .ok (.readDoubleArray (codeDoubleArray32Native w) p.1, p.2))) ∧
    (r.sixtyFour = true → ∀ src, dispatch f r (codeDoubleArray64Native w) src =
      (read64u src >>= fun p => .ok (.readDoubleArray (codeDoubleArray64Native w) p.1, p.2))) := by
  rcases w with ⟨_, _ | _⟩
  · exact ⟨fun _ => rfl, fun _ => rfl, fun hr _ => if_pos hr⟩
  · exact ⟨fun _ => rfl, fun _ => rfl, fun hr _ => if_pos hr⟩

theorem readCode_doubleArray {ds : List UInt64}
    (hc : Compatible w r flags ∨ ds.length < 2 ^ 32) (hlen : ds.length < 2 ^ w.wordBits)
    (h : externDoubleArray w flags ds = .ok bs) :
    ∃ code, ((code = codeDoubleArray8Native w ∨ code = codeDoubleArray32Native w) ∧
        ds.length < 2 ^ 32 ∨ code = codeDoubleArray64Native w ∧ 2 ^ 32 ≤ ds.length) ∧
      readCode f r (bs ++ rest) =
      .ok (.readDoubleArray code ds.length, ds.flatMap (doubleBytes w) ++ rest) := by
  obtain ⟨len, hl, hbs⟩ := bind_eq_ok.mp h
  obtain rfl := Except.ok.inj hbs
  rw [append_assoc]
  obtain ⟨h8, h32, h64⟩ := dispatch_doubleArray (r := r) f w
  exact readCode_length f _ .readDoubleArray hc hlen (by decide)
    (codeDoubleArray_lt w) h8 h32 h64 hl

theorem length_doubleBytes (w : Host) (d : UInt64) : (doubleBytes w d).length = 8 := by
  unfold doubleBytes
  split <;> simp

theorem readCode_double (d : UInt64) :
    readCode f r (externDouble w d ++ rest) =
      .ok (.readDouble (codeDoubleNative w), doubleBytes w d ++ rest) := by
  rcases w with ⟨_, _ | _⟩
  · exact readCode_cons (show codeDoubleLittle < 256 by decide) f r _
  · exact readCode_cons (show codeDoubleBig < 256 by decide) f r _

/-- A float has the same bits on a host with the other byte order. -/
theorem readfloat_doubleBytes (d : UInt64) :
    readfloat r (codeDoubleNative w) (doubleBytes w d ++ rest) = .ok (d, rest) := by
  have hload : UInt64.ofNat (load (store 8 d.toNat)) = d := by
    rw [load_store_of_lt (Nat.lt_of_lt_of_le d.toNat_lt (by decide)), UInt64.ofNat_toNat]
  rw [readfloat, readblock_append (length_doubleBytes w d), ok_bind]
  rcases w with ⟨_, _ | _⟩ <;> rcases r with ⟨_, _ | _⟩ <;>
    simp [doubleBytes, doubleOfBytes, codeDoubleNative, codeDoubleBig, codeDoubleLittle, hload]

theorem chunks8_flatMap (w : Host) : ∀ ds : List UInt64,
    chunks8 ds.length (ds.flatMap (doubleBytes w)) = ds.map (doubleBytes w)
  | [] => rfl
  | d :: ds => by
    rw [flatMap_cons, length_cons, chunks8, List.take_left' (length_doubleBytes w d),
      List.drop_left' (length_doubleBytes w d), chunks8_flatMap w ds, map_cons]

/-- The float whose bytes are those of `d` in the other order. -/
def byteSwapped (d : UInt64) : UInt64 :=
  UInt64.ofNat (load (store 8 d.toNat).reverse)

/-- **The floats of an array**, from the three codes for arrays: the bytes are put in order, but
where the length takes eight bytes they are always swapped. -/
theorem readfloats_doubleBytes (ds : List UInt64) :
    readfloats r (codeDoubleArray8Native w) ds.length (ds.flatMap (doubleBytes w) ++ rest) =
      .ok (ds, rest) ∧
    readfloats r (codeDoubleArray32Native w) ds.length (ds.flatMap (doubleBytes w) ++ rest) =
      .ok (ds, rest) ∧
    readfloats r (codeDoubleArray64Native w) ds.length (ds.flatMap (doubleBytes w) ++ rest) =
      .ok (if w.bigEndian = r.bigEndian then ds.map byteSwapped else ds, rest) := by
  have hlen : (ds.flatMap (doubleBytes w)).length = ds.length * 8 := by
    rw [length_flatMap]
    simp [length_doubleBytes]
  have hload : ∀ d : UInt64, UInt64.ofNat (load (store 8 d.toNat)) = d := by
    intro d
    rw [load_store_of_lt (Nat.lt_of_lt_of_le d.toNat_lt (by decide)), UInt64.ofNat_toNat]
  simp only [readfloats, readblock_append hlen, ok_bind, chunks8_flatMap, map_map]
  rcases w with ⟨_, _ | _⟩ <;> rcases r with ⟨_, _ | _⟩ <;>
    simp [Function.comp_def, doubleBytes, doubleOfBytes, codeDoubleArray8Native,
      codeDoubleArray32Native, codeDoubleArray64Native, codeDoubleArray8Big,
      codeDoubleArray8Little, codeDoubleArray32Big, codeDoubleArray32Little, codeDoubleArray64Big,
      codeDoubleArray64Little, hload, byteSwapped]

end ReadBack

/-! ## Custom blocks -/

/-- A serializer reports the size that the reader will find: the operations that the reader has
under the same name read what was written, no more and no less, and report the size for the host
of the reader. -/
def TrueSizes (r : Host) (findOps : Bytes → Option (CustomOps D)) (c : Custom D) : Prop :=
  0 ∉ c.ops.identifier ∧
  ∀ serialize, c.ops.serialize = some serialize →
    ∀ payload sz32 sz64, serialize c.data = (payload, sz32, sz64) →
      (if r.sixtyFour then sz64 else sz32) < 2 ^ r.wordBits ∧
      ∃ ops data, findOps c.ops.identifier = some ops ∧
        ops.fixedLength = c.ops.fixedLength ∧
        ∀ rest, ops.deserialize (payload ++ rest) =
          .ok (data, if r.sixtyFour then sz64 else sz32, rest)

theorem readIdentifier_append (rest : Bytes) : ∀ {name : Bytes}, 0 ∉ name →
    readIdentifier (name ++ [0] ++ rest) = .ok (name, rest)
  | [], _ => rfl
  | b :: name, h => by
    rw [mem_cons, not_or] at h
    rw [cons_append, cons_append, readIdentifier, if_neg (Ne.symm h.1),
      readIdentifier_append rest h.2, ok_bind]

theorem readExpectedSize_store {r : Host} {sz32 sz64 : Nat}
    (h : (if r.sixtyFour then sz64 else sz32) < 2 ^ r.wordBits) (rest : Bytes) :
    readExpectedSize r (store 4 sz32 ++ store 8 sz64 ++ rest) none =
      .ok (if r.sixtyFour then sz64 else sz32, rest) := by
  unfold readExpectedSize
  rcases r with ⟨_ | _, _⟩
  · have hlt : sz32 < 256 ^ 4 := h
    simp only [append_assoc, Bool.false_eq_true, if_false]
    rw [read32u, readUnsigned_store hlt, ok_bind]
    simp only [readblock_append (length_store 8 sz64), ok_bind]
  · have hlt : sz64 < 256 ^ 8 := h
    simp only [append_assoc, if_true]
    rw [readblock_append (length_store 4 sz32), ok_bind]
    exact readUnsigned_store hlt rest

end TravLang.Runtime.Marshal
