import TravLang.Runtime.Io.Basic
import Mathlib.Data.List.Basic

/-!
# Buffered input is transparent

The buffer holds the bytes of the file before the position of the descriptor. So the operations on a
channel do what they do on a byte stream without a buffer, at the position that `pos_in` gives.
-/

namespace TravLang.Io

open List

variable {sys : Sys} {ch ch' : Channel} {n k : Int}

/-! ## Byte streams -/

/-- The `n` bytes from the position `pos` on, or those that there are -/
def slice (file : List Byte) (pos n : Nat) : List Byte := (file.drop pos).take n

/-- The bytes up to the next newline, or the end of the file -/
def lineAt (file : List Byte) (pos : Nat) : List Byte := (file.drop pos).takeWhile (· ≠ newline)

/-- The position after the next newline, or at the end of the file -/
def lineEnd (file : List Byte) (pos : Nat) : Nat :=
  pos + (lineAt file pos).length + if newline ∈ file.drop pos then 1 else 0

/-- The operations on a byte stream: `Stream file pos op r pos'` says that `op` may give the result
`r` at the position `pos` and go to `pos'`. -/
inductive Stream (file : List Byte) : Nat → Op → Result → Nat → Prop
  | inputChar {pos : Nat} {c : Byte} (h : file[pos]? = some c) :
    Stream file pos .inputChar (.char (.ok c)) (pos + 1)
  | inputCharEof {pos : Nat} (h : file.length ≤ pos) :
    Stream file pos .inputChar (.char (.error .endOfFile)) pos
  | inputInvalid {pos : Nat} {s : List Byte} {ofs len : Int} (h : outOfBytes s ofs len) :
    Stream file pos (.input s ofs len) (.input (.error (.invalidArg "input")) s) pos
  /-- some bytes, but none only if none is asked for or left -/
  | input {pos k : Nat} {s : List Byte} {ofs len : Int} (h : ¬outOfBytes s ofs len)
    (hlen : (k : Int) ≤ len) (hleft : pos + k ≤ file.length ∨ k = 0)
    (hzero : k = 0 → len = 0 ∨ file.length ≤ pos) :
    Stream file pos (.input s ofs len)
      (.input (.ok k) (blit s ofs.toNat (slice file pos k))) (pos + k)
  | reallyInputInvalid {pos : Nat} {s : List Byte} {ofs len : Int} (h : outOfBytes s ofs len) :
    Stream file pos (.reallyInput s ofs len) (.reallyInput (.error (.invalidArg "really_input")) s)
      pos
  | reallyInput {pos : Nat} {s : List Byte} {ofs len : Int} (h : ¬outOfBytes s ofs len)
    (hleft : pos + len ≤ file.length ∨ len = 0) :
    Stream file pos (.reallyInput s ofs len)
      (.reallyInput (.ok ()) (blit s ofs.toNat (slice file pos len.toNat))) (pos + len.toNat)
  | reallyInputEof {pos : Nat} {s : List Byte} {ofs len : Int} (h : ¬outOfBytes s ofs len)
    (hleft : file.length < pos + len) (hlen : len ≠ 0) :
    Stream file pos (.reallyInput s ofs len)
      (.reallyInput (.error .endOfFile) (blit s ofs.toNat (file.drop pos)))
      (pos + (file.length - pos))
  | inputLine {pos : Nat} (h : pos < file.length) :
    Stream file pos .inputLine (.line (.ok (lineAt file pos))) (lineEnd file pos)
  | inputLineEof {pos : Nat} (h : file.length ≤ pos) :
    Stream file pos .inputLine (.line (.error .endOfFile)) pos
  | seekIn {pos : Nat} {dest : Int} (h : 0 ≤ dest) :
    Stream file pos (.seekIn dest) (.seek (.ok ())) dest.toNat
  | seekInError {pos : Nat} {dest : Int} (h : dest < 0) :
    Stream file pos (.seekIn dest) (.seek (.error .sysError)) pos
  | posIn {pos : Nat} : Stream file pos .posIn (.pos pos) pos

/-- A sequence of operations, with the results and the positions after them -/
inductive Stream.Run (file : List Byte) : Nat → List Op → List (Result × Nat) → Prop
  | nil (pos : Nat) : Run file pos [] []
  | cons {pos pos' : Nat} {op : Op} {ops : List Op} {r : Result} {rs : List (Result × Nat)}
    (h : Stream file pos op r pos') (hrest : Run file pos' ops rs) :
    Run file pos (op :: ops) ((r, pos') :: rs)

/-! ## The buffer -/

/-- The buffer holds the bytes of the file before `offset`, where the descriptor is. -/
structure Valid (sys : Sys) (ch : Channel) : Prop where
  curr_nonneg : 0 ≤ ch.curr
  curr_le : ch.curr ≤ ch.max
  max_le : ch.max ≤ sys.bufferEnd
  fd : (ch.fd : Int) = ch.offset
  start : ch.max ≤ ch.offset
  content : ∀ j, 0 ≤ j → j < ch.max → sys.file[(ch.offset - ch.max + j).toNat]? = some (ch.buff j)

/-- The channel is at the position `pos` of the file. -/
structure At (sys : Sys) (ch : Channel) (pos : Nat) : Prop extends Valid sys ch where
  at_pos : ch.offset - ch.max + ch.curr = pos

theorem at_open (sys : Sys) (fd : Nat) : At sys (openDescriptorIn fd) fd where
  curr_nonneg := Int.le_refl 0
  curr_le := Int.le_refl 0
  max_le := Int.natCast_nonneg _
  fd := rfl
  start := Int.natCast_nonneg fd
  content _ hj hlt := absurd hlt (Int.not_lt.mpr hj)
  at_pos := by simp [openDescriptorIn]

theorem At.posIn_eq {pos : Nat} (h : At sys ch pos) : posIn ch = pos := by
  have := h.at_pos
  unfold posIn
  omega

/-- Bytes of the buffer are bytes of the file. -/
theorem Valid.bytes_eq (h : Valid sys ch) {p : Int} (hp : 0 ≤ p) (hle : p + n ≤ ch.max) :
    ch.bytes p n = slice sys.file (ch.offset - ch.max + p).toNat n.toNat := by
  have := h.start
  refine List.ext_getElem? fun i => ?_
  unfold Channel.bytes slice
  rw [List.getElem?_map, List.getElem?_take, List.getElem?_drop]
  by_cases hi : i < n.toNat
  · rw [List.getElem?_range hi, if_pos hi, Option.map_some,
      ← h.content (p + i) (by omega) (by omega)]
    congr 1
    omega
  · rw [if_neg hi, List.getElem?_eq_none (by rw [length_range]; omega), Option.map_none]

theorem Channel.length_bytes (ch : Channel) (p n : Int) : (ch.bytes p n).length = n.toNat := by
  rw [Channel.bytes, length_map, length_range]

/-! ## Reads -/

section Read

variable {p n : Int}

theorem count_le (sys : Sys) (ch : Channel) (hn : 0 ≤ n) : (sys.count ch n : Int) ≤ n := by
  unfold Sys.count
  split
  · exact hn
  · next h =>
    simp only [Nat.max_def, Nat.min_def]
    split <;> split <;> split <;> omega

theorem count_left (sys : Sys) (ch : Channel) (n : Int) :
    ch.fd + sys.count ch n ≤ sys.file.length ∨ sys.count ch n = 0 := by
  unfold Sys.count
  split
  · exact .inr rfl
  · next h =>
    simp only [Nat.max_def, Nat.min_def]
    split <;> split <;> split <;> omega

theorem count_eq_zero (sys : Sys) (ch : Channel) (hn : 0 < n) (h : sys.count ch n = 0) :
    sys.file.length ≤ ch.fd := by
  unfold Sys.count at h
  split at h
  · next hor => omega
  · exact absurd h (Nat.ne_of_gt (Nat.lt_of_lt_of_le Nat.one_pos (Nat.le_max_left ..)))

/-- A read of `k` bytes to the address `p` -/
structure Reads (sys : Sys) (ch : Channel) (p n k : Int) (ch' : Channel) : Prop where
  offset : ch'.offset = ch.offset
  curr : ch'.curr = ch.curr
  max : ch'.max = ch.max
  fd : (ch'.fd : Int) = ch.fd + k
  nonneg : 0 ≤ k
  le : k ≤ n
  eof : k = 0 → sys.file.length ≤ ch.fd
  new : ∀ j, p ≤ j → j < p + k → sys.file[(ch.fd + (j - p)).toNat]? = some (ch'.buff j)
  old : ∀ j, j < p ∨ p + k ≤ j → ch'.buff j = ch.buff j

theorem readFd_spec (hn : 0 < n) (h : readFd sys ch p n = (k, ch')) :
    Reads sys ch p n k ch' := by
  obtain ⟨rfl, rfl⟩ := Prod.mk.inj h
  refine ⟨rfl, rfl, rfl, by dsimp only; omega, by omega, count_le sys ch (by omega),
    fun h0 => count_eq_zero sys ch hn (by omega), fun j hj hlt => ?_, fun j hj => ?_⟩
  · have hleft := count_left sys ch n
    have hlen : ch.fd + (j - p).toNat < sys.file.length := by omega
    have hidx : (ch.fd + (j - p)).toNat = ch.fd + (j - p).toNat := by omega
    dsimp only
    rw [if_pos ⟨hj, hlt⟩, hidx, List.getD_eq_getElem?_getD, List.getElem?_eq_getElem hlen,
      Option.getD_some]
  · dsimp only
    rw [if_neg (by omega)]

end Read

/-- A read that gives nothing changes nothing. -/
theorem Reads.at_of_zero {p : Int} {pos : Nat} (hr : Reads sys ch p n 0 ch') (h : At sys ch pos) :
    At sys ch' pos := by
  have hbuff : ∀ j, ch'.buff j = ch.buff j := fun j => hr.old j (by omega)
  have hfd := hr.fd
  refine ⟨⟨?_, ?_, ?_, ?_, ?_, fun j hj hlt => ?_⟩, ?_⟩
  · exact hr.curr ▸ h.curr_nonneg
  · exact hr.curr ▸ hr.max ▸ h.curr_le
  · exact hr.max ▸ h.max_le
  · rw [hfd, hr.offset, h.fd, Int.add_zero]
  · exact hr.max ▸ hr.offset ▸ h.start
  · rw [hr.max] at hlt
    rw [hbuff, hr.offset, hr.max, h.content j hj hlt]
  · rw [hr.offset, hr.max, hr.curr, h.at_pos]

/-- The buffer after it has been filled from its start -/
theorem Reads.valid {k curr : Int} (hr : Reads sys ch 0 n k ch') (h : Valid sys ch)
    (hn : n ≤ sys.bufferEnd) (hcurr : 0 ≤ curr) (hle : curr ≤ k) :
    Valid sys { ch' with offset := ch'.offset + k, max := k, curr } := by
  have hfd := h.fd
  have hle' := hr.le
  have hfd' := hr.fd
  have hoffset := hr.offset
  refine ⟨hcurr, hle, by dsimp only; omega, by dsimp only; omega, by dsimp only; omega,
    fun j hj hlt => ?_⟩
  dsimp only at hlt ⊢
  rw [← hr.new j hj (by omega)]
  congr 1
  omega

theorem bufferEnd_pos (sys : Sys) : 0 < sys.bufferEnd := by
  have := sys.ioBufferSize_pos
  unfold Sys.bufferEnd
  omega

/-! ## Characters and blocks -/

section Ops

variable {pos fuel : Nat} {len ofs : Int} {bs s a s' : List Byte} {r : Except Exn Unit}
  {accu : List (List Byte)}

theorem getch_spec {r : Except Exn Byte} (h : At sys ch pos) (hrun : getch sys ch = (r, ch')) :
    ∃ pos', At sys ch' pos' ∧ Stream sys.file pos .inputChar (.char r) pos' := by
  have hat := h.at_pos
  have hle := h.curr_le
  have hnonneg := h.curr_nonneg
  have hfd := h.fd
  unfold getch at hrun
  split at hrun
  · next hempty =>
    unfold refill at hrun
    obtain ⟨k, ch1, hread⟩ : ∃ k ch1, readFd sys ch 0 sys.bufferEnd = (k, ch1) := ⟨_, _, rfl⟩
    rw [hread] at hrun
    dsimp only at hrun
    have hr := readFd_spec (bufferEnd_pos sys) hread
    split at hrun
    · next hzero =>
      obtain ⟨rfl, rfl⟩ := Prod.mk.inj hrun
      subst hzero
      have hend := hr.eof rfl
      exact ⟨pos, hr.at_of_zero h, .inputCharEof (by omega)⟩
    · next hpos =>
      obtain ⟨rfl, rfl⟩ := Prod.mk.inj hrun
      have := hr.nonneg
      refine ⟨pos + 1, ⟨hr.valid h.toValid (Int.le_refl _) (by omega) (by omega), ?_⟩,
        .inputChar ?_⟩
      · have := hr.offset
        dsimp only
        omega
      · rw [← hr.new 0 (Int.le_refl _) (by omega)]
        congr 1
        omega
  · next hmore =>
    obtain ⟨rfl, rfl⟩ := Prod.mk.inj hrun
    refine ⟨pos + 1, ⟨⟨by dsimp only; omega, by dsimp only; omega, h.max_le, hfd, h.start,
      h.content⟩, by dsimp only; omega⟩, .inputChar ?_⟩
    rw [← h.content ch.curr hnonneg (by omega)]
    congr 1
    omega

/-- A block of bytes: those at the position, some if there are any -/
structure Block (file : List Byte) (pos : Nat) (len : Int) (bs : List Byte) : Prop where
  eq : bs = slice file pos bs.length
  le : (bs.length : Int) ≤ len
  left : pos + bs.length ≤ file.length ∨ bs.length = 0
  zero : bs.length = 0 → len = 0 ∨ file.length ≤ pos

theorem slice_length_le (file : List Byte) (pos n : Nat) :
    pos + (slice file pos n).length ≤ file.length ∨ (slice file pos n).length = 0 := by
  unfold slice
  rw [length_take, length_drop]
  omega

/-- The unread bytes of the buffer -/
theorem At.block (h : At sys ch pos) (n len : Int) (hn : 0 ≤ n) (hle : n ≤ ch.max - ch.curr)
    (hlen : n ≤ len) (hzero : n = 0 → len = 0 ∨ sys.file.length ≤ pos) :
    Block sys.file pos len (ch.bytes ch.curr n) ∧
      At sys { ch with curr := ch.curr + n } (pos + (ch.bytes ch.curr n).length) := by
  have hat := h.at_pos
  have hnonneg := h.curr_nonneg
  have hbytes := h.bytes_eq (n := n) hnonneg (by omega)
  have hpos : (ch.offset - ch.max + ch.curr).toNat = pos := by omega
  rw [hpos] at hbytes
  have hlength := ch.length_bytes ch.curr n
  have hleft := slice_length_le sys.file pos n.toNat
  rw [← hbytes, hlength] at hleft
  refine ⟨⟨by rw [hlength, ← hbytes], by omega, by omega, fun h0 => hzero (by omega)⟩,
    ⟨⟨by dsimp only; omega, by dsimp only; omega, h.max_le, h.fd, h.start, h.content⟩,
      by dsimp only; omega⟩⟩

theorem getblock_spec (h : At sys ch pos) (hlen : 0 ≤ len)
    (hrun : getblock sys ch len = (bs, ch')) :
    Block sys.file pos len bs ∧ At sys ch' (pos + bs.length) ∧
      (len ≤ ch.max - ch.curr → len < intMax → bs.length = len) := by
  have hat := h.at_pos
  have hle := h.curr_le
  have hfd := h.fd
  unfold getblock at hrun
  dsimp only at hrun
  generalize hn : (if len ≥ intMax then intMax else len) = n at hrun
  have hmax : 0 < intMax := by decide
  have hnlen : 0 ≤ n ∧ n ≤ len ∧ (n = 0 → len = 0) ∧ (len < intMax → n = len) := by
    rw [← hn]
    split <;> omega
  split at hrun
  · next hall =>
    obtain ⟨rfl, rfl⟩ := Prod.mk.inj hrun
    obtain ⟨hblock, hat'⟩ := h.block n len hnlen.1 hall hnlen.2.1 fun h0 => .inl (hnlen.2.2.1 h0)
    refine ⟨hblock, hat', fun _ hlt => ?_⟩
    rw [ch.length_bytes]
    omega
  · next hnot =>
    split at hrun
    · next hsome =>
      obtain ⟨rfl, rfl⟩ := Prod.mk.inj hrun
      obtain ⟨hblock, hat'⟩ := h.block (ch.max - ch.curr) len (by omega) (by omega)
        (by omega) (by omega)
      exact ⟨hblock, hat', fun hle => by omega⟩
    · next hnone =>
      obtain ⟨k, ch1, hread⟩ : ∃ k ch1, readFd sys ch 0 sys.bufferEnd = (k, ch1) := ⟨_, _, rfl⟩
      rw [hread] at hrun
      have hr := readFd_spec (bufferEnd_pos sys) hread
      have hk := hr.nonneg
      have hoffset := hr.offset
      generalize hm : (if n > k then k else n) = m at hrun
      have hmk : 0 ≤ m ∧ m ≤ k ∧ m ≤ n ∧ (m = 0 → k = 0 ∨ n = 0) := by
        rw [← hm]
        split <;> omega
      obtain ⟨rfl, rfl⟩ := Prod.mk.inj hrun
      have hat1 : At sys { ch1 with offset := ch1.offset + k, max := k, curr := 0 } pos :=
        ⟨hr.valid h.toValid (Int.le_refl _) (Int.le_refl _) hk, by dsimp only; omega⟩
      obtain ⟨hblock, hat'⟩ := hat1.block m len hmk.1 (by dsimp only; omega)
        (by omega) fun h0 => (hmk.2.2.2 h0).elim
          (fun hk0 => .inr (by have := hr.eof hk0; omega)) fun hn0 => .inl (hnlen.2.2.1 hn0)
      rw [Int.zero_add] at hat'
      exact ⟨hblock, hat', fun hle => by omega⟩

/-! ## `input` and `really_input` -/

theorem slice_append (file : List Byte) (pos a b : Nat) :
    slice file pos a ++ slice file (pos + a) b = slice file pos (a + b) := by
  unfold slice
  rw [take_add, drop_drop]

theorem slice_append_drop (file : List Byte) (pos a : Nat) :
    slice file pos a ++ file.drop (pos + a) = file.drop pos := by
  unfold slice
  rw [← drop_drop, take_append_drop]

theorem blit_blit {a b : List Byte} {ofs : Nat} (h : ofs ≤ s.length) :
    blit (blit s ofs a) (ofs + a.length) b = blit s ofs (a ++ b) := by
  have htake : (s.take ofs).length = ofs := length_take_of_le h
  have hhead : (s.take ofs ++ a).length = ofs + a.length := by rw [length_append, htake]
  have hidx : ofs + a.length + (ofs + a.length + b.length - (ofs + a.length)) =
      ofs + (a.length + b.length) := by omega
  unfold blit
  rw [List.take_left' hhead, drop_append, hhead, drop_eq_nil_of_le (by omega),
    nil_append, drop_drop, hidx, length_append]
  simp only [append_assoc]

theorem length_blit {ofs : Nat} (h : ofs + a.length ≤ s.length) :
    (blit s ofs a).length = s.length := by
  unfold blit
  rw [length_append, length_append, length_take, length_drop]
  omega

theorem input_spec {r : Except Exn Int} (h : At sys ch pos)
    (hrun : input sys ch s ofs len = ((r, s'), ch')) :
    ∃ pos', At sys ch' pos' ∧ Stream sys.file pos (.input s ofs len) (.input r s') pos' := by
  unfold input at hrun
  split at hrun
  · next hbad =>
    cases hrun
    exact ⟨pos, h, .inputInvalid hbad⟩
  · next hok =>
    unfold unsafeInput at hrun
    obtain ⟨bs, ch1, hblock⟩ : ∃ bs ch1, getblock sys ch len = (bs, ch1) := ⟨_, _, rfl⟩
    rw [hblock] at hrun
    cases hrun
    have hlen : 0 ≤ len := by
      unfold outOfBytes at hok
      omega
    obtain ⟨hb, hat, -⟩ := getblock_spec h hlen hblock
    refine ⟨_, hat, ?_⟩
    have hstream := Stream.input hok hb.le hb.left hb.zero
    rwa [← hb.eq] at hstream

/-- The loop of `really_input`, by induction on the number of bytes that are asked for -/
theorem unsafeReallyInput_spec (h : At sys ch pos) (hofs : 0 ≤ ofs) (hlen : 0 ≤ len)
    (hle : ofs + len ≤ s.length) (hfuel : len.toNat ≤ fuel)
    (hrun : unsafeReallyInput sys fuel ch s ofs len = ((r, s'), ch')) :
    ((pos + len ≤ sys.file.length ∨ len = 0) ∧ r = .ok () ∧
      s' = blit s ofs.toNat (slice sys.file pos len.toNat) ∧ At sys ch' (pos + len.toNat)) ∨
    (sys.file.length < pos + len ∧ len ≠ 0 ∧ r = .error .endOfFile ∧
      s' = blit s ofs.toNat (sys.file.drop pos) ∧ At sys ch' (pos + (sys.file.length - pos))) := by
  induction fuel generalizing ch pos s ofs len with
  | zero =>
    obtain rfl : len = 0 := by omega
    cases hrun
    refine .inl ⟨.inr rfl, rfl, ?_, h⟩
    simp [slice, blit]
  | succ fuel ih =>
    unfold unsafeReallyInput at hrun
    split at hrun
    · next hzero =>
      obtain rfl : len = 0 := by omega
      cases hrun
      refine .inl ⟨.inr rfl, rfl, ?_, h⟩
      simp [slice, blit]
    · next hpos =>
      unfold unsafeInput at hrun
      obtain ⟨bs, ch1, hblock⟩ : ∃ bs ch1, getblock sys ch len = (bs, ch1) := ⟨_, _, rfl⟩
      rw [hblock] at hrun
      dsimp only at hrun
      obtain ⟨hb, hat, -⟩ := getblock_spec h hlen hblock
      have hbs := hb.le
      split at hrun
      · next hnone =>
        have hend := (hb.zero (by omega)).resolve_left (by omega)
        have hnil : bs = [] := eq_nil_of_length_eq_zero (by omega)
        subst hnil
        cases hrun
        refine .inr ⟨by omega, by omega, rfl, ?_, ?_⟩
        · rw [drop_eq_nil_of_le hend]
        · rw [Nat.sub_eq_zero_of_le hend]
          exact hat
      · next hsome =>
        have hofs' : (ofs + bs.length).toNat = ofs.toNat + bs.length := by omega
        have hleft := hb.left
        have hs : (blit s ofs.toNat bs).length = s.length := length_blit (by omega)
        rcases ih hat (by omega) (by omega) (by omega) (by omega) hrun with
          ⟨hl, hr, hs', hat'⟩ | ⟨hl, hne, hr, hs', hat'⟩
        · refine .inl ⟨.inl (by omega), hr, ?_, ?_⟩
          · rw [hs', hofs', blit_blit (by omega)]
            nth_rewrite 1 [hb.eq]
            rw [slice_append]
            congr 2
            omega
          · have heq : pos + bs.length + (len - bs.length).toNat = pos + len.toNat := by omega
            rwa [heq] at hat'
        · refine .inr ⟨by omega, by omega, hr, ?_, ?_⟩
          · rw [hs', hofs', blit_blit (by omega)]
            nth_rewrite 1 [hb.eq]
            rw [slice_append_drop]
          · have heq : pos + bs.length + (sys.file.length - (pos + bs.length)) =
                pos + (sys.file.length - pos) := by omega
            rwa [heq] at hat'

theorem reallyInput_spec (h : At sys ch pos)
    (hrun : reallyInput sys ch s ofs len = ((r, s'), ch')) :
    ∃ pos', At sys ch' pos' ∧
      Stream sys.file pos (.reallyInput s ofs len) (.reallyInput r s') pos' := by
  unfold reallyInput at hrun
  split at hrun
  · next hbad =>
    cases hrun
    exact ⟨pos, h, .reallyInputInvalid hbad⟩
  · next hok =>
    have hargs : 0 ≤ ofs ∧ 0 ≤ len ∧ ofs + len ≤ s.length := by
      unfold outOfBytes at hok
      omega
    rcases unsafeReallyInput_spec h hargs.1 hargs.2.1 hargs.2.2 (Nat.le_refl _) hrun with
      ⟨hleft, rfl, rfl, hat⟩ | ⟨hleft, hne, rfl, rfl, hat⟩
    · exact ⟨_, hat, .reallyInput hok hleft⟩
    · exact ⟨_, hat, .reallyInputEof hok hleft hne⟩

/-! ## Seeks -/

theorem seekIn_spec {dest : Int} (h : At sys ch pos) (hrun : seekIn ch dest = (r, ch')) :
    ∃ pos', At sys ch' pos' ∧ Stream sys.file pos (.seekIn dest) (.seek r) pos' := by
  have hstart := h.start
  have hend := bufferEnd_pos sys
  unfold seekIn at hrun
  split at hrun
  · next hin =>
    cases hrun
    exact ⟨dest.toNat, ⟨⟨by dsimp only; omega, by dsimp only; omega, h.max_le, h.fd, hstart,
      h.content⟩, by dsimp only; omega⟩, .seekIn (by omega)⟩
  · split at hrun
    · next hneg =>
      cases hrun
      exact ⟨pos, h, .seekInError hneg⟩
    · next hpos =>
      cases hrun
      exact ⟨dest.toNat, ⟨⟨Int.le_refl 0, Int.le_refl 0, by dsimp only; omega, by dsimp only; omega,
        by dsimp only; omega, fun j hj hlt => absurd hlt (Int.not_lt.mpr hj)⟩,
        by dsimp only; omega⟩, .seekIn (by omega)⟩

/-! ## The line scanner -/

theorem makeRoom_spec (h : At sys ch pos) :
    At sys (makeRoom ch) pos ∧ (makeRoom ch).curr = 0 ∧ (makeRoom ch).max = ch.max - ch.curr := by
  have hat := h.at_pos
  have hle := h.curr_le
  have hmax := h.max_le
  unfold makeRoom
  split
  · next hpos =>
    refine ⟨⟨⟨Int.le_refl 0, by dsimp only; omega, by dsimp only; omega, h.fd, by dsimp only; omega,
      fun j hj hlt => ?_⟩, by dsimp only; omega⟩, rfl, rfl⟩
    dsimp only at hlt ⊢
    rw [if_pos ⟨hj, hlt⟩, ← h.content (ch.curr + j) (by omega) (by omega)]
    congr 1
    omega
  · next hzero =>
    have hnonneg := h.curr_nonneg
    exact ⟨h, by omega, by omega⟩

/-- The buffer is full, or the file has ended, or there are more bytes. -/
theorem fillMore_spec {o : Option Int} (h : At sys ch pos) (hrun : fillMore sys ch = (o, ch')) :
    At sys ch' pos ∧ ch'.curr = 0 ∧
      ((o = some (-ch'.max) ∧ ch'.max = ch.max - ch.curr ∧
          (sys.bufferEnd ≤ ch'.max ∨ sys.file.length ≤ pos + ch'.max)) ∨
        (o = none ∧ ch.max - ch.curr < ch'.max)) := by
  obtain ⟨h1, hcurr, hmax⟩ := makeRoom_spec h
  unfold fillMore at hrun
  generalize makeRoom ch = ch1 at h1 hcurr hmax hrun
  have hat := h1.at_pos
  have hfd := h1.fd
  dsimp only at hrun
  split at hrun
  · next hfull =>
    cases hrun
    exact ⟨h1, hcurr, .inl ⟨by rw [hcurr, Int.sub_zero], hmax, .inl hfull⟩⟩
  · next hroom =>
    obtain ⟨k, ch2, hread⟩ : ∃ k ch2, readFd sys ch1 ch1.max (sys.bufferEnd - ch1.max) = (k, ch2) :=
      ⟨_, _, rfl⟩
    have hr := readFd_spec (by omega) hread
    have hoffset := hr.offset
    have hmax2 := hr.max
    have hcurr2 := hr.curr
    have hk := hr.nonneg
    have hkle := hr.le
    have hfd2 := hr.fd
    have hle := h1.curr_le
    rw [hread] at hrun
    dsimp only at hrun
    split at hrun
    · next hzero =>
      subst hzero
      cases hrun
      refine ⟨hr.at_of_zero h1, by omega, .inl ⟨by rw [hcurr2, hcurr, Int.sub_zero], by omega,
        .inr ?_⟩⟩
      have := hr.eof rfl
      omega
    · next hmore =>
      cases hrun
      refine ⟨⟨⟨by dsimp only; omega, by dsimp only; omega, by dsimp only; omega,
        by dsimp only; omega, by dsimp only; omega, fun j hj hlt => ?_⟩, by dsimp only; omega⟩,
        by dsimp only; omega, .inr ⟨rfl, by dsimp only; omega⟩⟩
      dsimp only at hlt ⊢
      by_cases hold : j < ch1.max
      · rw [hr.old j (.inl hold), ← h1.content j hj hold]
        congr 1
        omega
      · rw [← hr.new j (by omega) (by omega)]
        congr 1
        omega

/-- What `caml_input_scan_line` finds at the position `pos`: a line that ends after `r` bytes, or
`-r` bytes without a newline. All of them are in the buffer. -/
def Scanned (file : List Byte) (pos : Nat) (avail r : Int) : Prop :=
  (0 < r ∧ r ≤ avail ∧ newline ∉ slice file pos (r - 1).toNat ∧
    file[pos + (r - 1).toNat]? = some newline) ∨
  (r ≤ 0 ∧ -r = avail ∧ newline ∉ slice file pos (-r).toNat ∧ (r = 0 → file.length ≤ pos))

theorem slice_succ {file : List Byte} {pos n : Nat} {b : Byte} (h : file[pos + n]? = some b) :
    slice file pos (n + 1) = slice file pos n ++ [b] := by
  unfold slice
  rw [take_add_one, List.getElem?_drop, h]
  rfl

/-- The byte that the scanner looks at -/
theorem At.look {p : Int} (h : At sys ch pos) (hp : ch.curr ≤ p) (hlt : p < ch.max) :
    sys.file[pos + (p - ch.curr).toNat]? = some (ch.buff p) := by
  have hat := h.at_pos
  have hnonneg := h.curr_nonneg
  rw [← h.content p (by omega) hlt]
  congr 1
  omega

/-- The loop of the line scanner: the bytes from `curr` to `p` are no newlines. -/
theorem scanLoop_spec {p r : Int} (h : At sys ch pos) (hp : ch.curr ≤ p) (hle : p ≤ ch.max)
    (hnone : newline ∉ slice sys.file pos (p - ch.curr).toNat)
    (hfuel : sys.bufferEnd - (p - ch.curr) < fuel) (hrun : scanLoop sys fuel ch p = (r, ch')) :
    At sys ch' pos ∧ Scanned sys.file pos (ch'.max - ch'.curr) r := by
  induction fuel generalizing ch p with
  | zero =>
    have := h.max_le
    have := h.curr_nonneg
    omega
  | succ fuel ih =>
    -- a byte that is in the buffer
    have hlook : ∀ {ch : Channel} {p : Int}, At sys ch pos → ch.curr ≤ p → p < ch.max →
        newline ∉ slice sys.file pos (p - ch.curr).toNat →
        sys.bufferEnd - (p + 1 - ch.curr) < fuel →
        (if ch.buff p ≠ newline then scanLoop sys fuel ch (p + 1) else (p + 1 - ch.curr, ch)) =
          (r, ch') →
        At sys ch' pos ∧ Scanned sys.file pos (ch'.max - ch'.curr) r := by
      intro ch p h hp hlt hnone hfuel hrun
      have hbyte := h.look hp hlt
      have hidx : (p + 1 - ch.curr).toNat = (p - ch.curr).toNat + 1 := by omega
      split at hrun
      · next hne =>
        refine ih h (by omega) (by omega) ?_ hfuel hrun
        rw [hidx, slice_succ hbyte]
        simp only [mem_append, mem_singleton, not_or]
        exact ⟨hnone, hne.symm⟩
      · next heq =>
        rw [Decidable.not_not] at heq
        rw [heq] at hbyte
        have hr : (p + 1 - ch.curr - 1).toNat = (p - ch.curr).toNat := by omega
        obtain ⟨hres, hch⟩ := Prod.mk.inj hrun
        subst hch hres
        exact ⟨h, .inl ⟨by omega, by omega, by rwa [hr], by rwa [hr]⟩⟩
    unfold scanLoop at hrun
    split at hrun
    · next hend =>
      obtain ⟨o, ch1, hmore⟩ : ∃ o ch1, fillMore sys ch = (o, ch1) := ⟨_, _, rfl⟩
      obtain ⟨h1, hcurr1, hcases⟩ := fillMore_spec h hmore
      rw [hmore] at hrun
      rcases hcases with ⟨rfl, hmax1, hwhy⟩ | ⟨rfl, hmax1⟩
      · obtain ⟨hres, hch⟩ := Prod.mk.inj hrun
        subst hch hres
        have hend := bufferEnd_pos sys
        have hidx : (-(-ch1.max)).toNat = (p - ch.curr).toNat := by omega
        refine ⟨h1, .inr ⟨by omega, by omega, by rwa [hidx], fun h0 => by omega⟩⟩
      · have hidx : (p - ch.curr - ch1.curr).toNat = (p - ch.curr).toNat := by omega
        exact hlook h1 (by omega) (by omega) (by rwa [hidx]) (by omega) hrun
    · next hmore => exact hlook h hp (by omega) hnone (by omega) hrun

theorem inputScanLine_spec {r : Int} (h : At sys ch pos) (hrun : inputScanLine sys ch = (r, ch')) :
    At sys ch' pos ∧ Scanned sys.file pos (ch'.max - ch'.curr) r := by
  refine scanLoop_spec h (Int.le_refl _) h.curr_le ?_ ?_ hrun
  · rw [Int.sub_self]
    simp [slice]
  · unfold Sys.bufferEnd
    omega

/-! ## `input_line` -/

section Line

variable {file : List Byte} {n : Nat}

theorem takeWhile_append_of_not_mem (h : newline ∉ a) (b : List Byte) :
    (a ++ b).takeWhile (· ≠ newline) = a ++ b.takeWhile (· ≠ newline) :=
  takeWhile_append_of_pos fun _ hx => decide_eq_true fun he => h (he ▸ hx)

/-- A part of a line that does not reach its end -/
theorem line_append (h : newline ∉ slice file pos n) (hn : (slice file pos n).length = n) :
    lineAt file pos = slice file pos n ++ lineAt file (pos + n) ∧
      lineEnd file pos = lineEnd file (pos + n) := by
  have hsplit := slice_append_drop file pos n
  have hline : lineAt file pos = slice file pos n ++ lineAt file (pos + n) := by
    unfold lineAt
    rw [← hsplit, takeWhile_append_of_not_mem h]
  refine ⟨hline, ?_⟩
  have hmem : newline ∈ file.drop pos ↔ newline ∈ file.drop (pos + n) := by
    rw [← hsplit, mem_append]
    exact or_iff_right h
  unfold lineEnd
  rw [hline, length_append, hn]
  simp only [hmem]
  omega

/-- The last part of a line -/
theorem line_found (h : newline ∉ slice file pos n) (hb : file[pos + n]? = some newline) :
    lineAt file pos = slice file pos n ∧ lineEnd file pos = pos + n + 1 := by
  have hlt : pos + n < file.length := (List.getElem?_eq_some_iff.mp hb).1
  have hdrop : file.drop (pos + n) = newline :: file.drop (pos + n + 1) := by
    rw [drop_eq_getElem_cons hlt]
    exact congrArg (· :: _) (List.getElem?_eq_some_iff.mp hb).2
  have hlen : (slice file pos n).length = n := by
    unfold slice
    rw [length_take, length_drop]
    omega
  obtain ⟨hline, hend⟩ := line_append h hlen
  have hlast : lineAt file (pos + n) = [] := by
    unfold lineAt
    rw [hdrop]
    simp
  refine ⟨by rw [hline, hlast, append_nil], ?_⟩
  rw [hend, lineEnd, hlast, hdrop]
  simp

theorem line_eof (h : file.length ≤ pos) : lineAt file pos = [] ∧ lineEnd file pos = pos := by
  have hdrop : file.drop pos = [] := drop_eq_nil_of_le h
  have hline : lineAt file pos = [] := by
    unfold lineAt
    rw [hdrop]
    rfl
  refine ⟨hline, ?_⟩
  rw [lineEnd, hline, hdrop]
  simp

end Line

theorem blit_create (h : bs.length = k.toNat) :
    blit (bytesCreate k) 0 bs = bs := by
  unfold blit bytesCreate
  rw [take_zero, nil_append, drop_eq_nil_of_le, append_nil]
  rw [length_replicate]
  omega

/-- The chunks of a line, the last one first, are put together. -/
theorem buildResult_spec : ∀ (accu : List (List Byte)) (buf : List Byte),
    accu.flatten.length ≤ buf.length →
    buildResult buf accu.flatten.length accu = accu.reverse.flatten ++ buf.drop accu.flatten.length
  | [], buf, _ => rfl
  | hd :: tl, buf, h => by
    have hsub : (((hd :: tl).flatten.length : Int) - hd.length) = tl.flatten.length := by
      rw [flatten_cons, length_append]
      omega
    rw [flatten_cons, length_append] at h
    rw [buildResult, hsub, Int.toNat_natCast, buildResult_spec tl _ (by rw [length_blit] <;> omega)]
    have htake : (buf.take tl.flatten.length).length = tl.flatten.length :=
      length_take_of_le (by omega)
    unfold blit
    rw [append_assoc (buf.take _), List.drop_left' htake, reverse_cons,
      flatten_append, flatten_cons, flatten_nil, append_nil,
      flatten_cons, length_append, Nat.add_comm hd.length, append_assoc]

theorem buildResult_create (h : len = accu.flatten.length) :
    buildResult (bytesCreate len) len accu = accu.reverse.flatten := by
  subst h
  have hlen : (bytesCreate accu.flatten.length).length = accu.flatten.length := by
    rw [bytesCreate, length_replicate, Int.toNat_natCast]
  rw [buildResult_spec accu _ (by omega), drop_eq_nil_of_le (by omega), append_nil]

/-- Bytes that are in the buffer -/
theorem unsafeInput_buffered {k m : Int} (h : At sys ch pos) (hk : 0 ≤ k)
    (hle : k ≤ ch.max - ch.curr) (hrun : unsafeInput sys ch (bytesCreate k) 0 k = ((m, s), ch')) :
    s = slice sys.file pos k.toNat ∧ s.length = k.toNat ∧ At sys ch' (pos + k.toNat) := by
  have hmax := h.max_le
  have hnonneg := h.curr_nonneg
  have hsize := sys.ioBufferSize_lt
  unfold Sys.bufferEnd at hmax
  unfold unsafeInput at hrun
  obtain ⟨bs, ch1, hblock⟩ : ∃ bs ch1, getblock sys ch k = (bs, ch1) := ⟨_, _, rfl⟩
  obtain ⟨hb, hat, hlen⟩ := getblock_spec h hk hblock
  have hlen' : bs.length = k.toNat := by omega
  rw [hblock] at hrun
  dsimp only at hrun
  rw [Int.toNat_zero, blit_create hlen'] at hrun
  cases hrun
  rw [hlen'] at hat
  exact ⟨hlen' ▸ hb.eq, hlen', hat⟩

/-- The loop of `input_line`: the chunks `accu` have been read. -/
theorem scan_spec {r : Except Exn (List Byte)} (h : At sys ch pos)
    (hlen : len = accu.flatten.length) (hfuel : sys.file.length - pos < fuel)
    (hrun : scan sys fuel ch accu len = (r, ch')) :
    (accu = [] ∧ sys.file.length ≤ pos ∧ r = .error .endOfFile ∧ At sys ch' pos) ∨
    (¬(accu = [] ∧ sys.file.length ≤ pos) ∧
      r = .ok (accu.reverse.flatten ++ lineAt sys.file pos) ∧
      At sys ch' (lineEnd sys.file pos)) := by
  induction fuel generalizing ch pos accu len with
  | zero => omega
  | succ fuel ih =>
    unfold scan at hrun
    obtain ⟨n, ch1, hscan⟩ : ∃ n ch1, inputScanLine sys ch = (n, ch1) := ⟨_, _, rfl⟩
    obtain ⟨h1, hfound⟩ := inputScanLine_spec h hscan
    rw [hscan] at hrun
    dsimp only at hrun
    split at hrun
    · next hzero =>
      -- the file has ended
      subst hzero
      have heof : sys.file.length ≤ pos := by
        rcases hfound with ⟨hpos, -⟩ | ⟨-, -, -, heof⟩
        · omega
        · exact heof rfl
      obtain ⟨hline, hend⟩ := line_eof heof
      split at hrun
      · cases hrun
        exact .inl ⟨rfl, heof, rfl, h1⟩
      · next hne =>
        cases hrun
        refine .inr ⟨fun hnil => hne hnil.1, ?_, hend.symm ▸ h1⟩
        rw [buildResult_create hlen, hline, append_nil]
    · split at hrun
      · next hpos =>
        -- a newline was found in the buffer
        obtain ⟨-, havail, hnone, hbyte⟩ := hfound.resolve_right fun hneg => by omega
        obtain ⟨hline, hend⟩ := line_found hnone hbyte
        obtain ⟨m, res, ch2, hinput⟩ : ∃ m res ch2,
            unsafeInput sys ch1 (bytesCreate (n - 1)) 0 (n - 1) = ((m, res), ch2) := ⟨_, _, _, rfl⟩
        obtain ⟨hres, hreslen, h2⟩ := unsafeInput_buffered h1 (by omega) (by omega) hinput
        obtain ⟨c, ch3, hchar⟩ : ∃ c ch3, inputChar sys ch2 = (c, ch3) := ⟨_, _, rfl⟩
        obtain ⟨pos3, h3, hstream⟩ := getch_spec h2 hchar
        have hlt : pos + (n - 1).toNat < sys.file.length :=
          (List.getElem?_eq_some_iff.mp hbyte).1
        rw [hinput] at hrun
        rw [hchar] at hrun
        cases hstream with
        | inputCharEof heof => omega
        | inputChar hc =>
          have hne : ¬(accu = [] ∧ sys.file.length ≤ pos) := fun hnil => by omega
          rw [hend, hline, ← hres]
          dsimp only at hrun
          split at hrun
          · cases hrun
            exact .inr ⟨hne, rfl, h3⟩
          · cases hrun
            refine .inr ⟨hne, ?_, h3⟩
            rw [buildResult_create, reverse_cons, flatten_append, flatten_cons,
              flatten_nil, append_nil]
            rw [flatten_cons, length_append]
            omega
      · next hneg =>
        -- a chunk without a newline
        obtain ⟨-, havail, hnone, -⟩ := hfound.resolve_left fun hpos => by omega
        obtain ⟨m, beg, ch2, hinput⟩ : ∃ m beg ch2,
            unsafeInput sys ch1 (bytesCreate (-n)) 0 (-n) = ((m, beg), ch2) := ⟨_, _, _, rfl⟩
        obtain ⟨hbeg, hbeglen, h2⟩ := unsafeInput_buffered h1 (by omega) (by omega) hinput
        obtain ⟨hline, hend⟩ := line_append hnone (hbeg ▸ hbeglen)
        have hleft := slice_length_le sys.file pos (-n).toNat
        rw [← hbeg, hbeglen] at hleft
        rw [hinput] at hrun
        have hlen' : len - n = (beg :: accu).flatten.length := by
          rw [flatten_cons, length_append]
          omega
        rcases ih h2 hlen' (by omega) hrun with ⟨hnil, -⟩ | ⟨-, hr, h'⟩
        · cases hnil
        · refine .inr ⟨fun hnil => by omega, ?_, hend ▸ h'⟩
          rw [hr, hline, ← hbeg, reverse_cons, flatten_append, flatten_cons,
            flatten_nil, append_nil, append_assoc]

theorem inputLine_spec {r : Except Exn (List Byte)} (h : At sys ch pos)
    (hrun : inputLine sys ch = (r, ch')) :
    ∃ pos', At sys ch' pos' ∧ Stream sys.file pos .inputLine (.line r) pos' := by
  rcases scan_spec h rfl (by omega) hrun with ⟨-, heof, rfl, h'⟩ | ⟨hmore, rfl, h'⟩
  · exact ⟨pos, h', .inputLineEof heof⟩
  · exact ⟨_, h', .inputLine (by simpa using hmore)⟩

/-- A line that is longer than the buffer, read byte by byte -/
example : (inputLine ⟨[97, 98, 99, 100, 101, 10, 102], fun _ => 1, 3, by decide, by decide⟩
    (openDescriptorIn 0)).1 = .ok [97, 98, 99, 100, 101] := rfl

/-! ## Sequences of operations -/

/-- **An operation on a channel does what it does on the byte stream.** -/
theorem exec_spec {op : Op} {r : Result} (h : At sys ch pos) (hrun : exec sys ch op = (r, ch')) :
    ∃ pos', At sys ch' pos' ∧ Stream sys.file pos op r pos' := by
  cases op with
  | inputChar =>
    cases hrun
    exact getch_spec h rfl
  | input s ofs len =>
    cases hrun
    exact input_spec h rfl
  | reallyInput s ofs len =>
    cases hrun
    exact reallyInput_spec h rfl
  | inputLine =>
    cases hrun
    exact inputLine_spec h rfl
  | seekIn dest =>
    cases hrun
    exact seekIn_spec h rfl
  | posIn =>
    cases hrun
    refine ⟨pos, h, ?_⟩
    rw [h.posIn_eq]
    exact .posIn

/-- A sequence of operations, from a channel at the position `pos` -/
theorem run_spec (ops : List Op) (h : At sys ch pos) :
    Stream.Run sys.file pos ops ((run sys ch ops).map fun x => (x.1, (posIn x.2).toNat)) ∧
      ∀ x ∈ run sys ch ops, ∃ pos', At sys x.2 pos' := by
  induction ops generalizing ch pos with
  | nil => exact ⟨.nil pos, nofun⟩
  | cons op ops ih =>
    obtain ⟨r, ch1, hexec⟩ : ∃ r ch1, exec sys ch op = (r, ch1) := ⟨_, _, rfl⟩
    obtain ⟨pos1, h1, hstream⟩ := exec_spec h hexec
    obtain ⟨hrun, hall⟩ := ih h1
    rw [run, hexec]
    have hpos : (posIn ch1).toNat = pos1 := by rw [h1.posIn_eq, Int.toNat_natCast]
    refine ⟨?_, fun x hx => ?_⟩
    · rw [map_cons, hpos]
      exact .cons hstream hrun
    · rcases mem_cons.mp hx with rfl | hx
      · exact ⟨pos1, h1⟩
      · exact hall x hx

end Ops

end TravLang.Io
