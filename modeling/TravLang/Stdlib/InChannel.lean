import TravLang.Lib.Result
import TravLang.Runtime.Mlvalues
import TravLang.Stdlib.Bytes

/-!
# `In_channel.input_all` (`stdlib/in_channel.ml`)

A read of a channel returns as many of the bytes that are left as the system likes, but at least
one. The buffer is filled up to its end, and while there may be more bytes it grows. A buffer of the
greatest length that is full is taken for one that is too small, although no byte may be left.
-/

namespace TravLang.InChannel

open List Result TravLang.Runtime

inductive Exn where
  | endOfFile
  | invalidArg (msg : String)
  | failure (msg : String)
  | outOfFuel
  deriving DecidableEq, Repr

/-- `Sys.max_string_length` -/
def maxStringLength (host : Host) : Nat := host.wordSize * host.maxWosize - 1

/-- The bytes that are left, and how many of them the next reads are willing to return -/
structure Channel where
  rest : Bytes
  short : Nat → Nat

/-! ## Bytes and reads -/

def create (host : Host) (n : Nat) : Except Exn Bytes :=
  if n ≤ maxStringLength host then .ok (replicate n 0) else .error (.invalidArg "Bytes.create")

def set (buf : Bytes) (i : Nat) (c : UInt8) : Except Exn Bytes :=
  if i < buf.length then .ok (List.set buf i c) else .error (.invalidArg "index out of bounds")

def orInvalidArg {α : Type} (msg : String) : Option α → Except Exn α
  | none => .error (.invalidArg msg)
  | some a => .ok a

/-- `Stdlib.input`: the number of bytes that are read, and the buffer and the channel after it -/
def input (ic : Channel) (buf : Bytes) (ofs len : Nat) : Except Exn (Nat × Bytes × Channel) :=
  if ofs + len ≤ buf.length then
    let n := min (max 1 (ic.short 0)) (min len ic.rest.length)
    .ok (n, buf.take ofs ++ (ic.rest.take n ++ buf.drop (ofs + n)),
      ⟨ic.rest.drop n, fun k => ic.short (k + 1)⟩)
  else .error (.invalidArg "input")

/-- `Stdlib.input_char` -/
def inputChar (ic : Channel) : Except Exn (UInt8 × Channel) :=
  match ic.rest with
  | [] => .error .endOfFile
  | c :: rest => .ok (c, { ic with rest })

/-- The function `loop` of `read_upto` -/
def readLoop (ic : Channel) (buf : Bytes) (ofs len : Nat) : Except Exn (Nat × Bytes × Channel) :=
  if _ : len = 0 then .ok (ofs, buf, ic)
  else do
    let (r, buf, ic) ← input ic buf ofs len
    if _ : r = 0 then return (ofs, buf, ic) else readLoop ic buf (ofs + r) (len - r)
termination_by len

def readUpto (ic : Channel) (buf : Bytes) (ofs len : Nat) : Except Exn (Nat × Bytes × Channel) := do
  let (n, buf, ic) ← readLoop ic buf ofs len
  return (n - ofs, buf, ic)

/-! ## The buffer -/

/-- The loop of `ensure` -/
def grow (target newLen : Nat) : Nat :=
  if newLen < target then grow target (2 * newLen + 1) else newLen
termination_by target - newLen

def tooLarge : Exn :=
  .failure "In_channel.input_all: channel content is larger than maximum string length"

/-- The length of the new buffer of `ensure` -/
def clip (host : Host) (ofs newLen : Nat) : Except Exn Nat :=
  if newLen ≤ maxStringLength host then .ok newLen
  else if ofs < maxStringLength host then .ok (maxStringLength host)
  else .error tooLarge

def ensure (host : Host) (buf : Bytes) (ofs n : Nat) : Except Exn Bytes :=
  if buf.length ≥ ofs + n then .ok buf
  else do
    let newLen ← clip host ofs (grow (ofs + n) buf.length)
    let newBuf ← create host newLen
    orInvalidArg "String.blit / Bytes.blit" (Bytes.blit buf 0 newBuf 0 ofs)

/-- `IO_BUFFER_SIZE` -/
def chunkSize : Nat := 65536

/-- The function `loop` of `input_all` -/
def loop (host : Host) : Nat → Channel → Bytes → Nat → Except Exn Bytes
  | 0, _, _, _ => .error .outOfFuel
  | fuel + 1, ic, buf, ofs => do
    let buf ← ensure host buf ofs chunkSize
    let rem := buf.length - ofs
    let (r, buf, ic) ← readUpto ic buf ofs rem
    if r < rem then orInvalidArg "String.sub / Bytes.sub" (Bytes.sub buf 0 (ofs + r))
    else loop host fuel ic buf (ofs + rem)

/-- The size of the first buffer, from `in_channel_length ic - pos_in ic` unless that raises
`Sys_error` -/
def initialSize (host : Host) (estimate : Option Int) : Nat :=
  let initialSize := estimate.getD (-1)
  let initialSize := if initialSize < 0 then chunkSize else initialSize.toNat
  if initialSize ≤ maxStringLength host then initialSize else maxStringLength host

def inputAll (host : Host) (fuel : Nat) (estimate : Option Int) (ic : Channel) :
    Except Exn Bytes := do
  let initialSize := initialSize host estimate
  let buf ← create host initialSize
  let (nread, buf, ic) ← readUpto ic buf 0 initialSize
  if nread < initialSize then orInvalidArg "String.sub / Bytes.sub" (Bytes.sub buf 0 nread)
  else
    match inputChar ic with
    | .error .endOfFile => return buf
    | .error e => throw e
    | .ok (c, ic) =>
      let buf ← ensure host buf nread (chunkSize + 1)
      let buf ← set buf nread c
      loop host fuel ic buf (nread + 1)

/-! ## What is read -/

/-- Reads that stay in the buffer fill it, up to the end of the channel. -/
theorem readLoop_spec (len : Nat) : ∀ (ic : Channel) (buf : Bytes) (ofs : Nat),
    ofs + len ≤ buf.length → ∃ buf' ic',
      readLoop ic buf ofs len = .ok (ofs + min len ic.rest.length, buf', ic') ∧
      buf'.length = buf.length ∧ ic'.rest = ic.rest.drop len ∧
      buf'.take (ofs + min len ic.rest.length) = buf.take ofs ++ ic.rest.take len := by
  induction len using Nat.strongRecOn with
  | ind len ih =>
    intro ic buf ofs hlen
    rw [readLoop]
    by_cases h0 : len = 0
    · subst h0
      exact ⟨buf, ic, by simp, rfl, rfl, by simp⟩
    · rw [dif_neg h0, input, if_pos hlen]
      generalize hn : min (max 1 (ic.short 0)) (min len ic.rest.length) = n
      dsimp only
      rw [ok_bind]
      by_cases hn0 : n = 0
      · -- nothing is left
        have hnil : ic.rest = [] := eq_nil_of_length_eq_zero (by omega)
        subst hn0
        exact ⟨buf, ⟨[], fun k => ic.short (k + 1)⟩, by simp [hnil], rfl, by simp [hnil],
          by simp [hnil]⟩
      · rw [dif_neg hn0]
        obtain ⟨buf', ic', hrun, hlen', hrest, htake⟩ := ih (len - n) (by omega)
          ⟨ic.rest.drop n, fun k => ic.short (k + 1)⟩
          (buf.take ofs ++ (ic.rest.take n ++ buf.drop (ofs + n))) (ofs + n) (by simp; omega)
        have hcount : ofs + n + min (len - n) (ic.rest.drop n).length =
            ofs + min len ic.rest.length := by rw [length_drop]; omega
        rw [hcount] at hrun htake
        refine ⟨buf', ic', hrun, by rw [hlen']; simp; omega, ?_, ?_⟩
        · rw [hrest, drop_drop, Nat.add_sub_cancel' (by omega)]
        · rw [htake, ← append_assoc, take_left' (by simp; omega), append_assoc, ← take_add,
            Nat.add_sub_cancel' (by omega)]

theorem readUpto_spec (ic : Channel) (buf : Bytes) (ofs len : Nat) (h : ofs + len ≤ buf.length) :
    ∃ buf' ic', readUpto ic buf ofs len = .ok (min len ic.rest.length, buf', ic') ∧
      buf'.length = buf.length ∧ ic'.rest = ic.rest.drop len ∧
      buf'.take (ofs + min len ic.rest.length) = buf.take ofs ++ ic.rest.take len := by
  obtain ⟨buf', ic', hrun, hspec⟩ := readLoop_spec len ic buf ofs h
  exact ⟨buf', ic', by simp [readUpto, hrun], hspec⟩

theorem le_grow (target newLen : Nat) : target ≤ grow target newLen := by
  fun_induction grow target newLen with
  | case1 newLen hlt ih => exact ih
  | case2 newLen hge => exact Nat.not_lt.mp hge

variable {host : Host} {buf : Bytes} {ofs n : Nat}

/-- The buffer gets room for another byte, unless it has the greatest length already. -/
theorem ensure_spec (hofs : ofs ≤ buf.length) (hmax : buf.length ≤ maxStringLength host)
    (hn : 0 < n) (hlt : ofs < maxStringLength host) :
    ∃ buf', ensure host buf ofs n = .ok buf' ∧ ofs < buf'.length ∧
      buf'.length ≤ maxStringLength host ∧ buf'.take ofs = buf.take ofs := by
  unfold ensure
  split
  · exact ⟨buf, rfl, by omega, hmax, rfl⟩
  · have hgrow := le_grow (ofs + n) buf.length
    obtain ⟨m, hm, hofsm, hmmax⟩ : ∃ m, clip host ofs (grow (ofs + n) buf.length) = .ok m ∧
        ofs < m ∧ m ≤ maxStringLength host := by
      unfold clip
      split
      · next hle => exact ⟨_, rfl, by omega, hle⟩
      · exact ⟨_, rfl, hlt, Nat.le_refl _⟩
    obtain ⟨buf', hblit, hlen, htake⟩ := Bytes.blit_spec buf (replicate m 0)
      (show 0 + ofs ≤ _ by omega) (show 0 + ofs ≤ _ by simp; omega)
    refine ⟨buf', ?_, by rw [hlen]; simpa using hofsm, by rw [hlen]; simpa using hmmax, ?_⟩
    · simp only [hm, ok_bind, create, if_pos hmmax, hblit]
      rfl
    · simpa using htake

theorem ensure_full (hn : 0 < n) (hofs : ofs = maxStringLength host) (hlen : buf.length = ofs) :
    ensure host buf ofs n = .error tooLarge := by
  have hgrow := le_grow (ofs + n) buf.length
  rw [ensure, if_neg (by omega), clip, if_neg (by omega), if_neg (by omega)]
  rfl

/-- **The loop returns what the buffer holds and what is left**, unless that fills a buffer of the
greatest length. -/
theorem loop_eq (fuel : Nat) : ∀ (ic : Channel) (buf : Bytes) (ofs : Nat), ofs ≤ buf.length →
    buf.length ≤ maxStringLength host → ic.rest.length < fuel →
    loop host fuel ic buf ofs = if ofs + ic.rest.length < maxStringLength host then
      .ok (buf.take ofs ++ ic.rest) else .error tooLarge := by
  induction fuel with
  | zero => exact fun _ _ _ _ _ h => absurd h (Nat.not_lt_zero _)
  | succ fuel ih =>
    intro ic buf ofs hofs hmax hfuel
    rw [loop]
    by_cases hlt : ofs < maxStringLength host
    · obtain ⟨buf₁, hensure, hofs₁, hmax₁, htake₁⟩ := ensure_spec (n := chunkSize) hofs hmax
        (by decide) hlt
      obtain ⟨buf₂, ic₂, hread, hlen₂, hrest₂, htake₂⟩ := readUpto_spec ic buf₁ ofs
        (buf₁.length - ofs) (by omega)
      simp only [hensure, hread, ok_bind]
      split
      · next hend =>
        -- the end of the channel is reached
        rw [if_pos (by omega), Bytes.sub_eq (by omega), drop_zero, htake₂, htake₁,
          take_of_length_le (l := ic.rest) (by omega)]
        rfl
      · next hmore =>
        have hcount : min (buf₁.length - ofs) ic.rest.length = buf₁.length - ofs := by omega
        rw [hcount] at htake₂
        rw [ih ic₂ buf₂ _ (by omega) (by omega) (by rw [hrest₂, length_drop]; omega), htake₂,
          htake₁,
          hrest₂, length_drop, append_assoc, take_append_drop]
        congr 2
        omega
    · rw [ensure_full (by decide) (by omega) (by omega), if_neg (by omega)]
      rfl

theorem initialSize_le (host : Host) (estimate : Option Int) :
    initialSize host estimate ≤ maxStringLength host := by
  unfold initialSize
  dsimp only
  generalize (if estimate.getD (-1) < 0 then chunkSize else _) = size
  split <;> omega

theorem inputAll_eq {fuel : Nat} (estimate : Option Int) (ic : Channel)
    (hfuel : ic.rest.length ≤ fuel) :
    inputAll host fuel estimate ic =
      if ic.rest.length < maxStringLength host ∨ ic.rest.length ≤ initialSize host estimate then
        .ok ic.rest else .error tooLarge := by
  have hsize := initialSize_le host estimate
  unfold inputAll
  generalize initialSize host estimate = size at hsize
  obtain ⟨buf, ic', hread, hlen, hrest, htake⟩ := readUpto_spec ic (replicate size 0) 0 size
    (by simp)
  rw [length_replicate] at hlen
  rw [Nat.zero_add, take_zero, nil_append] at htake
  simp only [create, if_pos hsize, ok_bind, hread]
  split
  · next hend =>
    rw [if_pos (by omega), Bytes.sub_eq (by omega), drop_zero, htake, take_of_length_le (by omega)]
    rfl
  · next hmore =>
    rw [Nat.min_eq_left (by omega)] at htake ⊢
    rw [take_of_length_le (by omega)] at htake
    unfold inputChar
    cases hc : ic'.rest with
    | nil =>
      -- the buffer is filled completely
      have hall : ic.rest.length ≤ size := drop_eq_nil_iff.mp (hrest.symm.trans hc)
      rw [if_pos (.inr hall), htake, take_of_length_le hall]
      rfl
    | cons c rest =>
      have hcount : ic.rest.length = size + (rest.length + 1) := by
        have := congrArg length (hrest.symm.trans hc)
        rw [length_drop, length_cons] at this
        omega
      by_cases hlt : size < maxStringLength host
      · obtain ⟨buf₁, hensure, hofs₁, hmax₁, htake₁⟩ := ensure_spec (n := chunkSize + 1)
          (show size ≤ buf.length by omega) (by omega) (by decide) hlt
        have hall : (List.set buf₁ size c).take (size + 1) ++ rest = ic.rest := by
          rw [take_add_one, take_set_of_le (Nat.le_refl _), htake₁, htake, take_take, Nat.min_self,
            getElem?_set_self hofs₁, append_assoc]
          have hsplit := take_append_drop size ic.rest
          rwa [← hrest, hc] at hsplit
        simp only [hensure, set, if_pos hofs₁, ok_bind]
        rw [loop_eq fuel _ _ _ (by rw [length_set]; exact hofs₁) (by rwa [length_set])
          (by dsimp only; omega), hall]
        rw [show size + 1 + rest.length = ic.rest.length by omega]
        congr 1
        simp only [eq_iff_iff]
        omega
      · rw [ensure_full (by decide) (by omega) (by omega), if_neg (by omega)]
        rfl

/-- **`input_all` returns all bytes that are left**, for all reads and all estimates of the size,
exactly if they are fewer than the greatest length of a string, or the first buffer has room for
them. -/
theorem input_all_exact {fuel : Nat} (estimate : Option Int) (ic : Channel)
    (hfuel : ic.rest.length ≤ fuel) :
    inputAll host fuel estimate ic = .ok ic.rest ↔
      ic.rest.length < maxStringLength host ∨ ic.rest.length ≤ initialSize host estimate := by
  rw [inputAll_eq estimate ic hfuel]
  split <;> simp [*]

theorem input_all_exact_two :
    inputAll ⟨true, false⟩ 2 (some 1) ⟨[7, 8], fun _ => 1⟩ = .ok [7, 8] :=
  (input_all_exact (some 1) _ (by decide)).mpr (.inl (by decide))

/-- A channel of unknown length that has a string of the greatest length, on 32 bits -/
theorem input_all_full :
    inputAll ⟨false, false⟩ 16777211 none ⟨replicate 16777211 0, id⟩ = .error tooLarge := by
  have hlen : (replicate 16777211 (0 : UInt8)).length = 16777211 := length_replicate
  rw [inputAll_eq none _ (Nat.le_of_eq hlen), if_neg]
  rw [hlen]
  decide

end TravLang.InChannel
