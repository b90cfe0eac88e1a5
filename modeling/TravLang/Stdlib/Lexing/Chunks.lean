import TravLang.Stdlib.Lexing.Scan

/-!
# Lexing does not depend on how the input arrives

A lexer that reads from a function is simulated by the lexer of a string: the buffer holds a part of
the rest of the input, and the reader still delivers what comes after it.

A suspended automaton has already recorded the backtrack point of its state, and does so again when
it is resumed. This goes unnoticed if the code that is run there is idempotent.
-/

namespace TravLang.Lexing

open Machine List

/-! ## The buffer and the rest of the input -/

/-- The buffer, which is valid up to `len`, holds the input from the position `pos` on, up to what
the reader still delivers. -/
structure Holds (buffer : Bytes) (len : Nat) (eof : Bool) (rd : Reader) (pos : Nat)
    (input : Bytes) : Prop where
  len_le : len ≤ buffer.length
  pos_le : pos ≤ len
  data : (buffer.take len).drop pos ++ rd.contents = input
  empty : eof = true → rd = []
  size : 512 ≤ buffer.length

section Holds

variable {buffer : Bytes} {len : Nat} {eof : Bool} {rd : Reader} {pos : Nat} {input : Bytes}
  (h : Holds buffer len eof rd pos input) {k : Nat}

include h

theorem Holds.length_data : ((buffer.take len).drop pos).length = len - pos := by
  have := h.len_le
  simp
  omega

theorem Holds.length_input : input.length = len - pos + rd.contents.length := by
  rw [← h.data, length_append, h.length_data]

theorem Holds.getElem? (hk : pos + k < len) : buffer[pos + k]? = input[k]? := by
  have hlen := h.length_data
  rw [← h.data, List.getElem?_append_left (by omega), List.getElem?_drop, List.getElem?_take,
    if_pos hk]

/-- The rest of the input after a token. -/
theorem Holds.drop (hk : pos + k ≤ len) :
    Holds buffer len eof rd (pos + k) (input.drop k) := by
  have hlen := h.length_data
  refine ⟨h.len_le, hk, ?_, h.empty, h.size⟩
  rw [← h.data, drop_append_of_le_length (by omega), drop_drop]

theorem Holds.take (hk : pos + k ≤ len) : (buffer.drop pos).take k = input.take k := by
  have hlen := h.length_data
  rw [← h.data, take_append_of_le_length (by omega), drop_take, take_take,
    Nat.min_eq_left (by omega)]

end Holds

/-- The buffer in the middle of a token. -/
structure Tracks (e : Entry) (buf : Lexbuf) (rd : Reader) (place : Place) (s : Scan) : Prop where
  holds : Holds buf.lexBuffer buf.lexBufferLen buf.lexEofReached rd buf.lexStartPos place.input
  offset_eq : buf.lexAbsPos + buf.lexStartPos = place.offset
  pos_eq : (buf.lexStartP, buf.lexCurrP) = place.pos
  curr_eq : buf.lexCurrPos = buf.lexStartPos + s.curr
  curr_le : buf.lexCurrPos ≤ buf.lexBufferLen
  last_eq : buf.lexLastPos = buf.lexStartPos + s.last
  last_le : s.last ≤ s.curr
  action_eq : buf.lexLastAction = s.lastAction
  action_ok : s.lastAction = -1 ∨ 0 ≤ s.lastAction
  cells : CellsRel e buf.lexStartPos buf.lexMem s.mem

/-! ## One round of the automaton -/

/-- What the automaton can still do without a refill. -/
def fuelLeft (buf : Lexbuf) : Nat :=
  buf.lexBufferLen - buf.lexCurrPos + if buf.lexEofReached then 1 else 0

section Round

variable (tbl : LexTables) {e : Entry} {buf : Lexbuf} {rd : Reader} {place : Place} {s : Scan}

theorem record_rel (h : Tracks e buf rd place s) :
    Result.Rel (fun buf' s' => Tracks e buf' rd place s' ∧ s'.state = s.state ∧
        fuelLeft buf' = fuelLeft buf)
      (recordBacktrack tbl (e.code tbl) s.state buf) (s.record tbl (e.code tbl)) := by
  refine Result.Rel.bind_same fun backtrk _ => ?_
  split
  · next hb =>
    refine (perform_backtrack_rel tbl h.cells s.state).2.bind fun mem mem' hmem => ?_
    exact ⟨{ h with
      last_eq := h.curr_eq, last_le := Nat.le_refl _, action_eq := rfl, action_ok := .inr hb,
      cells := hmem }, rfl, rfl⟩
  · exact ⟨h, rfl, rfl⟩

/-- After the end of the file, the condition is erased. -/
def eraseEof (c : Nat) (buf : Lexbuf) : Lexbuf :=
  { buf with lexEofReached := if c = 256 then false else buf.lexEofReached }

theorem Tracks.eraseEof (h : Tracks e buf rd place s) (c : Nat) :
    Tracks e (eraseEof c buf) rd place s := by
  refine { h with holds := { h.holds with empty := fun heof => h.holds.empty ?_ } }
  unfold Lexing.eraseEof at heof
  split at heof
  · cases heof
  · exact heof

/-- The character that is read, if the automaton is not suspended. -/
theorem nextChar_spec (h : Tracks e buf rd place s)
    (hready : ¬ (buf.lexCurrPos ≥ buf.lexBufferLen ∧ buf.lexEofReached = false)) :
    ∃ buf', nextChar buf = .ok (charAt place.input s.curr, buf') ∧
      Tracks e buf' rd place { s with curr := posAfter place.input s.curr } ∧
      fuelLeft (eraseEof (charAt place.input s.curr) buf') < fuelLeft buf := by
  have hcurr := h.curr_eq
  have hlast := h.last_le
  have hlength := h.holds.length_input
  by_cases hlt : buf.lexCurrPos < buf.lexBufferLen
  · have hin : s.curr < place.input.length := by omega
    have hget : buf.lexBuffer[buf.lexCurrPos]? = some place.input[s.curr] := by
      rw [hcurr, h.holds.getElem? (by omega), List.getElem?_eq_getElem hin]
    have hchar : charAt place.input s.curr = place.input[s.curr].toNat := by
      rw [charAt, List.getElem?_eq_getElem hin]
    have hbyte : ¬ place.input[s.curr].toNat = 256 := by
      have := UInt8.toNat_lt place.input[s.curr]
      omega
    have hpos : posAfter place.input s.curr = s.curr + 1 := if_pos hin
    refine ⟨{ buf with lexCurrPos := buf.lexCurrPos + 1 }, ?_, ?_, ?_⟩
    · rw [nextChar, if_neg (by omega), hget, hchar]
      rfl
    · rw [hpos]
      exact { h with
        curr_eq := by show buf.lexCurrPos + 1 = buf.lexStartPos + (s.curr + 1); omega
        curr_le := hlt
        last_le := by show s.last ≤ s.curr + 1; omega }
    · rw [eraseEof, hchar, if_neg hbyte]
      show buf.lexBufferLen - (buf.lexCurrPos + 1) + (if buf.lexEofReached then 1 else 0) <
        buf.lexBufferLen - buf.lexCurrPos + if buf.lexEofReached then 1 else 0
      omega
  · have heof : buf.lexEofReached = true := by
      cases hf : buf.lexEofReached with
      | true => rfl
      | false => exact absurd ⟨by omega, hf⟩ hready
    have hrd := h.holds.empty heof
    have hin : ¬ s.curr < place.input.length := by
      rw [hrd, show Reader.contents [] = [] from rfl, length_nil] at hlength
      omega
    have hchar : charAt place.input s.curr = 256 := by
      rw [charAt, List.getElem?_eq_none (by omega)]
    have hpos : posAfter place.input s.curr = s.curr := if_neg hin
    refine ⟨buf, ?_, ?_, ?_⟩
    · rw [nextChar, if_pos (by omega), hchar]
    · rw [hpos]
      exact h
    · rw [eraseEof, hchar, if_pos rfl]
      unfold fuelLeft
      rw [heof]
      simp

/-- A token that is complete, with its length and memory. -/
structure Finishes (e : Entry) (buf : Lexbuf) (rd : Reader) (place : Place)
    (len : Nat) (mem : List Int) : Prop where
  holds : Holds buf.lexBuffer buf.lexBufferLen buf.lexEofReached rd buf.lexStartPos place.input
  offset_eq : buf.lexAbsPos + buf.lexStartPos = place.offset
  pos_eq : (buf.lexStartP, buf.lexCurrP) = place.pos
  curr_eq : buf.lexCurrPos = buf.lexStartPos + len
  curr_le : buf.lexCurrPos ≤ buf.lexBufferLen
  cells : CellsRel e buf.lexStartPos buf.lexMem mem

/-- The results of a round that correspond to each other. -/
def RoundRel (e : Entry) (buf : Lexbuf) (rd : Reader) (place : Place) :
    (Nat × Lexbuf) ⊕ (Int × Lexbuf) → Scan ⊕ (Int × Nat × List Int) → Prop
  | .inl (state, buf'), .inl s' =>
    state = s'.state ∧ Tracks e buf' rd place s' ∧ fuelLeft buf' < fuelLeft buf
  | .inr (r, buf'), .inr (r', len, mem) =>
    r = r' ∧ 0 ≤ r ∧ Finishes e buf' rd place len mem
  | _, _ => False

/-- The automaton is suspended in the state of `s`, after the backtrack point was recorded. -/
structure Suspended (tbl : LexTables) (e : Entry) (buf : Lexbuf) (rd : Reader) (place : Place)
    (s : Scan) : Prop where
  recorded : ∃ s', s.record tbl (e.code tbl) = .ok s' ∧ s'.state = s.state ∧
    Tracks e buf rd place s'
  base : ∃ base, short tbl.lexBase s.state = .ok base ∧ 0 ≤ base
  curr : buf.lexCurrPos ≥ buf.lexBufferLen
  eof : buf.lexEofReached = false

/-- **One round of the automaton** is one character of the input, unless the automaton is
suspended. -/
theorem engineRound_spec (h : Tracks e buf rd place s) :
    (∃ buf', engineRound tbl (e.code tbl) s.state buf = .ok (.inr (-s.state - 1, buf')) ∧
        fuelLeft buf = 0 ∧ Suspended tbl e buf' rd place s) ∨
      Result.Rel (RoundRel e buf rd place) (engineRound tbl (e.code tbl) s.state buf)
        (scanRound tbl (e.code tbl) place.input s) := by
  unfold engineRound scanRound
  cases hbase : short tbl.lexBase s.state with
  | error ex => exact .inr rfl
  | ok base =>
    simp only [Result.ok_bind]
    by_cases hneg : base < 0
    · right
      rw [if_pos hneg, if_pos hneg]
      refine (perform_backtrack_rel tbl h.cells s.state).1.bind fun mem mem' hmem => ?_
      exact ⟨rfl, by omega, h.holds, h.offset_eq, h.pos_eq, h.curr_eq, h.curr_le, hmem⟩
    · rw [if_neg hneg, if_neg hneg]
      rcases (record_rel tbl h).cases with ⟨buf1, s1, hbuf1, hs1, htracks, hstate, hfuel⟩ |
        ⟨ex, h1, h2⟩
      · rw [hbuf1, hs1]
        simp only [Result.ok_bind]
        by_cases hsusp : buf1.lexCurrPos ≥ buf1.lexBufferLen ∧ buf1.lexEofReached = false
        · left
          refine ⟨buf1, by rw [if_pos hsusp]; rfl, ?_, ⟨s1, hs1, hstate, htracks⟩,
            ⟨base, hbase, by omega⟩, hsusp.1, hsusp.2⟩
          rw [← hfuel, fuelLeft, hsusp.2]
          simp
          omega
        · right
          rw [if_neg hsusp]
          obtain ⟨buf2, hnext, htracks2, hfuel2⟩ := nextChar_spec htracks hsusp
          rw [hnext, ← hstate]
          simp only [Result.ok_bind]
          refine Result.Rel.bind_same fun next _ => ?_
          have haction : buf2.lexLastAction = s1.lastAction := htracks2.action_eq
          have hlast : buf2.lexLastPos = buf2.lexStartPos + s1.last := htracks2.last_eq
          have hle : s1.last ≤ posAfter place.input s1.curr := htracks2.last_le
          have hcurr : buf2.lexCurrPos = buf2.lexStartPos + posAfter place.input s1.curr :=
            htracks2.curr_eq
          have hbound := htracks2.curr_le
          split
          · -- no transition: back to the last backtrack point
            rw [haction]
            split
            · rfl
            · next hne =>
              exact ⟨rfl, htracks2.action_ok.resolve_left hne, htracks2.holds, htracks2.offset_eq,
                htracks2.pos_eq, hlast, by show buf2.lexLastPos ≤ buf2.lexBufferLen; omega,
                  htracks2.cells⟩
          · have htrans := transition_rel tbl htracks2.cells s1.state (charAt place.input s1.curr)
              (posAfter place.input s1.curr)
            rw [← hcurr] at htrans
            refine htrans.bind fun mem mem' hmem => ?_
            exact ⟨rfl, { htracks2.eraseEof _ with cells := hmem }, hfuel ▸ hfuel2⟩
      · right
        rw [h1, h2]
        rfl

/-! ## A call of the automaton -/

/-- One character of the scan. -/
def ScanStep (tbl : LexTables) (e : Entry) (input : Bytes) (s s' : Scan) : Prop :=
  scanRound tbl (e.code tbl) input s = .ok (.inl s')

/-- How a call of the automaton ends, compared with a scan that started in `s`. -/
inductive CallRel (tbl : LexTables) (e : Entry) (buf : Lexbuf) (rd : Reader) (place : Place)
    (s : Scan) : Except Exn (Int × Lexbuf) → Prop where
  /-- suspended, with progress unless there was nothing to read -/
  | suspended {s' : Scan} {buf' : Lexbuf} :
    (s' = s ∧ fuelLeft buf = 0 ∨ Relation.TransGen (ScanStep tbl e place.input) s s') →
    Suspended tbl e buf' rd place s' →
    CallRel tbl e buf rd place s (.ok (-s'.state - 1, buf'))
  | returned {s' : Scan} {buf' : Lexbuf} {r : Int} {len : Nat} {mem : List Int} :
    Relation.ReflTransGen (ScanStep tbl e place.input) s s' →
    scanRound tbl (e.code tbl) place.input s' = .ok (.inr (r, len, mem)) → 0 ≤ r →
    Finishes e buf' rd place len mem →
    CallRel tbl e buf rd place s (.ok (r, buf'))
  | failed {s' : Scan} {ex : Exn} :
    Relation.ReflTransGen (ScanStep tbl e place.input) s s' →
    scanRound tbl (e.code tbl) place.input s' = .error ex →
    CallRel tbl e buf rd place s (.error ex)

/-- A call after one more character. -/
theorem CallRel.head {buf1 : Lexbuf} {s1 : Scan} {res : Except Exn (Int × Lexbuf)}
    (hstep : ScanStep tbl e place.input s s1) (h : CallRel tbl e buf1 rd place s1 res) :
    CallRel tbl e buf rd place s res := by
  cases h with
  | suspended hsteps hsusp =>
    refine .suspended (.inr ?_) hsusp
    rcases hsteps with ⟨rfl, -⟩ | hsteps
    · exact .single hstep
    · exact .head hstep hsteps
  | returned hsteps hround hr hfin => exact .returned (.head hstep hsteps) hround hr hfin
  | failed hsteps hround => exact .failed (.head hstep hsteps) hround

/-- **A call of the automaton** ends like the scan. Each round uses up a character, and after the
end of the file the automaton is suspended. -/
theorem engineLoop_spec (fuel : Nat) (h : Tracks e buf rd place s)
    (hfuel : fuelLeft buf < fuel) :
    CallRel tbl e buf rd place s (engineLoop tbl (e.code tbl) fuel s.state buf) := by
  induction fuel generalizing buf s with
  | zero => omega
  | succ fuel ih =>
    rw [engineLoop]
    rcases engineRound_spec tbl h with ⟨buf', hround, hzero, hsusp⟩ | hrel
    · rw [hround]
      exact .suspended (.inl ⟨rfl, hzero⟩) hsusp
    · rcases hrel.cases with ⟨a, b, ha, hb, hab⟩ | ⟨ex, ha, hb⟩
      · rw [ha]
        match a, b, hab with
        | .inl (_, buf1), .inl s1, ⟨rfl, htracks, hlt⟩ => exact (ih htracks (by omega)).head tbl hb
        | .inr (_, buf1), .inr (r, len, mem), ⟨rfl, hr, hfin⟩ => exact .returned .refl hb hr hfin
      · rw [ha]
        exact .failed .refl hb

end Round

/-! ## A refill -/

section Refill

variable (rt : Runtime) {e : Entry} {buf : Lexbuf} {rd : Reader} {place : Place} {s : Scan}
  {n : Nat}

theorem roomFor_spec (size : Nat) {buffer : Bytes} (h : 512 ≤ buffer.length)
    (hsize : size ≤ buffer.length + 512) :
    (∃ target, roomFor rt size buffer = .ok target ∧ size ≤ target.length ∧
        512 ≤ target.length) ∨
      roomFor rt size buffer = .error cannotGrow ∧ rt.maxStringLength < size := by
  unfold roomFor
  split
  · next hle => exact .inl ⟨buffer, rfl, hle, h⟩
  · next hgt =>
    dsimp only
    split
    · exact .inr ⟨rfl, by omega⟩
    · next hle =>
      have hlen := rt.length_create (min (2 * buffer.length) rt.maxStringLength)
      exact .inl ⟨_, rfl, by omega, by omega⟩

/-- The buffer is the same for the scan after its data was shifted. -/
theorem makeRoom_spec (h : Tracks e buf rd place s) (hn : n ≤ 512)
    (hrest : n ≤ rd.contents.length) :
    (∃ buf', makeRoom rt n buf = .ok buf' ∧ Tracks e buf' rd place s ∧
        buf'.lexBufferLen + n ≤ buf'.lexBuffer.length ∧
        buf'.lexEofReached = buf.lexEofReached) ∨
      makeRoom rt n buf = .error cannotGrow ∧ rt.maxStringLength < place.input.length := by
  have hlen := h.holds.len_le
  have hcurr := h.curr_eq
  have hle := h.curr_le
  have hlast := h.last_eq
  have hinput := h.holds.length_input
  unfold makeRoom
  rcases roomFor_spec rt (buf.lexBufferLen - buf.lexStartPos + n) h.holds.size (by omega)
    with ⟨target, htarget, hfit, hsize⟩ | ⟨herr, hmax⟩
  · left
    obtain ⟨buffer, hblit, hlength, htake⟩ := Bytes.blit_spec buf.lexBuffer target
      (show buf.lexStartPos + (buf.lexBufferLen - buf.lexStartPos) ≤ _ by omega)
      (show 0 + (buf.lexBufferLen - buf.lexStartPos) ≤ _ by omega)
    rw [Nat.zero_add, take_zero, nil_append] at htake
    simp only [htarget, hblit, Result.ok_bind, orElse]
    refine ⟨_, rfl, ⟨⟨?_, ?_, ?_, h.holds.empty, ?_⟩, ?_, h.pos_eq, ?_, ?_, ?_, h.last_le,
      h.action_eq, h.action_ok, ?_⟩, ?_, rfl⟩
    · show buf.lexBufferLen - buf.lexStartPos ≤ buffer.length
      omega
    · exact Nat.zero_le _
    · show (buffer.take (buf.lexBufferLen - buf.lexStartPos)).drop 0 ++ rd.contents = place.input
      rw [htake, drop_zero, ← drop_take, h.holds.data]
    · show 512 ≤ buffer.length
      omega
    · show buf.lexAbsPos + buf.lexStartPos + 0 = place.offset
      exact h.offset_eq
    · show buf.lexCurrPos - buf.lexStartPos = 0 + s.curr
      omega
    · show buf.lexCurrPos - buf.lexStartPos ≤ buf.lexBufferLen - buf.lexStartPos
      omega
    · show buf.lexLastPos - buf.lexStartPos = 0 + s.last
      omega
    · intro he
      show s.mem = (buf.lexMem.map (rebase buf.lexStartPos)).map (rebase 0)
      have hzero : rebase 0 = id := by
        funext v
        simp [rebase]
      rw [hzero, map_id]
      exact h.cells he
    · show buf.lexBufferLen - buf.lexStartPos + n ≤ buffer.length
      omega
  · right
    simp only [herr, Result.error_bind]
    exact ⟨trivial, by omega⟩

theorem ensureRoom_spec (h : Tracks e buf rd place s) (hn : n ≤ 512)
    (hrest : n ≤ rd.contents.length) :
    (∃ buf', ensureRoom rt n buf = .ok buf' ∧ Tracks e buf' rd place s ∧
        buf'.lexBufferLen + n ≤ buf'.lexBuffer.length ∧
        buf'.lexEofReached = buf.lexEofReached) ∨
      ensureRoom rt n buf = .error cannotGrow ∧ rt.maxStringLength < place.input.length := by
  unfold ensureRoom
  split
  · exact makeRoom_spec rt h hn hrest
  · next hfit => exact .inl ⟨buf, rfl, h, by omega, rfl⟩

/-- The data of the reader goes to the end of the buffer. -/
theorem Tracks.append {data : Bytes} {rd' : Reader} (h : Tracks e buf rd place s)
    (hdata : data ++ rd'.contents = rd.contents) (hempty : buf.lexEofReached = true → rd' = [])
    (hfit : buf.lexBufferLen + data.length ≤ buf.lexBuffer.length) :
    ∃ buffer, Bytes.blit data 0 buf.lexBuffer buf.lexBufferLen data.length = some buffer ∧
      Tracks e { buf with
          lexBuffer := buffer, lexBufferLen := buf.lexBufferLen + data.length }
        rd' place s := by
  have hpos := h.holds.pos_le
  have hle := h.curr_le
  obtain ⟨buffer, hblit, hlength, htake⟩ := Bytes.blit_spec data buf.lexBuffer
    (show 0 + data.length ≤ _ by omega) hfit
  rw [drop_zero, take_length] at htake
  refine ⟨buffer, hblit, { h with
    holds := ⟨?_, ?_, ?_, hempty, ?_⟩
    curr_le := by show buf.lexCurrPos ≤ buf.lexBufferLen + data.length; omega }⟩
  · show buf.lexBufferLen + data.length ≤ buffer.length
    omega
  · show buf.lexStartPos ≤ buf.lexBufferLen + data.length
    omega
  · show (buffer.take (buf.lexBufferLen + data.length)).drop buf.lexStartPos ++ rd'.contents =
      place.input
    rw [htake, drop_append_of_le_length (by rw [length_take]; omega), append_assoc,
      hdata, h.holds.data]
  · show 512 ≤ buffer.length
    have := h.holds.size
    omega

theorem Reader.read_spec (rd : Reader) : rd.read.1 ++ rd.read.2.contents = rd.contents ∧
    rd.read.1.length ≤ 512 ∧ (rd.read.1.length = 0 → rd = []) ∧ (rd = [] → rd.read.2 = []) := by
  cases rd with
  | nil => exact ⟨rfl, Nat.zero_le _, fun _ => rfl, fun _ => rfl⟩
  | cons chunk rest =>
    refine ⟨rfl, chunk.property.2, fun h => ?_, fun h => by cases h⟩
    exact absurd (length_eq_zero_iff.mp h) chunk.property.1

/-- **A refill** keeps the scan, and there is something to read after it. It can fail only when the
input is longer than a string. -/
theorem lexRefill_spec (h : Tracks e buf rd place s) :
    (∃ buf' rd', lexRefill rt rd buf = .ok (buf', rd') ∧ Tracks e buf' rd' place s ∧
        0 < fuelLeft buf') ∨
      lexRefill rt rd buf = .error cannotGrow ∧ rt.maxStringLength < place.input.length := by
  obtain ⟨hcontents, hn, hnil, hrest⟩ := Reader.read_spec rd
  have hle : rd.read.1.length ≤ rd.contents.length := by
    rw [← hcontents, length_append]
    omega
  unfold lexRefill
  generalize rd.read.1 = data at *
  generalize rd.read.2 = rd' at *
  have hmark : Tracks e (markEof data.length buf) rd place s ∧
      ((markEof data.length buf).lexEofReached = true → rd' = []) ∧
      (data.length = 0 → (markEof data.length buf).lexEofReached = true) := by
    unfold markEof
    split
    · next hpos =>
      exact ⟨h, fun heof => hrest (h.holds.empty heof), fun hz => by omega⟩
    · next hzero =>
      have hrd := hnil (by omega)
      exact ⟨{ h with holds := { h.holds with empty := fun _ => hrd } }, fun _ => hrest hrd,
        fun _ => rfl⟩
  obtain ⟨htracks, hempty, heof⟩ := hmark
  rcases ensureRoom_spec rt htracks hn hle
    with ⟨buf1, hroom, htracks1, hfit, heof1⟩ | ⟨herr, hmax⟩
  · left
    obtain ⟨buffer, hblit, htracks2⟩ :=
      htracks1.append hcontents (fun h1 => hempty (heof1 ▸ h1)) hfit
    refine ⟨_, rd', by simp only [hroom, Result.ok_bind, hblit, orElse]; rfl, htracks2, ?_⟩
    have hcurr := htracks1.curr_le
    show 0 < buf1.lexBufferLen + data.length - buf1.lexCurrPos +
      if buf1.lexEofReached then 1 else 0
    rcases Nat.eq_zero_or_pos data.length with hzero | hpos
    · rw [heof1, heof hzero]
      simp
    · omega
  · right
    simp only [herr, Result.error_bind]
    exact ⟨trivial, hmax⟩

end Refill

end TravLang.Lexing
