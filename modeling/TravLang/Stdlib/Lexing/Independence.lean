import TravLang.Stdlib.Lexing.Chunks

/-!
# Two readers of the same input

Lexers on two readers that deliver the same bytes are simulated by the same lexer of a string, so
they end with the same tokens, or with the same exception.
-/

namespace TravLang.Lexing

open Machine List Result

/-! ## Tag code that is run twice -/

/-- Running the tag code of a backtrack point a second time changes nothing. -/
def TagsIdempotent (tbl : LexTables) : Prop :=
  ∀ (state : Nat) (base backtrk : Int) (mem mem' : List Int),
    short tbl.lexBase state = .ok base → 0 ≤ base →
    short tbl.lexBacktrk state = .ok backtrk → 0 ≤ backtrk →
    (withMemory tbl).backtrack state mem = .ok mem' →
    (withMemory tbl).backtrack state mem' = .ok mem'

/-- Every move writes a cell below `k`, and reads none of these. This is the shape of the tag code
of a generated lexer: it copies from temporary cells to the cells of the tags. -/
def Separated (k : Nat) : Bytes → Prop
  | dst :: src :: pc =>
    dst = 0xff ∨ dst.toNat < k ∧ (src = 0xff ∨ k ≤ src.toNat) ∧ Separated k pc
  | _ => True

variable {k len : Nat} {tbl : LexTables} {mem : List Int} {state : Int}

/-- Separated code has the same effect on memories that agree on the cells it reads: a cell of the
result is the same, or was not written. -/
theorem runCode_agree {value : Int} :
    ∀ {pc : Bytes} {mem res : List Int} (mem2 : List Int),
    Separated k pc → runCode value pc mem = .ok res → mem2.length = mem.length →
    (∀ i, k ≤ i → mem2[i]? = mem[i]?) →
    (∀ i, k ≤ i → res[i]? = mem[i]?) ∧ res.length = mem.length ∧
    ∃ res2 : List Int, runCode value pc mem2 = .ok res2 ∧
      ∀ i : Nat, res2[i]? = res[i]? ∨ res2[i]? = mem2[i]? ∧ res[i]? = mem[i]?
  | [], _, _, _, _, h, _, _ => by cases h
  | [dst], mem, res, mem2, _, h, _, _ => by
    simp only [runCode] at h ⊢
    split at h
    · next hdst =>
      obtain rfl := Except.ok.inj h
      exact ⟨fun _ _ => rfl, rfl, mem2, if_pos hdst, fun i => .inr ⟨rfl, rfl⟩⟩
    · cases h
  | dst :: src :: pc, mem, res, mem2, hsep, h, hlen, hagree => by
    simp only [runCode] at h ⊢
    split at h
    · next hdst =>
      obtain rfl := Except.ok.inj h
      exact ⟨fun _ _ => rfl, rfl, mem2, if_pos hdst, fun i => .inr ⟨rfl, rfl⟩⟩
    · next hdst =>
      obtain ⟨hk, hsrc, hsep⟩ := hsep.resolve_left hdst
      have hoperand : operand value mem2 src = operand value mem src := by
        unfold operand
        split
        · rfl
        · next hne => rw [hagree _ (hsrc.resolve_left hne)]
      obtain ⟨v, hv, h⟩ := bind_eq_ok.mp h
      split at h
      · next hin =>
        obtain ⟨hge, hreslen, res2, hrun, hcells⟩ := runCode_agree (mem2.set dst.toNat v) hsep h
          (by rw [length_set, length_set, hlen]) fun i hi => by
            rw [List.getElem?_set_ne (by omega), List.getElem?_set_ne (by omega), hagree i hi]
        refine ⟨fun i hi => ?_, by rw [hreslen, length_set], res2, ?_, fun i => ?_⟩
        · rw [hge i hi, List.getElem?_set_ne (by omega)]
        · rw [if_neg hdst, hoperand, hv, ok_bind, hlen, if_pos hin, hrun]
        · rcases hcells i with hi | ⟨h2, h1⟩
          · exact .inl hi
          · by_cases hid : dst.toNat = i
            · left
              rw [h2, h1, ← hid, List.getElem?_set_self (by omega), List.getElem?_set_self hin]
            · right
              rw [List.getElem?_set_ne hid] at h2 h1
              exact ⟨h2, h1⟩
      · cases h

theorem tagsIdempotent_of_separated
    (h : ∀ state pcOff, ushort tbl.lexBacktrkCode state = .ok pcOff →
      ∃ k, Separated k (tbl.lexCode.drop pcOff)) :
    TagsIdempotent tbl := by
  intro state _ _ mem mem' _ _ _ _ hrun
  obtain ⟨pcOff, hoff, hrun⟩ := bind_eq_ok.mp hrun
  obtain ⟨k, hsep⟩ := h state pcOff hoff
  obtain ⟨hge, hlen, -⟩ := runCode_agree mem hsep hrun rfl fun _ _ => rfl
  obtain ⟨-, -, res, hres, hcells⟩ := runCode_agree mem' hsep hrun hlen hge
  have : res = mem' := List.ext_getElem? fun i => (hcells i).elim id And.left
  show (ushort tbl.lexBacktrkCode state >>= fun pcOff => runTag (tbl.lexCode.drop pcOff) mem') = _
  rw [hoff, ok_bind, runTag, hres, this]

section Resume

variable {tbl : LexTables} {e : Entry} {s s' : Scan} {base : Int}
  (htags : e.mem.isSome = true → TagsIdempotent tbl) (hbase : short tbl.lexBase s.state = .ok base)
  (hnonneg : 0 ≤ base) (hrec : s.record tbl (e.code tbl) = .ok s')

include htags hbase hnonneg hrec

theorem record_record : s'.state = s.state ∧ s'.record tbl (e.code tbl) = .ok s' := by
  unfold Scan.record at hrec ⊢
  obtain ⟨backtrk, hback, hrec⟩ := bind_eq_ok.mp hrec
  split at hrec
  · next hpos =>
    obtain ⟨mem, hmem, hs'⟩ := bind_eq_ok.mp hrec
    obtain rfl := Except.ok.inj hs'
    refine ⟨rfl, ?_⟩
    have hagain : (e.code tbl).backtrack s.state mem = .ok mem := by
      unfold Entry.code at hmem ⊢
      split
      · next he =>
        rw [if_pos he] at hmem
        exact htags he s.state base backtrk s.mem mem hbase hnonneg hback hpos hmem
      · rfl
    simp only [hback, ok_bind, if_pos hpos, hagain]
    rfl
  · next hneg =>
    obtain rfl := Except.ok.inj hrec
    refine ⟨rfl, ?_⟩
    simp only [hback, ok_bind, if_neg hneg]
    rfl

/-- A scan that is resumed does not notice that its backtrack point was recorded before. -/
theorem scanRound_record (input : Bytes) :
    scanRound tbl (e.code tbl) input s' = scanRound tbl (e.code tbl) input s := by
  obtain ⟨hstate, hagain⟩ := record_record htags hbase hnonneg hrec
  unfold scanRound
  rw [hstate, hbase]
  simp only [ok_bind]
  rw [if_neg (by omega), if_neg (by omega), hrec, hagain]

end Resume

/-! ## The lexer of a string -/

section StringStep

variable {tbl : LexTables} {next : List Token → Option Entry} {e : Entry} {tokens : List Token}
  {place : Place} {s s' : Scan}

theorem stringStep_scan (h : ScanStep tbl e place.input s s') :
    stringStep tbl next (.inside e tokens place s) = .inl (.inside e tokens place s') := by
  simp only [stringStep, show scanRound _ _ _ _ = _ from h, ok_bind]
  rfl

theorem reaches_scan (h : Relation.TransGen (ScanStep tbl e place.input) s s') :
    Reaches (stringStep tbl next) (.inside e tokens place s) (.inside e tokens place s') :=
  h.lift (fun s => StringControl.inside e tokens place s) fun _ _ => stringStep_scan

theorem stringStep_token (next : List Token → Option Entry) (tokens : List Token) {r : Int}
    (h : scanRound tbl (e.code tbl) place.input s = .ok (.inr (r, len, mem))) :
    stringStep tbl next (.inside e tokens place s) =
      .inl (.between (tokens ++ [place.token e r len mem]) (place.after len)) := by
  simp only [stringStep, h, ok_bind]
  rfl

theorem stringStep_error (next : List Token → Option Entry) (tokens : List Token) {ex : Exn}
    (h : scanRound tbl (e.code tbl) place.input s = .error ex) :
    stringStep tbl next (.inside e tokens place s) = .inr ⟨tokens, some ex⟩ := by
  simp only [stringStep, h, error_bind]
  rfl

theorem stringStep_congr (h : scanRound tbl (e.code tbl) place.input s =
      scanRound tbl (e.code tbl) place.input s') :
    stringStep tbl next (.inside e tokens place s) =
      stringStep tbl next (.inside e tokens place s') := by
  simp only [stringStep, h]

end StringStep

/-! ## The simulation -/

/-- The buffer between two tokens. -/
structure Ready (buf : Lexbuf) (rd : Reader) (place : Place) : Prop where
  holds : Holds buf.lexBuffer buf.lexBufferLen buf.lexEofReached rd buf.lexCurrPos place.input
  offset_eq : buf.lexAbsPos + buf.lexCurrPos = place.offset
  pos_eq : (buf.lexStartP, buf.lexCurrP) = place.pos

/-- The lexer of a reader and the lexer of a string are at the same point. The scan that the buffer
tracks may differ from the other one, as long as this is not noticed. -/
inductive Sync (tbl : LexTables) (total : Nat) : Control → StringControl → Prop where
  | between {tokens : List Token} {buf : Lexbuf} {rd : Reader} {place : Place} :
    Ready buf rd place → place.input.length ≤ total →
    Sync tbl total (.between tokens buf rd) (.between tokens place)
  | inside {e : Entry} {state : Int} {tokens : List Token} {buf : Lexbuf} {rd : Reader}
      {place : Place} {s s0 : Scan} :
    (e.mem.isSome = true → TagsIdempotent tbl) →
    (enter state buf).1 = s0.state → Tracks e (enter state buf).2 rd place s0 →
    scanRound tbl (e.code tbl) place.input s0 = scanRound tbl (e.code tbl) place.input s →
    place.input.length ≤ total →
    Sync tbl total (.inside e state tokens buf rd) (.inside e tokens place s)

/-- A suspended automaton has more to do when there is something to read. -/
def rank : Control → Nat
  | .between _ _ _ => 0
  | .inside _ _ _ buf _ => if fuelLeft buf = 0 then 1 else 0

section Steps

variable {tbl : LexTables} {e : Entry} {buf : Lexbuf} {rd : Reader} {place : Place} {r : Int}

theorem Entry.engine_eq (state : Int) : e.engine tbl state buf =
    (lexEngine tbl (e.code tbl) state buf >>= fun res => .ok (updatePositions res)) := by
  unfold Entry.engine Entry.code
  split <;> rfl

theorem lexEngine_spec (tbl : LexTables) {s : Scan} (hstate : (enter state buf).1 = s.state)
    (h : Tracks e (enter state buf).2 rd place s) :
    CallRel tbl e (enter state buf).2 rd place s (lexEngine tbl (e.code tbl) state buf) := by
  have hfuel : fuelLeft (enter state buf).2 <
      (enter state buf).2.lexBufferLen - (enter state buf).2.lexCurrPos + 2 := by
    unfold fuelLeft
    split <;> omega
  have := engineLoop_spec tbl _ h hfuel
  rw [← hstate] at this
  exact this

/-- The start of a token. -/
theorem start_spec (h : Ready buf rd place) :
    Result.Rel (fun buf' mem => Tracks e (enter e.initNum buf').2 rd place
        ⟨e.initNum, 0, 0, -1, mem⟩) (e.start buf) (e.startMem 0) := by
  have hmem := e.startMem_rel buf.lexCurrPos
  have htracks : ∀ {cells mem : List Int}, CellsRel e buf.lexCurrPos cells mem →
      Tracks e (enter e.initNum { buf with lexMem := cells }).2 rd place
        ⟨e.initNum, 0, 0, -1, mem⟩ := by
    intro cells mem hcells
    rw [enter, if_pos (by omega)]
    exact ⟨h.holds, h.offset_eq, h.pos_eq, rfl, h.holds.pos_le, rfl, Nat.le_refl _, rfl, .inl rfl,
      hcells⟩
  cases he : e.mem with
  | none =>
    simp only [Entry.start, Entry.startMem, he]
    exact htracks fun hsome => by simp [he] at hsome
  | some init =>
    simp only [Entry.start, Entry.startMem, he] at hmem ⊢
    rcases hmem.cases with ⟨cells, mem, h1, h2, hcells⟩ | ⟨ex, h1, h2⟩
    · rw [h1, h2]
      exact htracks hcells
    · rw [h1, h2]
      rfl

theorem updatePositions_eq (hr : 0 ≤ r) : updatePositions (r, buf) =
    (r, { buf with
      lexStartP := (positionsAfter (buf.lexStartP, buf.lexCurrP)
        (buf.lexAbsPos + buf.lexCurrPos)).1
      lexCurrP := (positionsAfter (buf.lexStartP, buf.lexCurrP)
        (buf.lexAbsPos + buf.lexCurrPos)).2 }) := by
  obtain ⟨_, _, _, _, _, _, _, _, _, _, currP⟩ := buf
  cases currP with
  | none => rfl
  | some p => simp [updatePositions, positionsAfter, hr]

/-- The end of a token. -/
theorem token_spec (hr : 0 ≤ r) (h : Finishes e buf rd place len mem) :
    ∃ buf', updatePositions (r, buf) = (r, buf') ∧
      e.token r buf' = .ok (place.token e r len mem) ∧ Ready buf' rd (place.after len) := by
  have hcurr := h.curr_eq
  have hle := h.curr_le
  have hlen := h.holds.len_le
  have hoffset := h.offset_eq
  have hend : buf.lexAbsPos + buf.lexCurrPos = place.offset + len := by omega
  refine ⟨_, updatePositions_eq hr, ?_, ?_, hend, ?_⟩
  · have hlexeme : Bytes.sub buf.lexBuffer buf.lexStartPos (buf.lexCurrPos - buf.lexStartPos) =
        some (place.input.take len) := by
      rw [Bytes.sub_eq (by omega), show buf.lexCurrPos - buf.lexStartPos = len by omega,
        h.holds.take (by omega)]
    simp only [Entry.token, lexeme, hlexeme, orElse, ok_bind, h.pos_eq, hend, hoffset]
    have hmem : (if e.mem.isSome then buf.lexMem.map (rebase buf.lexStartPos) else []) =
        if e.mem.isSome then mem else [] := by
      split
      · next he => exact (h.cells he).symm
      · rfl
    rw [hmem]
    rfl
  · show Holds buf.lexBuffer buf.lexBufferLen buf.lexEofReached rd buf.lexCurrPos
      (place.input.drop len)
    rw [hcurr]
    exact h.holds.drop (by omega)
  · show ((positionsAfter _ _).1, (positionsAfter _ _).2) = positionsAfter place.pos _
    rw [h.pos_eq, hend]

end Steps

theorem enter_resume (state : Nat) (buf : Lexbuf) : enter (-state - 1) buf = (state, buf) := by
  rw [enter, if_neg (by omega), show (-(-(state : Int) - 1) - 1).toNat = state by omega]

theorem updatePositions_resume (state : Nat) (buf : Lexbuf) :
    updatePositions (-(state : Int) - 1, buf) = (-(state : Int) - 1, buf) := by
  unfold updatePositions
  split
  · exact if_neg (by show ¬ -(state : Int) - 1 ≥ 0; omega)
  · rfl

theorem fuelLeft_enter (state : Int) (buf : Lexbuf) :
    fuelLeft (enter state buf).2 = fuelLeft buf := by
  unfold enter
  split <;> rfl

section Simulation

variable (rt : Runtime) (tbl : LexTables) (next : List Token → Option Entry) (total : Nat)

/-- The only result that may differ: the buffer cannot grow, as the input is longer than a string.
-/
def Excused (out : Outcome) : Prop :=
  out.error = some cannotGrow ∧ rt.maxStringLength < total

/-- What the simulation demands of a step. -/
def Matched (c : Control) (t : StringControl) : Prop :=
  (∃ c', lexStep rt tbl next c = .inl c' ∧ ∃ t', Sync tbl total c' t' ∧
      (t' = t ∧ rank c' < rank c ∨ Reaches (stringStep tbl next) t t')) ∨
    ∃ out, lexStep rt tbl next c = .inr out ∧
      (Excused rt total out ∨ Halts (stringStep tbl next) t out)

variable {buf : Lexbuf} {tokens : List Token} {place : Place} {rd : Reader}

/-- A step between two tokens. -/
theorem between_matched
    (htags : ∀ tokens e, next tokens = some e → e.mem.isSome = true → TagsIdempotent tbl)
    (h : Ready buf rd place) (htotal : place.input.length ≤ total) :
    Matched rt tbl next total (.between tokens buf rd) (.between tokens place) := by
  cases hnext : next tokens with
  | none =>
    refine .inr ⟨⟨tokens, none⟩, by simp only [lexStep, hnext], .inr (halts_of_inr ?_)⟩
    simp only [stringStep, hnext]
  | some e =>
    rcases (start_spec (e := e) h).cases with ⟨buf', mem, hbuf, hmem, htracks⟩ | ⟨ex, hbuf, hmem⟩
    · refine .inl ⟨.inside e e.initNum tokens buf' rd, ?_,
        .inside e tokens place ⟨e.initNum, 0, 0, -1, mem⟩, ?_, .inr (.single ?_)⟩
      · simp only [lexStep, hnext, hbuf, ok_bind]
        rfl
      · refine .inside (htags tokens e hnext) ?_ htracks rfl htotal
        rw [enter, if_pos (by omega)]
        rfl
      · simp only [stringStep, hnext, hmem, ok_bind]
        rfl
    · refine .inr ⟨⟨tokens, some ex⟩, ?_, .inr (halts_of_inr ?_)⟩
      · simp only [lexStep, hnext, hbuf, error_bind]
        rfl
      · simp only [stringStep, hnext, hmem, error_bind]
        rfl

/-- A step inside of a token: a call of the automaton, and a refill or the end of the token. -/
theorem inside_matched {e : Entry} {s s0 : Scan}
    (htags : e.mem.isSome = true → TagsIdempotent tbl) (hstate : (enter state buf).1 = s0.state)
    (htracks : Tracks e (enter state buf).2 rd place s0)
    (hsame : scanRound tbl (e.code tbl) place.input s0 = scanRound tbl (e.code tbl) place.input s)
    (htotal : place.input.length ≤ total) :
    Matched rt tbl next total (.inside e state tokens buf rd) (.inside e tokens place s) := by
  have hcongr : stringStep tbl next (.inside e tokens place s0) =
      stringStep tbl next (.inside e tokens place s) := stringStep_congr hsame
  have hcall := lexEngine_spec tbl hstate htracks
  unfold Matched
  simp only [lexStep, Entry.engine_eq]
  generalize lexEngine tbl (e.code tbl) state buf = res at hcall
  cases hcall with
  | @suspended s' buf' hsteps hsusp =>
    obtain ⟨s1, hrec, hs1, htracks1⟩ := hsusp.recorded
    obtain ⟨base, hbase, hnonneg⟩ := hsusp.base
    simp only [ok_bind, updatePositions_resume]
    rw [if_neg (by omega)]
    rcases lexRefill_spec rt htracks1 with ⟨buf2, rd2, hrefill, htracks2, hfuel⟩ | ⟨herr, hmax⟩
    · left
      simp only [hrefill, ok_bind]
      have hround := scanRound_record htags hbase hnonneg hrec place.input
      have henter := enter_resume s'.state buf2
      refine ⟨_, rfl, ?_⟩
      rcases hsteps with ⟨rfl, hzero⟩ | hsteps
      · refine ⟨.inside e tokens place s, ?_, .inl ⟨rfl, ?_⟩⟩
        · refine .inside htags ?_ ?_ (hround.trans hsame) htotal <;> rw [henter]
          · exact hs1.symm
          · exact htracks2
        · rw [fuelLeft_enter] at hzero
          show (if fuelLeft buf2 = 0 then 1 else 0) < if fuelLeft buf = 0 then 1 else 0
          rw [if_neg (by omega), if_pos hzero]
          exact Nat.zero_lt_one
      · refine ⟨.inside e tokens place s', ?_, .inr ((reaches_congr hcongr).mp ?_)⟩
        · refine .inside htags ?_ ?_ hround htotal <;> rw [henter]
          · exact hs1.symm
          · exact htracks2
        · exact reaches_scan hsteps
    · right
      simp only [herr, error_bind]
      exact ⟨_, rfl, .inl ⟨rfl, by omega⟩⟩
  | @returned s' buf' r len mem hsteps hround hr hfin =>
    obtain ⟨buf2, hupd, htoken, hready⟩ := token_spec hr hfin
    left
    simp only [ok_bind, hupd]
    rw [if_pos hr]
    simp only [htoken, ok_bind]
    refine ⟨_, rfl, .between (tokens ++ [place.token e r len mem]) (place.after len),
      .between hready ?_, .inr ((reaches_congr hcongr).mp ?_)⟩
    · show (place.input.drop len).length ≤ total
      rw [length_drop]
      omega
    · have hlast := stringStep_token next tokens hround
      rcases Relation.reflTransGen_iff_eq_or_transGen.mp hsteps with rfl | hsteps
      · exact .single hlast
      · exact .tail (reaches_scan hsteps) hlast
  | @failed s' ex hsteps hround =>
    right
    simp only [error_bind]
    refine ⟨_, rfl, .inr ((halts_congr hcongr).mp ?_)⟩
    have hlast := halts_of_inr (stringStep_error next tokens hround)
    rcases Relation.reflTransGen_iff_eq_or_transGen.mp hsteps with rfl | hsteps
    · exact hlast
    · exact halts_of_reaches (reaches_scan hsteps) hlast

/-- **The lexer of a reader is simulated by the lexer of a string.** -/
theorem lexStep_simulation
    (htags : ∀ tokens e, next tokens = some e → e.mem.isSome = true → TagsIdempotent tbl) :
    Simulation (lexStep rt tbl next) (stringStep tbl next) (Sync tbl total) (Excused rt total)
      rank := by
  have hmatched : ∀ {c t}, Sync tbl total c t → Matched rt tbl next total c t := by
    intro c t h
    cases h with
    | between hready htotal => exact between_matched rt tbl next total htags hready htotal
    | inside htags hstate htracks hsame htotal =>
      exact inside_matched rt tbl next total htags hstate htracks hsame htotal
  constructor
  · intro c c' t hR hc
    rcases hmatched hR with ⟨c'', hc'', h⟩ | ⟨out, hout, -⟩
    · obtain rfl := Sum.inl.inj (hc.symm.trans hc'')
      exact h
    · rw [hc] at hout
      cases hout
  · intro c t out hR hc
    rcases hmatched hR with ⟨c'', hc'', -⟩ | ⟨out', hout', h⟩
    · rw [hc] at hc''
      cases hc''
    · obtain rfl := Sum.inr.inj (hc.symm.trans hout')
      exact h

end Simulation

/-! ## Independence -/

/-- The buffer can grow as long as it has to: the input is not longer than a string, or at least no
refill fails. -/
def Fits (rt : Runtime) (tbl : LexTables) (next : List Token → Option Entry)
    (withPositions : Bool) (rd : Reader) : Prop :=
  rd.contents.length ≤ rt.maxStringLength ∨
    ∀ out, Lexes rt tbl next withPositions rd out → out.error ≠ some cannotGrow

theorem Fits.not_excused {rt : Runtime} {next : List Token → Option Entry} {withPositions : Bool}
    {rd : Reader} (h : Fits rt tbl next withPositions rd) (out : Outcome)
    (hlexes : Lexes rt tbl next withPositions rd out) :
    ¬ Excused rt rd.contents.length out := by
  rintro ⟨herror, hmax⟩
  rcases h with h | h
  · omega
  · exact h out hlexes herror

theorem sync_init (rt : Runtime) (tbl : LexTables) (withPositions : Bool) (rd : Reader) :
    Sync tbl rd.contents.length (.between [] (fromFunction rt withPositions) rd)
      (.between [] ⟨0, rd.contents, if withPositions then some zeroPos else none,
        if withPositions then some zeroPos else none⟩) := by
  refine .between ⟨⟨Nat.zero_le _, Nat.zero_le _, rfl, nofun, ?_⟩, rfl, rfl⟩
    (Nat.le_refl _)
  show 512 ≤ (rt.create 1024).length
  rw [rt.length_create]
  decide

/-- **Lexing does not depend on how the input arrives.** Two readers deliver the same bytes. Then
the program ends with the same tokens, and in the same way, if the tag code of its tables may be
run twice. -/
theorem lexes_iff_of_contents_eq (tbl : LexTables) (next : List Token → Option Entry)
    (withPositions : Bool) (rt rt' : Runtime) (rd rd' : Reader)
    (hcontents : rd.contents = rd'.contents)
    (htags : ∀ tokens e, next tokens = some e → e.mem.isSome = true → TagsIdempotent tbl)
    (hfits : Fits rt tbl next withPositions rd) (hfits' : Fits rt' tbl next withPositions rd')
    (out : Outcome) :
    Lexes rt tbl next withPositions rd out ↔ Lexes rt' tbl next withPositions rd' out := by
  have hsync := sync_init rt tbl withPositions rd
  rw [hcontents] at hsync
  refine (lexStep_simulation rt tbl next _ htags).halts_iff
    (lexStep_simulation rt' tbl next _ htags) hsync (sync_init rt' tbl withPositions rd') ?_
    hfits'.not_excused out
  rw [← hcontents]
  exact hfits.not_excused

/-- A lexer for the byte 0, with three memory cells. -/
def zeroTables (tagCode : Bytes) : LexTables where
  lexBase := [0, 0, 0, 0]
  lexBacktrk := [0xff, 0xff, 0, 0]
  lexDefault := [0xff, 0xff, 0xff, 0xff]
  lexTrans := [1, 0, 0, 0]
  lexCheck := [0, 0, 0xff, 0xff]
  lexBaseCode := [0, 0, 0, 0]
  lexBacktrkCode := [0, 0, 4, 0]
  lexDefaultCode := [0, 0, 0, 0]
  lexTransCode := [1, 0]
  lexCheckCode := [0, 0]
  lexCode := [0xff, 2, 0xff, 0xff] ++ tagCode

/-- One token; the second cell holds its start. -/
def oneToken (tokens : List Token) : Option Entry :=
  if tokens = [] then some ⟨0, some (3, [.set 1])⟩ else none

def smallRuntime : Runtime where
  create n := List.replicate n 0
  length_create := by simp
  maxStringLength := 4096

/-- The bytes 0 and 1 at once. -/
def atOnce : Reader := [⟨[0, 1], by decide⟩]

/-- The bytes 0 and 1, one after the other. -/
def oneByOne : Reader := [⟨[0], by decide⟩, ⟨[1], by decide⟩]

theorem zeroTables_separated {state pcOff : Nat}
    (h : ushort (zeroTables [0, 1, 0xff]).lexBacktrkCode state = .ok pcOff) :
    Separated 1 ((zeroTables [0, 1, 0xff]).lexCode.drop pcOff) := by
  match state with
  | 0 =>
    obtain rfl := Except.ok.inj h
    exact .inl rfl
  | 1 =>
    obtain rfl := Except.ok.inj h
    exact .inr ⟨by decide, .inr (by decide), trivial⟩
  | _ + 2 => cases h

theorem lexes_iff_of_contents_eq_zeroTables :
    atOnce.contents = oneByOne.contents ∧ ∀ out,
      Lexes smallRuntime (zeroTables [0, 1, 0xff]) oneToken true atOnce out ↔
        Lexes smallRuntime (zeroTables [0, 1, 0xff]) oneToken true oneByOne out :=
  ⟨rfl, lexes_iff_of_contents_eq _ _ _ _ _ _ _ rfl
    (fun _ _ _ _ => tagsIdempotent_of_separated fun _ _ h => ⟨1, zeroTables_separated h⟩)
    (.inl (by decide)) (.inl (by decide))⟩

/-- The token for the byte 0, with these memory cells. -/
def zeroToken (mem : List Int) : Token :=
  ⟨0, [0], 0, 1, mem, some zeroPos, some { zeroPos with posCnum := 1 }⟩

/-- The tag code `m0 <- m1; m1 <- m2` is run once when the input arrives at once, and twice when a
refill follows the first byte. Then the first cell ends with what was in the third one. -/
theorem not_lexes_iff_shifting_tags :
    atOnce.contents = oneByOne.contents ∧
    atOnce.contents.length ≤ smallRuntime.maxStringLength ∧
    Lexes smallRuntime (zeroTables [0, 1, 1, 2, 0xff]) oneToken true atOnce
      ⟨[zeroToken [0, 1, 1]], none⟩ ∧
    ¬ Lexes smallRuntime (zeroTables [0, 1, 1, 2, 0xff]) oneToken true oneByOne
      ⟨[zeroToken [0, 1, 1]], none⟩ := by
  have h : Lexes smallRuntime (zeroTables [0, 1, 1, 2, 0xff]) oneToken true oneByOne
      ⟨[zeroToken [1, 1, 1]], none⟩ := ⟨10, by decide +kernel⟩
  refine ⟨rfl, by decide, ⟨10, by decide +kernel⟩, fun h' => ?_⟩
  exact absurd (h'.unique h) (by decide)

end TravLang.Lexing
