import TravLang.Runtime.Hash.Basic

/-!
# The queue of `caml_hash`

The entries before `wr` have been written, and the others have not. There are at most
`HASH_QUEUE_SIZE` of them, whatever the limit, and so every access is to an entry of the array.
-/

namespace TravLang.Runtime.Hash

open Result List

variable {host : Host} {mem : Memory} {s : State} {vs : List Value}

/-- The queue holds the values `vs`. -/
structure Holds (s : State) (vs : List Value) : Prop where
  queue : s.queue = vs.map some ++ List.replicate (hashQueueSize - vs.length) none
  wr : s.wr = vs.length
  wr_le : vs.length ≤ hashQueueSize
  sz_le : s.sz ≤ hashQueueSize
  rd_le : s.rd ≤ vs.length

theorem Holds.read (h : Holds s vs) {i : Nat} {v : Value} (hv : vs[i]? = some v) :
    readQueue s.queue i = .ok v := by
  have hi : i < (vs.map some).length := by
    rw [length_map]
    exact (List.getElem?_eq_some_iff.mp hv).1
  have hget : s.queue[i]? = some (some v) := by
    rw [h.queue, List.getElem?_append_left hi, List.getElem?_map, hv]
    rfl
  simp only [readQueue, hget]

/-- A write to the first free entry. -/
theorem Holds.write (h : Holds s vs) (v : Value) (hlt : vs.length < hashQueueSize) :
    ∃ queue, writeQueue s.queue s.wr v = .ok queue ∧
      Holds { s with queue, wr := s.wr + 1 } (vs ++ [v]) := by
  obtain ⟨k, hk⟩ := Nat.exists_eq_add_of_lt hlt
  have hfree : hashQueueSize - vs.length = k + 1 := by omega
  have hqueue := h.queue
  rw [hfree, replicate_succ] at hqueue
  refine ⟨s.queue.set s.wr (some v), if_pos ?_, ?_, ?_, ?_, h.sz_le, ?_⟩
  · rw [h.wr, hqueue]
    simp
  · have hset : s.queue.set s.wr (some v) = vs.map some ++ some v :: List.replicate k none := by
      rw [hqueue, h.wr, set_append_right _ _ (by simp)]
      simp
    have hrest : hashQueueSize - (vs ++ [v]).length = k := by
      rw [length_append, length_singleton]
      omega
    rw [hset, hrest, map_append, append_assoc]
    rfl
  · rw [length_append, length_singleton, h.wr]
  · rw [length_append, length_singleton]
    exact hlt
  · rw [length_append]
    exact Nat.le_trans h.rd_le (Nat.le_add_right _ _)

/-- Fields are put at the end of the queue, as far as there is room. -/
theorem Holds.enqueue {s : State} {vs : List Value} (h : Holds s vs) :
    ∀ fields : List Value, ∃ s', enqueue fields s = .ok s' ∧
      Holds s' (vs ++ fields.take (s.sz - vs.length)) ∧
      s'.rd = s.rd ∧ s'.sz = s.sz ∧ s'.num = s.num ∧ s'.h = s.h
  | [] => ⟨s, rfl, by rwa [take_nil, append_nil], rfl, rfl, rfl, rfl⟩
  | v :: fields => by
    rw [Hash.enqueue]
    split
    · next hfull =>
      rw [h.wr] at hfull
      refine ⟨s, rfl, ?_, rfl, rfl, rfl, rfl⟩
      rwa [Nat.sub_eq_zero_of_le hfull, take_zero, append_nil]
    · next hroom =>
      rw [h.wr, Nat.not_le] at hroom
      obtain ⟨queue, hwrite, hqueue⟩ := h.write v (Nat.lt_of_lt_of_le hroom h.sz_le)
      obtain ⟨s', hs', hholds, hrd, hsz, hnum, hh⟩ := hqueue.enqueue fields
      rw [hwrite, ok_bind]
      refine ⟨s', hs', ?_, hrd, hsz, hnum, hh⟩
      have htake : s.sz - vs.length = s.sz - (vs ++ [v]).length + 1 := by
        rw [length_append, length_singleton]
        omega
      rw [htake, take_succ_cons]
      rwa [append_assoc] at hholds

theorem initial_holds (count limit seed : Int) (obj : Value) :
    ∃ s, initial count limit seed obj = .ok s ∧ Holds s [obj] ∧ s.rd = 0 ∧ s.num = count ∧
      s.h = UInt32.ofInt seed ∧
      s.sz = if limit < 0 ∨ limit > hashQueueSize then hashQueueSize else limit.toNat := by
  let sz := if limit < 0 ∨ limit > hashQueueSize then hashQueueSize else limit.toNat
  have hsz : sz ≤ hashQueueSize := by
    dsimp only [sz]
    split
    · exact Nat.le_refl _
    · omega
  -- the queue before it is written
  have hempty : Holds ⟨List.replicate hashQueueSize none, 0, 0, sz, count, UInt32.ofInt seed⟩ [] :=
    ⟨rfl, rfl, Nat.zero_le _, hsz, Nat.le_refl _⟩
  obtain ⟨queue, hwrite, hholds⟩ := hempty.write obj (by decide)
  refine ⟨_, ?_, hholds, rfl, rfl, rfl, rfl⟩
  unfold initial
  rw [hwrite, ok_bind]
  rfl

/-! ## All runs stay in the queue -/

/-- The queue is well formed before each step. -/
def After.Ok : After → Prop
  | .loop s => ∃ vs, Holds s vs
  | .again s _ => ∃ vs, Holds s vs

/-- A state that differs in the hash and the counter only. -/
theorem Holds.mixed (h : Holds s vs) (num : Int) (hash : UInt32) :
    Holds { s with num, h := hash } vs :=
  ⟨h.queue, h.wr, h.wr_le, h.sz_le, h.rd_le⟩

theorem hashDoubles_eq : ∀ (ds : List UInt64) (s : State), ∃ num hash,
    hashDoubles ds s = { s with num, h := hash }
  | [], s => ⟨s.num, s.h, rfl⟩
  | d :: ds, s => by
    rw [hashDoubles]
    split
    · exact ⟨_, _, rfl⟩
    · obtain ⟨num, hash, heq⟩ := hashDoubles_eq ds
        { s with h := camlHashMixDouble s.h d, num := s.num - 1 }
      exact ⟨num, hash, heq⟩

theorem hashWords_eq (host : Host) (mem : Memory) : ∀ (vs : List Value) (s : State), ∃ num hash,
    hashWords host mem vs s = { s with num, h := hash }
  | [], s => ⟨s.num, s.h, rfl⟩
  | v :: vs, s => by
    rw [hashWords]
    obtain ⟨num, hash, heq⟩ := hashWords_eq host mem vs
      { s with h := camlHashMixIntnat host s.h (word host mem v), num := s.num - 1 }
    exact ⟨num, hash, heq⟩

/-- What the code at `again` leads to: errors are not those of the queue. -/
def Stays : Except Exn After → Prop
  | .ok next => next.Ok
  | .error e => e = .badAccess

theorem hashForward_stays (heap : Heap CustomOps) (o : Obj Value CustomOps) (h : Holds s vs) :
    Stays (hashForward heap s o) := by
  have hderef : ∀ (i : Nat) (o : Obj Value CustomOps) (e : Exn),
      derefForward heap i o = .error e → e = .badAccess := by
    intro i
    induction i with
    | zero =>
      intro o e he
      cases he
    | succ i ih =>
      intro o e he
      rw [derefForward] at he
      split at he
      · cases he
        rfl
      · split at he
        · cases he
        · split at he
          · cases he
            rfl
          · split at he
            · cases he
            · exact ih _ _ he
  unfold hashForward
  cases hd : derefForward heap maxForwardDereference o with
  | error e => exact hderef _ _ _ hd
  | ok r =>
    cases r with
    | none => exact ⟨vs, h⟩
    | some v => exact ⟨vs, h⟩

theorem hashStructured_stays (v : Value) (tag : Nat) (o : Obj Value CustomOps) (h : Holds s vs) :
    Stays (hashStructured host mem s v tag o) := by
  unfold hashStructured
  split
  · split
    · exact ⟨vs, h.mixed _ _⟩
    · rfl
  · split
    · exact hashForward_stays _ _ h
    · split
      · split
        · exact ⟨vs, h.mixed _ _⟩
        · rfl
      · split
        · unfold hashClosure
          split
          · dsimp only
            split
            · obtain ⟨num, hash, heq⟩ := hashWords_eq host mem (o.fields.take _)
                { s with h := camlHashMixUint32 s.h _ }
              rw [heq]
              obtain ⟨s', hs', hholds, -⟩ := (h.mixed num hash).enqueue (o.fields.drop _)
              rw [hs']
              exact ⟨_, hholds⟩
            · rfl
          · rfl
        · split
          · exact ⟨vs, h⟩
          · obtain ⟨s', hs', hholds, -⟩ := (h.mixed s.num _).enqueue o.fields
            dsimp only
            rw [hs']
            exact ⟨_, hholds⟩

theorem hashValue_stays (host : Host) (mem : Memory) (v : Value) (h : Holds s vs) :
    Stays (hashValue host mem s v) := by
  unfold hashValue
  split
  · exact ⟨vs, h.mixed _ _⟩
  · split
    · rfl
    · split
      · exact ⟨vs, h.mixed _ _⟩
      · exact ⟨vs, h.mixed _ _⟩
      · obtain ⟨num, hash, heq⟩ := hashDoubles_eq _ s
        rw [heq]
        exact ⟨vs, h.mixed _ _⟩
      · exact ⟨vs, h⟩
      · split
        · exact ⟨vs, h.mixed _ _⟩
        · exact ⟨vs, h⟩
      · split
        · exact hashStructured_stays v _ _ h
        · rfl

/-- **No step leaves the queue**, from a state with a well-formed queue. -/
theorem hashStep_stays {next : After} (h : next.Ok) :
    (∃ next', hashStep host mem next = .inl next' ∧ next'.Ok) ∨
    ∃ r, hashStep host mem next = .inr r ∧ r ≠ .error .queueBounds := by
  cases next with
  | loop s =>
    obtain ⟨vs, h⟩ := h
    rw [hashStep]
    split
    · next hmore =>
      have hrd : s.rd < vs.length := h.wr ▸ hmore.1
      rw [h.read (List.getElem?_eq_getElem hrd)]
      exact .inl ⟨_, rfl, vs, ⟨h.queue, h.wr, h.wr_le, h.sz_le, hrd⟩⟩
    · exact .inr ⟨_, rfl, nofun⟩
  | again s v =>
    obtain ⟨vs, h⟩ := h
    have hstays := hashValue_stays host mem v h
    rw [hashStep]
    cases hv : hashValue host mem s v with
    | ok next' =>
      rw [hv] at hstays
      exact .inl ⟨next', rfl, hstays⟩
    | error e =>
      rw [hv] at hstays
      exact .inr ⟨_, rfl, by rw [show e = .badAccess from hstays]; nofun⟩

theorem run_stays {next : After} (h : next.Ok) (n : Nat) :
    Machine.run (hashStep host mem) n next ≠ some (.error .queueBounds) := by
  induction n generalizing next with
  | zero => nofun
  | succ n ih =>
    rw [Machine.run]
    rcases hashStep_stays h with ⟨next', hs, hok⟩ | ⟨r, hs, hne⟩
    · rw [hs]
      exact ih hok
    · rw [hs]
      exact fun heq => hne (Option.some.inj heq)

/-- **`caml_hash` stays in its queue**, on any value of any heap and with any limit. -/
theorem camlHash_stays (fuel : Nat) (count limit seed : Int) (obj : Value) :
    camlHash fuel host mem count limit seed obj ≠ some (.error .queueBounds) := by
  obtain ⟨s, hs, hholds, -⟩ := initial_holds count limit seed obj
  unfold camlHash
  rw [hs]
  exact run_stays (show (After.loop s).Ok from ⟨_, hholds⟩) fuel

end TravLang.Runtime.Hash
