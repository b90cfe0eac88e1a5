import TravLang.Runtime.Compare.Basic

/-!
# Comparison with a list of pairs

The stack of `do_compare_val` holds blocks whose first fields have been compared. It stands for the
list of the pairs of fields that are left, and so the machine simulates one that takes a pair of
values from a list, and puts the pairs of their fields in its place. The simulation excuses the lack
of memory for a larger stack and the exceptions of pending actions.
-/

namespace TravLang.Runtime.Compare

open Result List

variable {host : Host} {heap : Heap CustomOps} {sys : System} {total : Bool}
  {o : Obj Value CustomOps} {v v1 v2 : Value} {item : CompareItem} {s : State} {r : Except Exn Int}

/-- Compare the first pair of a list. -/
def workStep (host : Host) (heap : Heap CustomOps) (sys : System) (total : Bool) :
    List (Value × Value) → List (Value × Value) ⊕ Except Exn Int
  | [] => .inr (.ok EQUAL)
  | (v1, v2) :: rest =>
    match compareValues host heap sys total v1 v2 with
    | .error e => .inr (.error e)
    | .ok (.returns r) => .inr (.ok r)
    | .ok .nextItem => .inl rest
    | .ok (.continues v1 v2) => .inl ((v1, v2) :: rest)
    | .ok (.fields fields1 fields2) => .inl (fields1.zip fields2 ++ rest)

def fieldsOf (heap : Heap CustomOps) (v : Value) : List Value :=
  match heap.obj v with
  | some o => o.fields
  | none => []

theorem fieldsOf_eq (h : heap.obj v = some o) :
    fieldsOf heap v = o.fields := by
  simp only [fieldsOf, h]

theorem field_eq {u : Value} {i : Nat} (h : (fieldsOf heap v)[i]? = some u) :
    field heap v i = .ok u := by
  unfold fieldsOf at h
  split at h
  · next o ho => simp only [field, ho, h]
  · cases h

theorem blockOf_eq_ok (h : blockOf heap v = .ok o) :
    heap.obj v = some o := by
  unfold blockOf at h
  split at h
  · next o' ho =>
    cases h
    exact ho
  · cases h

/-! ## When fields are compared -/

/-- The fields to be compared next, if any, are those of two blocks of the same size. -/
def Next.FieldsOf (fields1 fields2 : List Value) : Next → Prop
  | .fields fs1 fs2 => fs1 = fields1 ∧ fs2 = fields2 ∧ fs1.length = fs2.length ∧ 0 < fs1.length
  | _ => True

section FieldsOf

variable {fields1 fields2 : List Value} {v1 v2 : Value} {o1 o2 : Obj Value CustomOps} {next : Next}
  {t1 : Nat}

theorem callCompare_fieldsOf {f : Nat} (h : callCompare host sys total f v1 v2 = .ok next) :
    next.FieldsOf fields1 fields2 := by
  obtain ⟨⟨res, unordered⟩, -, h⟩ := bind_eq_ok.mp h
  dsimp only at h
  split at h
  · cases h
    trivial
  · split at h <;> (cases h; trivial)

theorem compareStrings_fieldsOf (s1 s2 : Bytes) :
    (compareStrings host s1 s2).FieldsOf fields1 fields2 := by
  unfold compareStrings
  dsimp only
  repeat' split
  all_goals trivial

theorem compareDoubles_fieldsOf (d1 d2 : UInt64) :
    (compareDoubles host total d1 d2).FieldsOf fields1 fields2 := by
  unfold compareDoubles
  repeat' split
  all_goals trivial

theorem compareDoubleArrays_fieldsOf : ∀ ds1 ds2 : List UInt64,
    (compareDoubleArrays host total ds1 ds2).FieldsOf fields1 fields2
  | [], _ => trivial
  | _ :: _, [] => trivial
  | d1 :: ds1, d2 :: ds2 => by
    rw [compareDoubleArrays]
    split
    · exact compareDoubleArrays_fieldsOf ds1 ds2
    · exact compareDoubles_fieldsOf d1 d2

theorem compareCustom_fieldsOf {ops1 ops2 : CustomOps}
    (h : compareCustom host sys total v1 v2 ops1 ops2 = .ok next) :
    next.FieldsOf fields1 fields2 := by
  unfold compareCustom at h
  split at h
  · cases h
    trivial
  · split at h
    · cases h
    · exact callCompare_fieldsOf h

theorem compareStructured_fieldsOf {tag1 tag2 : Nat} {fs1 fs2 : List Value}
    (h : compareStructured host t1 (.structured tag1 fs1) (.structured tag2 fs2) = .ok next) :
    next.FieldsOf fs1 fs2 := by
  unfold compareStructured at h
  split at h
  · obtain ⟨w1, -, h⟩ := bind_eq_ok.mp h
    obtain ⟨w2, -, h⟩ := bind_eq_ok.mp h
    cases h
    trivial
  · split at h
    · cases h
    split at h
    · cases h
    split at h
    · obtain ⟨n1, -, h⟩ := bind_eq_ok.mp h
      obtain ⟨n2, -, h⟩ := bind_eq_ok.mp h
      cases h
      split <;> trivial
    · -- the default case
      dsimp only [Obj.wosize, Obj.fields] at h
      split at h
      · cases h
        trivial
      · next hlen =>
        split at h
        · cases h
          trivial
        · next hpos =>
          cases h
          exact ⟨rfl, rfl, not_not.mp hlen, Nat.pos_of_ne_zero hpos⟩

theorem compareSameTag_fieldsOf (h : compareSameTag host sys total t1 v1 v2 o1 o2 = .ok next) :
    next.FieldsOf o1.fields o2.fields := by
  unfold compareSameTag at h
  split at h
  · cases h
    split
    · trivial
    · exact compareStrings_fieldsOf _ _
  · cases h
    exact compareDoubles_fieldsOf _ _
  · split at h
    · cases h
      trivial
    · cases h
      exact compareDoubleArrays_fieldsOf _ _
  · cases h
  · exact compareCustom_fieldsOf h
  · split at h
    · exact compareStructured_fieldsOf h
    · cases h
  · cases h

theorem compareBlocks_fieldsOf (h : compareBlocks host sys total v1 v2 o1 o2 = .ok next) :
    next.FieldsOf o1.fields o2.fields := by
  unfold compareBlocks at h
  dsimp only at h
  split at h
  · split at h
    · obtain ⟨w, -, h⟩ := bind_eq_ok.mp h
      cases h
      trivial
    · split at h
      · obtain ⟨w, -, h⟩ := bind_eq_ok.mp h
        cases h
        trivial
      · split at h
        · cases h
          trivial
        · exact compareSameTag_fieldsOf h
  · exact compareSameTag_fieldsOf h

theorem compareLong_fieldsOf
    (h : compareLongBlock host sys total v1 v2 o = .ok next ∨
      compareBlockLong host sys total v1 v2 o = .ok next) : next.FieldsOf fields1 fields2 := by
  unfold compareLongBlock compareBlockLong at h
  rcases h with h | h
  all_goals
    split at h
    · obtain ⟨w, -, h⟩ := bind_eq_ok.mp h
      cases h
      trivial
    · split at h
      · exact callCompare_fieldsOf h
      · cases h
        trivial

theorem compareValues_fieldsOf (h : compareValues host heap sys total v1 v2 = .ok next) :
    next.FieldsOf (fieldsOf heap v1) (fieldsOf heap v2) := by
  unfold compareValues at h
  split at h
  · cases h
    trivial
  · split at h
    · split at h <;> (cases h; trivial)
    · obtain ⟨o, -, h⟩ := bind_eq_ok.mp h
      exact compareLong_fieldsOf (.inl h)
    · obtain ⟨o, -, h⟩ := bind_eq_ok.mp h
      exact compareLong_fieldsOf (.inr h)
    · obtain ⟨o1, ho1, h⟩ := bind_eq_ok.mp h
      obtain ⟨o2, ho2, h⟩ := bind_eq_ok.mp h
      rw [fieldsOf_eq (blockOf_eq_ok ho1), fieldsOf_eq (blockOf_eq_ok ho2)]
      exact compareBlocks_fieldsOf h

end FieldsOf

/-! ## The stack and the pairs that it stands for -/

/-- The pairs of fields that an item of the stack stands for. -/
def CompareItem.pairs (heap : Heap CustomOps) (item : CompareItem) : List (Value × Value) :=
  ((fieldsOf heap item.v1).drop item.offset).zip ((fieldsOf heap item.v2).drop item.offset)

structure CompareItem.Ok (heap : Heap CustomOps) (item : CompareItem) : Prop where
  offset_lt : item.offset < item.size
  size1 : (fieldsOf heap item.v1).length = item.size
  size2 : (fieldsOf heap item.v2).length = item.size

/-- The pairs that are left to be compared, after the current one. -/
def State.left (heap : Heap CustomOps) (s : State) : List (Value × Value) :=
  s.stack.flatMap (CompareItem.pairs heap)

def State.pairs (heap : Heap CustomOps) (s : State) : List (Value × Value) :=
  (s.v1, s.v2) :: s.left heap

def State.Ok (heap : Heap CustomOps) (s : State) : Prop := ∀ item ∈ s.stack, item.Ok heap

theorem CompareItem.Ok.get (h : item.Ok heap) :
    ∃ u1 u2, (fieldsOf heap item.v1)[item.offset]? = some u1 ∧
      (fieldsOf heap item.v2)[item.offset]? = some u2 ∧
      item.pairs heap = (u1, u2) :: { item with offset := item.offset + 1 }.pairs heap := by
  have h1 : item.offset < (fieldsOf heap item.v1).length := h.size1 ▸ h.offset_lt
  have h2 : item.offset < (fieldsOf heap item.v2).length := h.size2 ▸ h.offset_lt
  refine ⟨_, _, List.getElem?_eq_getElem h1, List.getElem?_eq_getElem h2, ?_⟩
  rw [CompareItem.pairs, drop_eq_getElem_cons h1, drop_eq_getElem_cons h2,
    zip_cons_cons]
  rfl

/-- After its last pair, nothing is left of an item. -/
theorem CompareItem.Ok.pairs_last (h : item.Ok heap) (hlast : item.offset + 1 = item.size) :
    { item with offset := item.offset + 1 }.pairs heap = [] := by
  rw [CompareItem.pairs, drop_of_length_le (by rw [h.size1]; exact Nat.le_of_eq hlast.symm)]
  rfl

/-- The code at `next_item` takes the next pair. -/
theorem nextItem_spec (h : s.Ok heap) :
    (s.left heap = [] ∧ nextItem heap s = .inr (.ok EQUAL)) ∨
    ∃ s', nextItem heap s = .inl s' ∧ s'.Ok heap ∧ s'.pairs heap = s.left heap := by
  unfold nextItem State.left
  split
  · next hs => exact .inl ⟨by rw [hs]; rfl, rfl⟩
  · next last stack hs =>
    have hlast : last.Ok heap := h last (hs ▸ mem_cons_self)
    have hstack : ∀ item ∈ stack, item.Ok heap := fun item hi =>
      h item (hs ▸ mem_cons_of_mem _ hi)
    obtain ⟨u1, u2, h1, h2, hpairs⟩ := hlast.get
    right
    rw [field_eq h1, field_eq h2, hs, flatMap_cons, hpairs]
    refine ⟨_, rfl, ?_, ?_⟩
    · intro item hi
      split at hi
      · exact hstack item hi
      · next hne =>
        rcases mem_cons.mp hi with rfl | hi
        · exact ⟨Nat.lt_of_le_of_ne hlast.offset_lt hne, hlast.size1, hlast.size2⟩
        · exact hstack item hi
    · unfold State.pairs State.left
      split
      · next heq => rw [hlast.pairs_last heq, cons_append, nil_append]
      · rw [flatMap_cons, cons_append]

theorem compareResizeStack_spec (sys : System) (s : State) :
    compareResizeStack sys s = .error .outOfMemory ∨
    ∃ allocated limit, compareResizeStack sys s = .ok { s with allocated, limit } := by
  unfold compareResizeStack
  generalize (if s.allocated then 2 * s.limit else compareStackMinAllocSize) = newsize
  dsimp only
  split
  · exact .inl rfl
  · split
    · exact .inr ⟨_, _, rfl⟩
    · exact .inl rfl

theorem pushItem_spec (sys : System) (s : State) (sz : Nat) :
    pushItem sys s sz = .error .outOfMemory ∨
    ∃ allocated limit, pushItem sys s sz = .ok { s with
      allocated, limit, stack := if sz > 1 then ⟨s.v1, s.v2, 1, sz⟩ :: s.stack else s.stack } := by
  unfold pushItem
  split
  · split
    · rcases compareResizeStack_spec sys s with herr | ⟨allocated, limit, hok⟩
      · exact .inl (by rw [herr]; rfl)
      · exact .inr ⟨allocated, limit, by rw [hok]; rfl⟩
    · exact .inr ⟨s.allocated, s.limit, rfl⟩
  · exact .inr ⟨s.allocated, s.limit, rfl⟩

/-- Two blocks are replaced by their fields. -/
theorem pushFields_spec (sys : System) (h : s.Ok heap) {sz : Nat}
    (h1 : (fieldsOf heap s.v1).length = sz) (h2 : (fieldsOf heap s.v2).length = sz)
    (hpos : 0 < sz) :
    pushFields heap sys s sz = .error .outOfMemory ∨
    ∃ s', pushFields heap sys s sz = .ok s' ∧ s'.Ok heap ∧
      s'.pairs heap = (fieldsOf heap s.v1).zip (fieldsOf heap s.v2) ++ s.left heap := by
  unfold pushFields
  rcases pushItem_spec sys s sz with herr | ⟨allocated, limit, hok⟩
  · exact .inl (by rw [herr]; rfl)
  right
  obtain ⟨u1, us1, hu1⟩ := exists_cons_of_length_pos (h1 ▸ hpos)
  obtain ⟨u2, us2, hu2⟩ := exists_cons_of_length_pos (h2 ▸ hpos)
  have hget1 : (fieldsOf heap s.v1)[0]? = some u1 := by rw [hu1]; rfl
  have hget2 : (fieldsOf heap s.v2)[0]? = some u2 := by rw [hu2]; rfl
  rw [hok, ok_bind, field_eq hget1, ok_bind, field_eq hget2, ok_bind]
  refine ⟨_, rfl, ?_, ?_⟩
  · intro item hi
    split at hi
    · next hsz =>
      rcases mem_cons.mp hi with rfl | hi
      · exact ⟨hsz, h1, h2⟩
      · exact h item hi
    · exact h item hi
  · unfold State.pairs State.left
    rw [hu1, hu2, zip_cons_cons, cons_append]
    split
    · rw [flatMap_cons, CompareItem.pairs, hu1, hu2]
      rfl
    · next hsz =>
      -- a single field
      have hus : us1 = [] := by
        rw [hu1, length_cons] at h1
        exact length_eq_zero_iff.mp (by omega)
      rw [hus, zip_nil_left, nil_append]

/-! ## Simulation -/

/-- Results that say nothing about the values: there is no memory for a larger stack, or a pending
action raised an exception. -/
def Interrupted (sys : System) (r : Except Exn Int) : Prop :=
  r = .error .outOfMemory ∨ ∃ n e, sys.pending n = some e ∧ r = .error (.raised e)

/-- The last round of the inner loop is the one that polls. -/
def State.rank (s : State) : Nat := if s.pollTimer - 1 > 0 then 0 else 1

/-- A round of the loop that compares does what the list of pairs does. -/
theorem compareStep_spec (h : s.Ok heap) (hpoll : s.pollTimer - 1 > 0) :
    (∃ s' w, compareStep host heap sys total s = .inl s' ∧ s'.Ok heap ∧
      workStep host heap sys total (s.pairs heap) = .inl w ∧ s'.pairs heap = w) ∨
    (∃ r, compareStep host heap sys total s = .inr r ∧
      (Interrupted sys r ∨ Machine.Halts (workStep host heap sys total) (s.pairs heap) r)) := by
  let s₀ : State := { s with pollTimer := s.pollTimer - 1 }
  have h₀ : s₀.Ok heap := h
  unfold compareStep
  rw [if_pos hpoll, State.pairs]
  cases hv : compareValues host heap sys total s.v1 s.v2 with
  | error e =>
    exact .inr ⟨_, rfl, .inr (Machine.halts_of_inr (by simp only [workStep, hv]))⟩
  | ok next =>
    cases next with
    | returns r => exact .inr ⟨_, rfl, .inr (Machine.halts_of_inr (by simp only [workStep, hv]))⟩
    | continues v1 v2 =>
      exact .inl ⟨_, (v1, v2) :: s.left heap, rfl, h, by simp only [workStep, hv], rfl⟩
    | nextItem =>
      have hwork : workStep host heap sys total ((s.v1, s.v2) :: s.left heap) =
          .inl (s.left heap) := by
        simp only [workStep, hv]
      rcases nextItem_spec h₀ with ⟨hnil, hitem⟩ | ⟨s', hitem, hs', hpairs⟩
      · refine .inr ⟨_, hitem, .inr (Machine.halts_of_inl hwork ?_)⟩
        rw [show s.left heap = [] from hnil]
        exact Machine.halts_of_inr rfl
      · exact .inl ⟨s', _, hitem, hs', hwork, hpairs⟩
    | fields fields1 fields2 =>
      obtain ⟨rfl, rfl, hlen, hpos⟩ := compareValues_fieldsOf hv
      have hwork : workStep host heap sys total ((s.v1, s.v2) :: s.left heap) =
          .inl ((fieldsOf heap s.v1).zip (fieldsOf heap s.v2) ++ s.left heap) := by
        simp only [workStep, hv]
      rcases pushFields_spec sys h₀ rfl hlen.symm hpos with herr | ⟨s', hok, hs', hpairs⟩
      · dsimp only [s₀] at herr
        dsimp only
        rw [herr]
        exact .inr ⟨_, rfl, .inl (.inl rfl)⟩
      · dsimp only [s₀] at hok
        dsimp only
        rw [hok]
        exact .inl ⟨s', _, rfl, hs', hwork, hpairs⟩

/-- **The machine with a stack simulates the one with a list.** -/
theorem simulation : Machine.Simulation (compareStep host heap sys total)
    (workStep host heap sys total) (fun s w => s.Ok heap ∧ s.pairs heap = w) (Interrupted sys)
    State.rank where
  advance := by
    rintro s s' _ ⟨h, rfl⟩ hstep
    by_cases hpoll : s.pollTimer - 1 > 0
    · rcases compareStep_spec h hpoll with ⟨s'', w, hs, hok, hw, hpairs⟩ | ⟨r, hr, -⟩
      · rw [hs] at hstep
        cases hstep
        exact ⟨w, ⟨hok, hpairs⟩, .inr (.single hw)⟩
      · rw [hr] at hstep
        cases hstep
    · unfold compareStep at hstep
      rw [if_neg hpoll, pollStep] at hstep
      split at hstep
      · cases hstep
      · cases hstep
        refine ⟨_, ⟨h, rfl⟩, .inl ⟨rfl, ?_⟩⟩
        rw [State.rank, State.rank, if_neg hpoll]
        exact Nat.zero_lt_one
  halt := by
    rintro s _ r ⟨h, rfl⟩ hstep
    by_cases hpoll : s.pollTimer - 1 > 0
    · rcases compareStep_spec h hpoll with ⟨s', w, hs, -⟩ | ⟨r', hr', hres⟩
      · rw [hs] at hstep
        cases hstep
      · rw [hr'] at hstep
        cases hstep
        exact hres
    · unfold compareStep at hstep
      rw [if_neg hpoll, pollStep] at hstep
      split at hstep
      · next e he =>
        cases hstep
        exact .inl (.inr ⟨s.polls, e, he, rfl⟩)
      · cases hstep

theorem initial_ok (v1 v2 : Value) :
    (initial v1 v2).Ok heap ∧ (initial v1 v2).pairs heap = [(v1, v2)] :=
  ⟨fun _ hi => absurd hi not_mem_nil, rfl⟩

/-- A result of `compare_val` is that of the list with one pair. -/
theorem halts_of_compareVal {fuel : Nat} (h : compareVal fuel host heap sys v1 v2 total = some r) :
    Interrupted sys r ∨ Machine.Halts (workStep host heap sys total) [(v1, v2)] r :=
  simulation.forward (initial_ok v1 v2) ⟨fuel, h⟩

theorem compareVal_of_halts (h : Machine.Halts (workStep host heap sys total) [(v1, v2)] r) :
    ∃ n r', (∀ fuel ≥ n, compareVal fuel host heap sys v1 v2 total = some r') ∧
      (Interrupted sys r' ∨ r' = r) := by
  obtain ⟨r', ⟨n, hn⟩, hr'⟩ := simulation.backward (initial_ok v1 v2) h
  exact ⟨n, r', fun fuel hfuel => Machine.run_mono hn hfuel, hr'⟩

end TravLang.Runtime.Compare
