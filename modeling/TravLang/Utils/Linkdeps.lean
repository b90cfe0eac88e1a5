import Mathlib.Data.Finset.Insert
import Mathlib.Data.List.AList
import TravLang.Stdlib.Bytes

/-!
# Dependencies between linked units (`utils/linkdeps.ml`)

The linker calls `add` for each unit in the order of the command line and then asks `check`
whether the units can be linked in this order.

The three hash tables are only used through `find`, `replace`, `remove` and `to_seq`, so they are
association lists with one binding for a key; nothing is said about the order of `to_seq`. An
entry is only made by an addition to it, which is a part of its type.
-/

namespace TravLang.Linkdeps

open List

abbrev Compunit := Bytes

abbrev Filename := Bytes

structure CompunitAndSource where
  compunit : Compunit
  filename : Filename
  deriving DecidableEq

abbrev Refs := { s : Finset CompunitAndSource // s.Nonempty }

abbrev Filenames := { l : List Filename // l ≠ [] }

abbrev Table (κ β : Type) := AList fun _ : κ => β

structure T where
  complete : Bool
  missingCompunits : Table Compunit Refs
  providedCompunits : Table Compunit Filenames
  badlyOrderedDeps : Table CompunitAndSource Refs

inductive Error where
  | missingImplementations (l : List (Compunit × Finset CompunitAndSource))
  | wrongLinkOrder (l : List (CompunitAndSource × Finset CompunitAndSource))
  | multipleDefinitions (l : List (Compunit × List Filename))
  deriving DecidableEq

def create (complete : Bool) : T where
  complete
  missingCompunits := ∅
  providedCompunits := ∅
  badlyOrderedDeps := ∅

def update {κ β : Type} [DecidableEq κ] (t : Table κ β) (k : κ) (f : Option β → β) : Table κ β :=
  t.insert k (f (t.lookup k))

/-- The function `add` in `add_required`. -/
def addRef (user : CompunitAndSource) (s : Option Refs) : Refs :=
  ⟨insert user ((s.map Subtype.val).getD ∅), Finset.insert_nonempty _ _⟩

def addRequired (user : CompunitAndSource) (t : T) (name : Compunit) : T :=
  let t :=
    match t.providedCompunits.lookup name with
    | some files =>
      let filename := files.1.head files.2
      { t with
        badlyOrderedDeps :=
          update t.badlyOrderedDeps { compunit := name, filename } (addRef user) }
    | none => t
  { t with missingCompunits := update t.missingCompunits name (addRef user) }

/-- The function that `add` applies to each provided unit. -/
def addProvided (filename : Filename) (t : T) (p : Compunit) : T :=
  let l := ((t.providedCompunits.lookup p).map Subtype.val).getD []
  { t with
    missingCompunits := t.missingCompunits.erase p
    providedCompunits := t.providedCompunits.insert p ⟨filename :: l, cons_ne_nil _ _⟩ }

/-- The arguments of a call of `add`. -/
structure Call where
  filename : Filename
  compunit : Compunit
  provides : List Compunit
  requires : List Compunit

def Call.user (c : Call) : CompunitAndSource := { compunit := c.compunit, filename := c.filename }

def add (t : T) (c : Call) : T :=
  let t := c.requires.foldl (addRequired c.user) t
  c.provides.foldl (addProvided c.filename) t

def toSeq {κ β : Type} (t : Table κ β) : List (κ × β) := t.entries.map fun e => (e.1, e.2)

/-- The function `of_seq` in `check`; a set stands for the list of its elements. -/
def ofSeq {κ : Type} (s : List (κ × Refs)) : List (κ × Finset CompunitAndSource) :=
  s.map fun e => (e.1, e.2.1)

def duplicated (t : T) : List (Compunit × List Filename) :=
  ((toSeq t.providedCompunits).map fun e => (e.1, e.2.1)).filter fun e => e.2.length > 1

def check (t : T) : Option Error :=
  let missing := ofSeq (toSeq t.missingCompunits)
  let badlyOrderedDeps := ofSeq (toSeq t.badlyOrderedDeps)
  match duplicated t, badlyOrderedDeps, missing with
  | [], [], [] => none
  | [], [], l => if t.complete then some (.missingImplementations l) else none
  | [], l, _ => some (.wrongLinkOrder l)
  | l, _, _ => some (.multipleDefinitions l)

def run (complete : Bool) (calls : List Call) : T := calls.foldl add (create complete)

/-! ## Tables -/

section Table

variable {κ β : Type} [DecidableEq κ] {t : Table κ β}

theorem mem_toSeq {k : κ} {v : β} : (k, v) ∈ toSeq t ↔ t.lookup k = some v := by
  rw [← Option.mem_def, AList.mem_lookup_iff, toSeq, mem_map]
  constructor
  · rintro ⟨e, he, heq⟩
    cases heq
    exact he
  · exact fun h => ⟨_, h, rfl⟩

theorem toSeq_eq_nil : toSeq t = [] ↔ ∀ k, t.lookup k = none := by
  simp only [eq_nil_iff_forall_not_mem, Prod.forall, mem_toSeq,
    Option.eq_none_iff_forall_ne_some]

omit [DecidableEq κ] in
theorem map_fst_toSeq_nodup : ((toSeq t).map Prod.fst).Nodup := by
  have h : (toSeq t).map Prod.fst = t.keys := by
    simp [toSeq, AList.keys, List.keys]
  rw [h]
  exact t.keys_nodup

theorem lookup_update (k k' : κ) (f : Option β → β) :
    (update t k f).lookup k' = if k' = k then some (f (t.lookup k)) else t.lookup k' := by
  split_ifs with h
  · rw [h, update, AList.lookup_insert]
  · rw [update, AList.lookup_insert_ne h]

end Table

/-! ## One call -/

/-- The unit `user` is waiting for an implementation of `name`. -/
def Waiting (t : T) (name : Compunit) (user : CompunitAndSource) : Prop :=
  ∃ refs, t.missingCompunits.lookup name = some refs ∧ user ∈ refs.1

/-- How often `name` has been provided. -/
def provisions (t : T) (name : Compunit) : Nat :=
  ((t.providedCompunits.lookup name).map fun files => files.1.length).getD 0

variable {t : T} {calls : List Call}

theorem provisions_eq_zero {name : Compunit} :
    provisions t name = 0 ↔ t.providedCompunits.lookup name = none := by
  cases h : t.providedCompunits.lookup name with
  | none => simp [provisions, h]
  | some files => simp [provisions, h, files.2]

theorem waiting_addRequired (user u : CompunitAndSource) (t : T) (name n : Compunit) :
    Waiting (addRequired user t name) n u ↔ Waiting t n u ∨ n = name ∧ u = user := by
  have hmissing : (addRequired user t name).missingCompunits =
      update t.missingCompunits name (addRef user) := by
    unfold addRequired
    split <;> rfl
  rw [Waiting, hmissing, lookup_update]
  by_cases h : n = name
  · subst h
    cases hn : t.missingCompunits.lookup n <;> simp [Waiting, hn, addRef, or_comm]
  · simp [Waiting, h]

@[simp] theorem provisions_addRequired (user : CompunitAndSource) (t : T) (name n : Compunit) :
    provisions (addRequired user t name) n = provisions t n := by
  unfold addRequired
  split <;> rfl

theorem ordered_addRequired (user : CompunitAndSource) (t : T) (name : Compunit) :
    toSeq (addRequired user t name).badlyOrderedDeps = [] ↔
      toSeq t.badlyOrderedDeps = [] ∧ provisions t name = 0 := by
  rw [provisions_eq_zero, addRequired]
  cases t.providedCompunits.lookup name with
  | none => simp
  | some files =>
    simp only [toSeq_eq_nil, lookup_update, reduceCtorEq, and_false, iff_false]
    intro h
    simpa using h { compunit := name, filename := files.1.head files.2 }

theorem waiting_addProvided (filename : Filename) (u : CompunitAndSource) (t : T)
    (p n : Compunit) :
    Waiting (addProvided filename t p) n u ↔ n ≠ p ∧ Waiting t n u := by
  simp only [Waiting, addProvided]
  by_cases h : n = p
  · subst h
    simp
  · simp [h]

theorem provisions_addProvided (filename : Filename) (t : T) (p n : Compunit) :
    provisions (addProvided filename t p) n = provisions t n + if p = n then 1 else 0 := by
  simp only [provisions, addProvided]
  by_cases h : p = n
  · subst h
    cases t.providedCompunits.lookup p <;> simp
  · simp [AList.lookup_insert_ne (Ne.symm h), h]

/-- What the requirements of a call do. -/
theorem foldl_addRequired (user : CompunitAndSource) : ∀ (requires : List Compunit) (t : T),
    (∀ n u, Waiting (requires.foldl (addRequired user) t) n u ↔
      Waiting t n u ∨ n ∈ requires ∧ u = user) ∧
    (∀ n, provisions (requires.foldl (addRequired user) t) n = provisions t n) ∧
    (toSeq (requires.foldl (addRequired user) t).badlyOrderedDeps = [] ↔
      toSeq t.badlyOrderedDeps = [] ∧ ∀ n ∈ requires, provisions t n = 0)
  | [], t => by simp
  | name :: requires, t => by
    obtain ⟨hwaiting, hprovisions, hordered⟩ :=
      foldl_addRequired user requires (addRequired user t name)
    refine ⟨fun n u => ?_, fun n => ?_, ?_⟩
    · rw [foldl_cons, hwaiting, waiting_addRequired, mem_cons]
      tauto
    · rw [foldl_cons, hprovisions, provisions_addRequired]
    · rw [foldl_cons, hordered, ordered_addRequired]
      simp [and_assoc]

/-- What the provisions of a call do. -/
theorem foldl_addProvided (filename : Filename) : ∀ (provides : List Compunit) (t : T),
    (∀ n u, Waiting (provides.foldl (addProvided filename) t) n u ↔
      n ∉ provides ∧ Waiting t n u) ∧
    (∀ n, provisions (provides.foldl (addProvided filename) t) n =
      provisions t n + provides.count n) ∧
    (provides.foldl (addProvided filename) t).badlyOrderedDeps = t.badlyOrderedDeps
  | [], t => by simp
  | p :: provides, t => by
    obtain ⟨hwaiting, hprovisions, hordered⟩ :=
      foldl_addProvided filename provides (addProvided filename t p)
    refine ⟨fun n u => ?_, fun n => ?_, hordered⟩
    · rw [foldl_cons, hwaiting, waiting_addProvided, mem_cons, not_or]
      tauto
    · rw [foldl_cons, hprovisions, provisions_addProvided, count_cons]
      simp only [beq_iff_eq]
      omega

/-! ## All calls -/

/-- A call that requires `name` for `user`, such that neither this call nor a later one provides
it. -/
def Unprovided (calls : List Call) (name : Compunit) (user : CompunitAndSource) : Prop :=
  ∃ before c after, calls = before ++ c :: after ∧
    name ∈ c.requires ∧ name ∉ (c :: after).flatMap Call.provides ∧ user = c.user

/-- A call that requires a name that an earlier one provides. -/
def Misordered (calls : List Call) : Prop :=
  ∃ before c after, calls = before ++ c :: after ∧
    ∃ name ∈ c.requires, name ∈ before.flatMap Call.provides

theorem exists_split_concat {α : Type} {l : List α} {x : α} {P : List α → α → List α → Prop} :
    (∃ before c after, l ++ [x] = before ++ c :: after ∧ P before c after) ↔
      P l x [] ∨ ∃ before c after, l = before ++ c :: after ∧ P before c (after ++ [x]) := by
  constructor
  · rintro ⟨before, c, after, heq, h⟩
    rcases eq_nil_or_concat after with rfl | ⟨after, y, rfl⟩
    · obtain ⟨rfl, hx⟩ := List.append_inj' heq rfl
      cases hx
      exact .inl h
    · rw [concat_eq_append] at heq h
      rw [← cons_append, ← append_assoc] at heq
      obtain ⟨rfl, hx⟩ := List.append_inj' heq rfl
      cases hx
      exact .inr ⟨before, c, after, rfl, h⟩
  · rintro (h | ⟨before, c, after, rfl, h⟩)
    · exact ⟨l, x, [], rfl, h⟩
    · exact ⟨before, c, after ++ [x], by simp, h⟩

theorem unprovided_concat {c : Call} {n : Compunit} {u : CompunitAndSource} :
    Unprovided (calls ++ [c]) n u ↔
      n ∉ c.provides ∧ (Unprovided calls n u ∨ n ∈ c.requires ∧ u = c.user) := by
  simp only [Unprovided, exists_split_concat, ← cons_append, flatMap_append,
    mem_append, flatMap_singleton, not_or]
  constructor
  · rintro (h | ⟨before, d, after, heq, hreq, ⟨hd, hc⟩, hu⟩)
    · exact ⟨h.2.1, .inr ⟨h.1, h.2.2⟩⟩
    · exact ⟨hc, .inl ⟨before, d, after, heq, hreq, hd, hu⟩⟩
  · rintro ⟨hc, ⟨before, d, after, heq, hreq, hd, hu⟩ | h⟩
    · exact .inr ⟨before, d, after, heq, hreq, ⟨hd, hc⟩, hu⟩
    · exact .inl ⟨h.1, hc, h.2⟩

theorem misordered_concat {c : Call} :
    Misordered (calls ++ [c]) ↔
      Misordered calls ∨ ∃ n ∈ c.requires, n ∈ calls.flatMap Call.provides := by
  simp only [Misordered, exists_split_concat, or_comm]

/-- The tables after some calls. -/
structure Tracks (calls : List Call) (t : T) : Prop where
  waiting : ∀ n u, Waiting t n u ↔ Unprovided calls n u
  provisions_eq : ∀ n, provisions t n = (calls.flatMap Call.provides).count n
  ordered : toSeq t.badlyOrderedDeps = [] ↔ ¬Misordered calls

theorem Tracks.add (h : Tracks calls t) (c : Call) : Tracks (calls ++ [c]) (add t c) := by
  obtain ⟨hwaiting, hprovisions, hordered⟩ := foldl_addRequired c.user c.requires t
  obtain ⟨hwaiting', hprovisions', hordered'⟩ :=
    foldl_addProvided c.filename c.provides (c.requires.foldl (addRequired c.user) t)
  refine ⟨fun n u => ?_, fun n => ?_, ?_⟩
  · rw [Linkdeps.add, hwaiting', hwaiting, h.waiting, unprovided_concat]
  · rw [Linkdeps.add, hprovisions', hprovisions, h.provisions_eq, flatMap_append,
      count_append, flatMap_singleton]
  · rw [Linkdeps.add, hordered', hordered, h.ordered, misordered_concat]
    simp only [h.provisions_eq, List.count_eq_zero, not_or, not_exists, not_and]

/-- **What the tables hold after any calls.** -/
theorem tracks_run (complete : Bool) (calls : List Call) : Tracks calls (run complete calls) := by
  induction calls using List.reverseRecOn with
  | nil =>
    refine ⟨fun n u => ?_, fun n => ?_, ?_⟩
    · simp [run, create, Waiting, Unprovided]
    · simp [run, create, provisions]
    · simp [run, create, toSeq, Misordered]
  | append_singleton calls c ih =>
    rw [run, foldl_concat]
    exact ih.add c

theorem run_complete (complete : Bool) (calls : List Call) :
    (run complete calls).complete = complete := by
  have hrequired : ∀ (user : CompunitAndSource) (t : T) (name : Compunit),
      (addRequired user t name).complete = t.complete := by
    intro user t name
    unfold addRequired
    split <;> rfl
  have hadd : ∀ (t : T) (c : Call), (add t c).complete = t.complete := by
    intro t c
    rw [add, List.foldlRecOn (motive := fun s : T => s.complete = t.complete)]
    · exact List.foldlRecOn (motive := fun s : T => s.complete = t.complete) _ _ rfl
        fun s hs name _ => (hrequired _ s name).trans hs
    · exact fun s hs p _ => hs
  exact List.foldlRecOn (motive := fun s : T => s.complete = complete) _ _ rfl
    fun s hs c _ => (hadd s c).trans hs

/-! ## The answer -/

theorem duplicated_eq_nil (h : Tracks calls t) :
    duplicated t = [] ↔ (calls.flatMap Call.provides).Nodup := by
  simp only [duplicated, nodup_iff_count_le_one, ← h.provisions_eq, filter_eq_nil_iff,
    forall_mem_map, decide_eq_true_eq, Nat.not_lt, gt_iff_lt]
  constructor
  · intro hle n
    cases hn : t.providedCompunits.lookup n with
    | none => simp [provisions, hn]
    | some files => simpa [provisions, hn] using hle (n, files) (mem_toSeq.mpr hn)
  · rintro hle ⟨n, files⟩ hmem
    simpa [provisions, mem_toSeq.mp hmem] using hle n

theorem missing_eq_nil (h : Tracks calls t) :
    toSeq t.missingCompunits = [] ↔ ∀ n u, ¬Unprovided calls n u := by
  simp only [toSeq_eq_nil, ← h.waiting]
  constructor
  · rintro hnone n u ⟨refs, hrefs, -⟩
    rw [hnone n] at hrefs
    cases hrefs
  · intro hnone n
    cases hn : t.missingCompunits.lookup n with
    | none => rfl
    | some refs =>
      obtain ⟨u, hu⟩ := refs.2
      exact absurd ⟨refs, hn, hu⟩ (hnone n u)

/-- The units can be linked in the order of the calls. -/
def Linkable (calls : List Call) : Prop :=
  (calls.flatMap Call.provides).Nodup ∧
  ∀ before c after, calls = before ++ c :: after → ∀ name ∈ c.requires,
    name ∈ (c :: after).flatMap Call.provides ∧ name ∉ before.flatMap Call.provides

theorem linkable_iff :
    Linkable calls ↔ (calls.flatMap Call.provides).Nodup ∧ ¬Misordered calls ∧
      ∀ n u, ¬Unprovided calls n u := by
  constructor
  · rintro ⟨hnodup, h⟩
    refine ⟨hnodup, ?_, ?_⟩
    · rintro ⟨before, c, after, heq, name, hreq, hbefore⟩
      exact (h before c after heq name hreq).2 hbefore
    · rintro n u ⟨before, c, after, heq, hreq, hnot, -⟩
      exact hnot (h before c after heq n hreq).1
  · rintro ⟨hnodup, hordered, hprovided⟩
    refine ⟨hnodup, fun before c after heq name hreq => ⟨?_, ?_⟩⟩
    · by_contra hnot
      exact hprovided name c.user ⟨before, c, after, heq, hreq, hnot, rfl⟩
    · exact fun hbefore => hordered ⟨before, c, after, heq, name, hreq, hbefore⟩

theorem check_eq_none (h : t.complete = true) :
    check t = none ↔ duplicated t = [] ∧ toSeq t.badlyOrderedDeps = [] ∧
      toSeq t.missingCompunits = [] := by
  rw [check]
  cases duplicated t <;> cases toSeq t.badlyOrderedDeps <;> cases toSeq t.missingCompunits <;>
    simp [ofSeq, h]

theorem eq_of_check_eq_missing {l : List (Compunit × Finset CompunitAndSource)}
    (h : check t = some (.missingImplementations l)) : l = ofSeq (toSeq t.missingCompunits) := by
  rw [check] at h
  split at h
  · cases h
  · split_ifs at h
    cases h
    rfl
  · cases h
  · cases h

/-- **`check` accepts exactly the calls in link order, and reports exactly the names that are
required and not provided at that point or later**, each with the units that wait for it. -/
theorem check_run (calls : List Call) :
    (check (run true calls) = none ↔ Linkable calls) ∧
    ∀ l, check (run true calls) = some (.missingImplementations l) →
      (l.map Prod.fst).Nodup ∧
      (∀ name, name ∈ l.map Prod.fst ↔ ∃ user, Unprovided calls name user) ∧
      ∀ name refs, (name, refs) ∈ l → ∀ user, user ∈ refs ↔ Unprovided calls name user := by
  have h := tracks_run true calls
  constructor
  · rw [check_eq_none (run_complete true calls), linkable_iff, duplicated_eq_nil h, h.ordered,
      missing_eq_nil h]
  · rintro l hl
    obtain rfl := eq_of_check_eq_missing hl
    have hfst : (ofSeq (toSeq (run true calls).missingCompunits)).map Prod.fst =
        (toSeq (run true calls).missingCompunits).map Prod.fst := by
      simp [ofSeq]
    refine ⟨hfst ▸ map_fst_toSeq_nodup, fun name => ?_, ?_⟩
    · simp only [hfst, ← h.waiting, Waiting, mem_map, Prod.exists, exists_and_right,
        exists_eq_right, mem_toSeq]
      constructor
      · rintro ⟨refs, hrefs⟩
        obtain ⟨u, hu⟩ := refs.2
        exact ⟨u, refs, hrefs, hu⟩
      · rintro ⟨u, refs, hrefs, -⟩
        exact ⟨refs, hrefs⟩
    · rintro name refs hmem user
      obtain ⟨⟨n, r⟩, hr, heq⟩ := mem_map.mp hmem
      cases heq
      rw [← h.waiting, Waiting, mem_toSeq.mp hr]
      simp

theorem check_run_missing :
    ∃ user, Unprovided [⟨[1], [65], [[65]], [[66], [67]]⟩, ⟨[1], [67], [[67]], []⟩] [66] user :=
  (((check_run [⟨[1], [65], [[65]], [[66], [67]]⟩, ⟨[1], [67], [[67]], []⟩]).2
    [([66], {⟨[65], [1]⟩})] (by decide)).2.1 [66]).mp (by decide)

end TravLang.Linkdeps
