import Mathlib.Data.Fintype.Order
import TravLang.Runtime.Mlvalues

/-!
# Graphs of values

What a value is, apart from the addresses of its blocks. Two values are the same if their graphs are
isomorphic; if there are no cycles, a value unfolds to a tree. An address has a block of the graph
or not; a block without contents is one of the atoms.
-/

namespace TravLang.Runtime

open List

/-- The blocks of a graph, under their addresses. -/
abbrev Graph (C : Type) := Nat → Option (Obj Value C)

variable {C : Type}

namespace Graph

/-- A value, with the atoms for the blocks without contents. -/
def view (host : Host) (g : Graph C) : Value → Value
  | .block a =>
    match g a with
    | some o => if o.wosize host = 0 then .atom o.tag else .block a
    | none => .block a
  | v => v

variable {g : Graph C} {host : Host} {a : Nat} {o : Obj Value C}

theorem view_empty (h : g a = some o) (hsize : o.wosize host = 0) :
    g.view host (.block a) = .atom o.tag := by
  simp only [view, h]
  rw [if_pos hsize]

theorem view_block (h : g a = some o) (hsize : o.wosize host ≠ 0) :
    g.view host (.block a) = .block a := by
  simp only [view, h]
  rw [if_neg hsize]

/-- Block `b` is in a field of block `a`. -/
def Points (host : Host) (g : Graph C) (a b : Nat) : Prop :=
  ∃ o u, g a = some o ∧ u ∈ o.fields ∧ g.view host u = .block b

/-- The blocks of the graph of a value. -/
inductive Reached (host : Host) (g : Graph C) (v : Value) : Nat → Prop where
  | root {a : Nat} : g.view host v = .block a → Reached host g v a
  | field {a b : Nat} : Reached host g v a → g.Points host a b → Reached host g v b

def Acyclic (host : Host) (g : Graph C) : Prop := ∀ a, ¬ Relation.TransGen (g.Points host) a a

end Graph

/-! ## Isomorphism -/

/-- The same value, when `φ` relates the blocks. -/
def SameView (φ : Nat → Nat → Prop) : Value → Value → Prop
  | .long n, .long n' => n = n'
  | .atom tag, .atom tag' => tag = tag'
  | .block a, .block b => φ a b
  | _, _ => False

/-- The same block, when `φ` relates the blocks of its fields. -/
def SameBlock (host : Host) (g g' : Graph C) (φ : Nat → Nat → Prop) :
    Obj Value C → Obj Value C → Prop
  | .structured tag fields, .structured tag' fields' => tag = tag' ∧
    List.Forall₂ (fun v v' => SameView φ (g.view host v) (g'.view host v')) fields fields'
  | .string s, .string s' => s = s'
  | .double d, .double d' => d = d'
  | .doubleArray ds, .doubleArray ds' => ds = ds'
  | _, _ => False

/-- A relation between the blocks of two graphs that is kept from a block to its fields. -/
structure Homomorphism (host : Host) (g g' : Graph C) (v v' : Value) (φ : Nat → Nat → Prop) :
    Prop where
  root : SameView φ (g.view host v) (g'.view host v')
  block : ∀ {a b}, φ a b → ∃ o o', g a = some o ∧ g' b = some o' ∧ SameBlock host g g' φ o o'

/-- A one-to-one correspondence between the blocks of two values, with the same contents. -/
structure Isomorphism (host : Host) (g g' : Graph C) (v v' : Value) (φ : Nat → Nat → Prop) : Prop
    extends Homomorphism host g g' v v' φ where
  total : ∀ a, g.Reached host v a → ∃ b, φ a b
  onto : ∀ b, g'.Reached host v' b → ∃ a, φ a b
  injective : ∀ {a a' b}, φ a b → φ a' b → a = a'
  functional : ∀ {a b b'}, φ a b → φ a b' → b = b'

def Isomorphic (host : Host) (g g' : Graph C) (v v' : Value) : Prop :=
  ∃ φ, Isomorphism host g g' v v' φ

section Homomorphism

variable {host : Host} {g g' : Graph C} {v v' : Value} {φ : Nat → Nat → Prop} {a b : Nat}

/-- The values in the fields of related blocks. -/
theorem SameBlock.fields {o o' : Obj Value C} (h : SameBlock host g g' φ o o') :
    List.Forall₂ (fun v v' => SameView φ (g.view host v) (g'.view host v')) o.fields o'.fields := by
  cases o with
  | structured tag fields =>
    cases o' with
    | structured tag' fields' => exact h.2
    | _ => exact h.elim
  | custom c n => exact h.elim
  | abstract n => exact h.elim
  | _ =>
    cases o' with
    | structured tag' fields' => exact h.elim
    | _ => exact .nil

theorem SameView.block_left (h : SameView φ v v') (hv : v = .block a) :
    ∃ b, v' = .block b ∧ φ a b := by
  subst hv
  cases v' with
  | block b => exact ⟨b, rfl, h⟩
  | _ => exact h.elim

theorem SameView.block_right (h : SameView φ v v') (hv : v' = .block b) :
    ∃ a, v = .block a ∧ φ a b := by
  subst hv
  cases v with
  | block a => exact ⟨a, rfl, h⟩
  | _ => exact h.elim

/-- Every block of the first value is related to one of the second. -/
theorem Homomorphism.total (h : Homomorphism host g g' v v' φ) (ha : g.Reached host v a) :
    ∃ b, φ a b := by
  induction ha with
  | root hv =>
    obtain ⟨b, -, hb⟩ := h.root.block_left hv
    exact ⟨b, hb⟩
  | field _ hpoints ih =>
    obtain ⟨b, hb⟩ := ih
    obtain ⟨o, u, ho, hu, hview⟩ := hpoints
    obtain ⟨o₁, o', ho₁, -, hsame⟩ := h.block hb
    rw [ho] at ho₁
    cases ho₁
    obtain ⟨i, hi, rfl⟩ := getElem_of_mem hu
    have hfields := forall₂_iff_get.mp hsame.fields
    obtain ⟨c, -, hc⟩ := (hfields.2 i hi (hfields.1 ▸ hi)).block_left hview
    exact ⟨c, hc⟩

/-- Every block of the second value is related to one of the first. -/
theorem Homomorphism.onto (h : Homomorphism host g g' v v' φ) (hb : g'.Reached host v' b) :
    ∃ a, φ a b := by
  induction hb with
  | root hv =>
    obtain ⟨a, -, ha⟩ := h.root.block_right hv
    exact ⟨a, ha⟩
  | field _ hpoints ih =>
    obtain ⟨a, ha⟩ := ih
    obtain ⟨o', u, ho', hu, hview⟩ := hpoints
    obtain ⟨o, o₁, -, ho₁, hsame⟩ := h.block ha
    rw [ho'] at ho₁
    cases ho₁
    obtain ⟨i, hi, rfl⟩ := getElem_of_mem hu
    have hfields := forall₂_iff_get.mp hsame.fields
    obtain ⟨c, -, hc⟩ := (hfields.2 i (hfields.1 ▸ hi) hi).block_right hview
    exact ⟨c, hc⟩

end Homomorphism

/-! ## Trees -/

/-- What a value without cycles looks like to a program that does not compare addresses. -/
inductive Tree where
  | long (n : Int)
  | atom (tag : Nat)
  | string (s : Bytes)
  | double (d : UInt64)
  | node (tag : Nat) (children : List Tree)

mutual

/-- A value unfolds to a tree. -/
inductive Unfolds (host : Host) (g : Graph C) : Value → Tree → Prop where
  | long {v : Value} {n : Int} : g.view host v = .long n → Unfolds host g v (.long n)
  | atom {v : Value} {tag : Nat} : g.view host v = .atom tag → Unfolds host g v (.atom tag)
  | string {v : Value} {a : Nat} {s : Bytes} : g.view host v = .block a → g a = some (.string s) →
      Unfolds host g v (.string s)
  | double {v : Value} {a : Nat} {d : UInt64} : g.view host v = .block a →
      g a = some (.double d) → Unfolds host g v (.double d)
  | node {v : Value} {a tag : Nat} {fields : List Value} {ts : List Tree} :
      g.view host v = .block a → g a = some (.structured tag fields) →
      UnfoldsAll host g fields ts → Unfolds host g v (.node tag ts)

/-- Values unfold to trees. -/
inductive UnfoldsAll (host : Host) (g : Graph C) : List Value → List Tree → Prop where
  | nil : UnfoldsAll host g [] []
  | cons {v : Value} {t : Tree} {vs : List Value} {ts : List Tree} : Unfolds host g v t →
      UnfoldsAll host g vs ts → UnfoldsAll host g (v :: vs) (t :: ts)

end

section Unfolds

variable {host : Host} {g g' : Graph C} {φ : Nat → Nat → Prop} {v v' : Value} {heap : Heap C}

theorem SameView.long_left {n : Int} (h : SameView φ v v') (hv : v = .long n) :
    v' = .long n := by
  subst hv
  cases v' with
  | long n' => rw [show n = n' from h]
  | _ => exact h.elim

theorem SameView.atom_left {tag : Nat} (h : SameView φ v v') (hv : v = .atom tag) :
    v' = .atom tag := by
  subst hv
  cases v' with
  | atom tag' => rw [show tag = tag' from h]
  | _ => exact h.elim

mutual

/-- Related values unfold to the same tree. -/
theorem Unfolds.map (hφ : ∀ {a b}, φ a b → ∃ o o', g a = some o ∧ g' b = some o' ∧
      SameBlock host g g' φ o o') {v v' : Value} {t : Tree} (h : Unfolds host g v t)
    (hsame : SameView φ (g.view host v) (g'.view host v')) : Unfolds host g' v' t := by
  have hblock : ∀ {a : Nat} {o : Obj Value C}, g.view host v = .block a → g a = some o →
      ∃ b o', g'.view host v' = .block b ∧ g' b = some o' ∧ SameBlock host g g' φ o o' := by
    intro a o hv ho
    obtain ⟨b, hb, hab⟩ := hsame.block_left hv
    obtain ⟨o₁, o', ho₁, ho', hoo⟩ := hφ hab
    rw [ho] at ho₁
    cases ho₁
    exact ⟨b, o', hb, ho', hoo⟩
  cases h with
  | long hv => exact .long (hsame.long_left hv)
  | atom hv => exact .atom (hsame.atom_left hv)
  | string hv ho =>
    obtain ⟨b, o', hb, ho', hoo⟩ := hblock hv ho
    cases o' with
    | string s' =>
      cases (show _ = s' from hoo)
      exact .string hb ho'
    | _ => exact hoo.elim
  | double hv ho =>
    obtain ⟨b, o', hb, ho', hoo⟩ := hblock hv ho
    cases o' with
    | double d' =>
      cases (show _ = d' from hoo)
      exact .double hb ho'
    | _ => exact hoo.elim
  | node hv ho hall =>
    obtain ⟨b, o', hb, ho', hoo⟩ := hblock hv ho
    cases o' with
    | structured tag' fields' =>
      obtain ⟨rfl, hfields⟩ := hoo
      exact .node hb ho' (UnfoldsAll.map hφ hall hfields)
    | _ => exact hoo.elim

theorem UnfoldsAll.map (hφ : ∀ {a b}, φ a b → ∃ o o', g a = some o ∧ g' b = some o' ∧
      SameBlock host g g' φ o o') {vs vs' : List Value} {ts : List Tree}
    (h : UnfoldsAll host g vs ts)
    (hsame : List.Forall₂ (fun v v' => SameView φ (g.view host v) (g'.view host v')) vs vs') :
    UnfoldsAll host g' vs' ts := by
  cases h with
  | nil =>
    cases hsame
    exact .nil
  | cons hv hvs =>
    cases hsame with
    | cons hhead htail => exact .cons (hv.map hφ hhead) (UnfoldsAll.map hφ hvs htail)

end

theorem exists_unfoldsAll {vs : List Value} (h : ∀ u ∈ vs, ∃ t, Unfolds host g u t) :
    ∃ ts, UnfoldsAll host g vs ts := by
  induction vs with
  | nil => exact ⟨[], .nil⟩
  | cons u vs ih =>
    obtain ⟨t, ht⟩ := h u mem_cons_self
    obtain ⟨ts, hts⟩ := ih fun x hx => h x (mem_cons_of_mem _ hx)
    exact ⟨t :: ts, .cons ht hts⟩

/-- The trees of more values; the size of a list counts its end. -/
theorem UnfoldsAll.append {us vs : List Value} {ts ts' : List Tree}
    (h' : UnfoldsAll host g us ts') : UnfoldsAll host g vs ts →
    ∃ ts₁, UnfoldsAll host g (vs ++ us) ts₁ ∧ sizeOf ts₁ + 1 = sizeOf ts + sizeOf ts'
  | .nil => ⟨ts', h', by rw [List.nil.sizeOf_spec]; omega⟩
  | .cons h hs => by
    obtain ⟨ts₁, hts₁, hsize⟩ := UnfoldsAll.append h' hs
    refine ⟨_, .cons h hts₁, ?_⟩
    rw [List.cons.sizeOf_spec, List.cons.sizeOf_spec]
    omega

/-- Without cycles, one cannot follow fields forever. -/
theorem Graph.Acyclic.acc (h : g.Acyclic host) (keys : List Nat)
    (hkeys : ∀ {a b}, g.Points host a b → a ∈ keys) (a : Nat) :
    Acc (fun b a => g.Points host a b) a := by
  -- on the addresses of the graph, of which there are finitely many
  have hwf : WellFounded fun b a : { a // a ∈ keys } =>
      Relation.TransGen (g.Points host) a.1 b.1 := by
    have : IsTrans { a // a ∈ keys } fun b a => Relation.TransGen (g.Points host) a.1 b.1 :=
      ⟨fun _ _ _ h h' => h'.trans h⟩
    have : Std.Irrefl fun b a : { a // a ∈ keys } => Relation.TransGen (g.Points host) a.1 b.1 :=
      ⟨fun a => h a.1⟩
    exact Finite.wellFounded_of_trans_of_irrefl _
  have hmem : ∀ x : { a // a ∈ keys }, Acc (fun b a => g.Points host a b) x.1 := by
    intro x
    induction x using hwf.induction with
    | _ x ih =>
    refine ⟨_, fun b hb => ?_⟩
    by_cases hbk : b ∈ keys
    · exact ih ⟨b, hbk⟩ (.single hb)
    · exact ⟨_, fun c hc => absurd (hkeys hc) hbk⟩
  by_cases ha : a ∈ keys
  · exact hmem ⟨a, ha⟩
  · exact ⟨_, fun b hb => absurd (hkeys hb) ha⟩

/-- The same for the blocks of a heap. -/
theorem Graph.Acyclic.acc_heap (h : Graph.Acyclic host heap.get) (a : Nat) :
    Acc (fun b a => Graph.Points host heap.get a b) a := by
  refine h.acc (heap.map Prod.fst) ?_ a
  rintro x y ⟨o, _, hget, -⟩
  exact mem_map_of_mem (Heap.mem_of_get hget)

/-- Not a pointer to `a` or to a lower address. -/
def Value.above (a : Nat) : Value → Bool
  | .block b => a < b
  | _ => true

/-- There are no cycles if blocks point to higher addresses. -/
theorem Heap.acyclic_of_above (h : ∀ p ∈ heap, p.2.fields.all (Value.above p.1)) :
    Graph.Acyclic host heap.get := by
  have hlt : ∀ {a b}, Relation.TransGen (Graph.Points host heap.get) a b → a < b := by
    have hpoints : ∀ {a b}, Graph.Points host heap.get a b → a < b := by
      rintro a b ⟨o, u, hget, hu, hview⟩
      have habove := all_eq_true.mp (h (a, o) (Heap.mem_of_get hget)) u hu
      cases u with
      | block c =>
        have hcb : c = b := by
          simp only [Graph.view] at hview
          split at hview
          · split at hview
            · cases hview
            · exact Value.block.inj hview
          · exact Value.block.inj hview
        exact hcb ▸ of_decide_eq_true habove
      | _ => cases hview
    intro a b hab
    induction hab with
    | single hab => exact hpoints hab
    | tail _ hbc ih => exact Nat.lt_trans ih (hpoints hbc)
  exact fun a ha => Nat.lt_irrefl a (hlt ha)

end Unfolds

end TravLang.Runtime
