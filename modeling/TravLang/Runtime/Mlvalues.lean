import Mathlib.Algebra.Group.Int.Defs
import Mathlib.Algebra.Group.Nat.Defs
import TravLang.Stdlib.Bytes

/-!
# Values of the runtime system (`runtime/caml/mlvalues.h`)

A value is a tagged integer or a pointer to a block. A block is kept with what its header and its
contents mean: a block of fields, a string, a boxed float (its bits), a float array, a custom block
or an abstract one. A block of size zero is one of the static atoms; a block without fields at an
address of its own is allowed as well.

Headers have no reserved bits. Closures are outside of the model: the tags `Closure_tag` and
`Infix_tag` may appear, but not code pointers.
-/

namespace TravLang.Runtime

/-- What `configure` finds out about a platform. -/
structure Host where
  /-- `ARCH_SIXTYFOUR` -/
  sixtyFour : Bool
  /-- `ARCH_FLOAT_ENDIANNESS` is `0x76543210` -/
  bigEndian : Bool
  deriving DecidableEq, Repr

namespace Host

/-- `sizeof(value)` -/
def wordSize (host : Host) : Nat := if host.sixtyFour then 8 else 4

def wordBits (host : Host) : Nat := 8 * host.wordSize

def maxWosize (host : Host) : Nat := 2 ^ (host.wordBits - 10) - 1

def doubleWosize (host : Host) : Nat := 8 / host.wordSize

/-- A number that is stored in an `intnat` -/
def intnat (host : Host) (n : Int) : Int := n.bmod (2 ^ host.wordBits)

/-- A number that is stored in a `uintnat` -/
def uintnat (host : Host) (n : Int) : Nat := (n % 2 ^ host.wordBits).toNat

end Host

def host32 : Host := ⟨false, false⟩
def host64 : Host := ⟨true, false⟩

theorem wordSize_cases (host : Host) : host.wordSize = 8 ∨ host.wordSize = 4 := by
  rcases host with ⟨_ | _, _⟩
  · exact .inr rfl
  · exact .inl rfl

theorem wordBits_cases (host : Host) : host.wordBits = 64 ∨ host.wordBits = 32 := by
  rcases host with ⟨_ | _, _⟩
  · exact .inr rfl
  · exact .inl rfl

/-- An integer that a host can represent. -/
def InRange (host : Host) (n : Int) : Prop :=
  -2 ^ (host.wordBits - 2) ≤ n ∧ n < 2 ^ (host.wordBits - 2)

instance (host : Host) (n : Int) : Decidable (InRange host n) :=
  inferInstanceAs (Decidable (_ ∧ _))

def forcingTag : Nat := 244
def contTag : Nat := 245
def lazyTag : Nat := 246
def closureTag : Nat := 247
def objectTag : Nat := 248
def infixTag : Nat := 249
def forwardTag : Nat := 250
def abstractTag : Nat := 251
def stringTag : Nat := 252
def doubleTag : Nat := 253
def doubleArrayTag : Nat := 254
def customTag : Nat := 255

/-- The tags of blocks of fields: all but those of closures and continuations. -/
def FieldsTag (tag : Nat) : Prop :=
  tag < abstractTag ∧ tag ≠ contTag ∧ tag ≠ closureTag ∧ tag ≠ infixTag

instance (tag : Nat) : Decidable (FieldsTag tag) := inferInstanceAs (Decidable (_ ∧ _ ∧ _ ∧ _))

/-- The tags of ordinary blocks: they have fields, and no meaning of their own for the runtime. -/
def OrdinaryTag (tag : Nat) : Prop := FieldsTag tag ∧ tag ≠ objectTag ∧ tag ≠ forwardTag

instance (tag : Nat) : Decidable (OrdinaryTag tag) := inferInstanceAs (Decidable (_ ∧ _ ∧ _))

inductive Value where
  | long (n : Int)
  | atom (tag : Nat)
  | block (a : Nat)
  deriving DecidableEq, Repr

/-- A block with fields of type `F`; `C` is what custom blocks contain. -/
inductive Obj (F C : Type) where
  | structured (tag : Nat) (fields : List F)
  | string (s : Bytes)
  | double (d : UInt64)
  | doubleArray (ds : List UInt64)
  | custom (c : C) (words : Nat)
  | abstract (words : Nat)
  deriving Repr

namespace Obj

variable {F C : Type}

/-- `Tag_val` -/
def tag : Obj F C → Nat
  | structured tag _ => tag
  | string _ => stringTag
  | double _ => doubleTag
  | doubleArray _ => doubleArrayTag
  | custom _ _ => customTag
  | abstract _ => abstractTag

/-- `Wosize_val`. A string is padded to a whole number of words, with one byte at least; a custom
block starts with the pointer to its operations. -/
def wosize (host : Host) : Obj F C → Nat
  | structured _ fields => fields.length
  | string s => (s.length + host.wordSize) / host.wordSize
  | double _ => host.doubleWosize
  | doubleArray ds => ds.length * host.doubleWosize
  | custom _ words => 1 + words
  | abstract words => words

def fields : Obj F C → List F
  | structured _ fields => fields
  | _ => []

end Obj

/-- The blocks that values point to, under their addresses. -/
abbrev Heap (C : Type) := List (Nat × Obj Value C)

namespace Heap

variable {C : Type}

def get (heap : Heap C) (a : Nat) : Option (Obj Value C) := heap.lookup a

theorem mem_of_get {heap : Heap C} {a : Nat} {o : Obj Value C} (h : heap.get a = some o) :
    (a, o) ∈ heap := by
  obtain ⟨l₁, l₂, hl, -⟩ := List.lookup_eq_some_iff.mp h
  exact hl ▸ List.mem_append_right _ List.mem_cons_self

/-- The blocks of a heap are those that it lists. -/
theorem objects_of_mem {P : Obj Value C → Prop} {heap : Heap C} (h : ∀ p ∈ heap, P p.2) (a : Nat)
    (o : Obj Value C) (hget : heap.get a = some o) : P o :=
  h (a, o) (mem_of_get hget)

/-- `Tag_val`, of a block -/
def tagVal (heap : Heap C) : Value → Option Nat
  | .long _ => none
  | .atom tag => some tag
  | .block a => (heap.get a).map Obj.tag

end Heap

end TravLang.Runtime
