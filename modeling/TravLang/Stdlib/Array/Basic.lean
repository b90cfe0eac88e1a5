import TravLang.Lib.Result

/-!
# Arrays (`stdlib/array.ml`)

An array is the list of its elements. Reads and writes are checked. Indices do not wrap around, as
the length of an array is far below the greatest integer.
-/

namespace TravLang.Arrays

variable {α : Type} {a : List α} {i : Nat}

inductive Exn where
  /-- `Invalid_argument "index out of bounds"` -/
  | indexOutOfBounds
  | invalidArg (msg : String)
  | assertFailure
  /-- `Bottom` of `Array.sort` -/
  | bottom (i : Nat)
  deriving DecidableEq, Repr

def get (a : List α) (i : Nat) : Except Exn α :=
  match a[i]? with
  | some x => .ok x
  | none => .error .indexOutOfBounds

def set (a : List α) (i : Nat) (x : α) : Except Exn (List α) :=
  if i < a.length then .ok (a.set i x) else .error .indexOutOfBounds

/-- `a.(i)`, for an index that may be negative -/
def getAt (a : List α) (i : Int) : Except Exn α :=
  if 0 ≤ i then get a i.toNat else .error .indexOutOfBounds

/-- `a.(i) <- x` -/
def setAt (a : List α) (i : Int) (x : α) : Except Exn (List α) :=
  if 0 ≤ i then set a i.toNat x else .error .indexOutOfBounds

theorem get_ok {x : α} (h : a[i]? = some x) : get a i = .ok x := by
  rw [get, h]

theorem set_ok (h : i < a.length) (x : α) : set a i x = .ok (a.set i x) := if_pos h

theorem getAt_ok {x : α} (h : a[i]? = some x) : getAt a i = .ok x := by
  rw [getAt, if_pos (Int.natCast_nonneg i), Int.toNat_natCast, get_ok h]

theorem setAt_ok (h : i < a.length) (x : α) : setAt a i x = .ok (a.set i x) := by
  rw [setAt, if_pos (Int.natCast_nonneg i), Int.toNat_natCast, set_ok h]

end TravLang.Arrays
