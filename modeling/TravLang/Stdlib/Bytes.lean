import Mathlib.Init

/-!
# Byte sequences (`stdlib/bytes.ml`)

`none` is the exception `Invalid_argument`.
-/

namespace TravLang

/-- A string of the language, or a byte sequence. -/
abbrev Bytes := List UInt8

namespace Bytes

def sub (s : Bytes) (ofs len : Nat) : Option Bytes :=
  if ofs + len ≤ s.length then some ((s.drop ofs).take len) else none

/-- The second sequence after the copy. The two may be the same, and the ranges may overlap. -/
def blit (s1 : Bytes) (ofs1 : Nat) (s2 : Bytes) (ofs2 len : Nat) : Option Bytes :=
  if ofs1 + len ≤ s1.length ∧ ofs2 + len ≤ s2.length then
    some (s2.take ofs2 ++ ((s1.drop ofs1).take len ++ s2.drop (ofs2 + len)))
  else none

theorem sub_eq {s : Bytes} {ofs len : Nat} (h : ofs + len ≤ s.length) :
    sub s ofs len = some ((s.drop ofs).take len) := if_pos h

/-- What a copy leaves, and what it writes. -/
theorem blit_spec (s1 s2 : Bytes) {ofs1 ofs2 len : Nat} (h1 : ofs1 + len ≤ s1.length)
    (h2 : ofs2 + len ≤ s2.length) :
    ∃ s, blit s1 ofs1 s2 ofs2 len = some s ∧ s.length = s2.length ∧
      s.take (ofs2 + len) = s2.take ofs2 ++ (s1.drop ofs1).take len := by
  refine ⟨_, if_pos ⟨h1, h2⟩, ?_, ?_⟩
  · simp
    omega
  · rw [← List.append_assoc, List.take_append_of_le_length (by simp; omega), List.take_of_length_le]
    simp
    omega

end Bytes

end TravLang
