import Mathlib.Data.List.FinRange

/-!
# First derivatives (`yacc/closure.c`)

A row of bits is an array of words of 32 bits. The matrix `EFF` is one array, in which the rows
follow each other: the words that are read from it are recorded. A rule has a number below `nrules`,
so that a row of `first_derives` is never left, and is an array of its own.
-/

namespace TravLang.Yacc

open List

abbrev Word := BitVec 32

/-- `WORDSIZE` -/
def wordsize (n : Nat) : Nat := (n + 31) / 32

/-- `BIT` -/
def bit (r : Nat → Word) (n : Nat) : Bool := (r (n / 32)).getLsbD (n % 32)

/-- `SETBIT` -/
def setbit (r : Nat → Word) (n : Nat) : Nat → Word :=
  Function.update r (n / 32) (r (n / 32) ||| 1#32 <<< (n % 32))

/-- The variables of the loop over the non-terminals `j`, and the words that it read -/
structure Scan where
  /-- an index into `EFF` -/
  vrow : Nat
  cword : Word
  mask : Word
  rrow : Nat → Word
  reads : List Nat

section FirstDerives

variable {nvars nrules : Nat} (EFF : Nat → Word) (derives : Fin nvars → List (Fin nrules))

/-- The body of this loop -/
def scanVar (s : Scan) (j : Fin nvars) : Scan :=
  let rrow :=
    if s.cword &&& s.mask ≠ 0 then
      (derives j).foldl (fun r (rule : Fin nrules) => setbit r rule) s.rrow
    else s.rrow
  let mask := s.mask <<< 1
  if mask = 0 then
    { vrow := s.vrow + 1, cword := EFF s.vrow, mask := 1, rrow, reads := s.reads ++ [s.vrow] }
  else { s with mask, rrow }

/-- The row of the non-terminal `i`, and the words that were read for it -/
def scanRow (i : Fin nvars) : Scan :=
  let vrow := i * wordsize nvars
  (List.finRange nvars).foldl (scanVar EFF derives)
    { vrow := vrow + 1, cword := EFF vrow, mask := 1, rrow := fun _ => 0, reads := [vrow] }

/-- The rows of `first_derives` -/
def firstDerives (i : Fin nvars) : Nat → Word := (scanRow EFF derives i).rrow

/-- The words of `EFF` that `set_first_derives` reads -/
def readsEFF : List Nat := (List.finRange nvars).flatMap fun i => (scanRow EFF derives i).reads

end FirstDerives

theorem getLsbD_one_shiftLeft {k i : Nat} (hi : i < 32) :
    (1#32 <<< k).getLsbD i = decide (k = i) := by
  simp [hi]
  grind

theorem and_one_shiftLeft {w : Word} {k : Nat} (hk : k < 32) :
    w &&& 1#32 <<< k ≠ 0 ↔ w.getLsbD k = true := by
  constructor
  · intro h
    by_contra hbit
    refine h (BitVec.eq_of_getLsbD_eq fun i hi => ?_)
    rw [BitVec.getLsbD_and, getLsbD_one_shiftLeft hi]
    by_cases hki : k = i
    · simp [← hki, Bool.eq_false_iff.mpr hbit]
    · simp [hki]
  · intro hbit h
    have hzero := congrArg (BitVec.getLsbD · k) h
    simp [getLsbD_one_shiftLeft hk, hbit] at hzero

/-- The mask is shifted out of the word after its last bit. -/
theorem shiftLeft_mask {k : Nat} (hk : k < 32) : 1#32 <<< k <<< 1 = 0 ↔ k = 31 := by
  decide +revert

theorem bit_setbit (r : Nat → Word) (n m : Nat) : bit (setbit r n) m = (bit r m || n = m) := by
  unfold bit setbit
  by_cases hword : m / 32 = n / 32
  · have hiff : n % 32 = m % 32 ↔ n = m := by omega
    rw [hword, Function.update_self, BitVec.getLsbD_or,
      getLsbD_one_shiftLeft (Nat.mod_lt m (by decide))]
    simp only [hiff]
  · have hne : n ≠ m := fun h => hword (h ▸ rfl)
    rw [Function.update_of_ne hword, decide_eq_false hne, Bool.or_false]

theorem bit_foldl_setbit {nrules : Nat} (rules : List (Fin nrules)) (r : Nat → Word)
    (rule : Fin nrules) :
    bit (rules.foldl (fun r (rule : Fin nrules) => setbit r rule) r) rule = true ↔
      bit r rule = true ∨ rule ∈ rules := by
  induction rules generalizing r with
  | nil => simp
  | cons rule' rules ih =>
    rw [foldl_cons, ih, bit_setbit, Bool.or_eq_true, decide_eq_true_iff, or_assoc,
      mem_cons, Fin.ext_iff, eq_comm (a := rule.val)]

variable {nvars nrules : Nat} {EFF : Nat → Word} {derives : Fin nvars → List (Fin nrules)}

/-- The loop before the non-terminal `j`, for a row that starts at `row` -/
structure Scanned (EFF : Nat → Word) (derives : Fin nvars → List (Fin nrules)) (row j : Nat)
    (s : Scan) : Prop where
  vrow : s.vrow = row + j / 32 + 1
  cword : s.cword = EFF (row + j / 32)
  mask : s.mask = 1#32 <<< (j % 32)
  rrow : ∀ rule : Fin nrules, bit s.rrow rule = true ↔
    ∃ B : Fin nvars, B.val < j ∧ bit (fun k => EFF (row + k)) B = true ∧ rule ∈ derives B
  reads : ∀ k, k ∈ s.reads ↔ row ≤ k ∧ k ≤ row + j / 32

theorem Scanned.step {row : Nat} {j : Fin nvars} {s : Scan} (h : Scanned EFF derives row j s) :
    Scanned EFF derives row (j + 1) (scanVar EFF derives s j) := by
  have hj := Nat.mod_lt j.val (show 32 > 0 by decide)
  have hrow : ∀ rule : Fin nrules, bit (if s.cword &&& s.mask ≠ 0 then
        (derives j).foldl (fun r (rule : Fin nrules) => setbit r rule) s.rrow
      else s.rrow) rule = true ↔
      ∃ B : Fin nvars, B.val < j + 1 ∧ bit (fun k => EFF (row + k)) B = true ∧
        rule ∈ derives B := by
    intro rule
    have hbit : s.cword &&& s.mask ≠ 0 ↔ bit (fun k => EFF (row + k)) j = true := by
      rw [h.cword, h.mask, and_one_shiftLeft hj]
      rfl
    have hsplit : (∃ B : Fin nvars, B.val < j + 1 ∧ bit (fun k => EFF (row + k)) B = true ∧
          rule ∈ derives B) ↔ bit s.rrow rule = true ∨
        (bit (fun k => EFF (row + k)) j = true ∧ rule ∈ derives j) := by
      rw [h.rrow]
      constructor
      · rintro ⟨B, hB, hrest⟩
        rcases Nat.lt_succ_iff_lt_or_eq.mp hB with hB | hB
        · exact .inl ⟨B, hB, hrest⟩
        · exact .inr (Fin.ext hB ▸ hrest)
      · rintro (⟨B, hB, hrest⟩ | hrest)
        · exact ⟨B, by omega, hrest⟩
        · exact ⟨j, by omega, hrest⟩
    rw [hsplit]
    split
    · next hset => simp [bit_foldl_setbit, hbit.mp hset]
    · next hclear => simp [mt hbit.mpr hclear]
  unfold scanVar
  dsimp only
  rw [h.mask]
  split
  · next hlast =>
    have hlast := (shiftLeft_mask hj).mp hlast
    have hdiv : (j.val + 1) / 32 = j / 32 + 1 := by omega
    refine ⟨by rw [h.vrow, hdiv]; rfl, by rw [h.vrow, hdiv]; rfl, ?_, h.mask ▸ hrow, fun k => ?_⟩
    · rw [show (j.val + 1) % 32 = 0 by omega]
      rfl
    · rw [mem_append, h.reads, h.vrow, mem_singleton]
      omega
  · next hmore =>
    have hmore := mt (shiftLeft_mask hj).mpr hmore
    have hdiv : (j.val + 1) / 32 = j / 32 := by omega
    refine ⟨by rw [h.vrow, hdiv], by rw [h.cword, hdiv], ?_, h.mask ▸ hrow, by
      rw [hdiv]
      exact h.reads⟩
    rw [← BitVec.shiftLeft_add, show (j.val + 1) % 32 = j % 32 + 1 by omega]

/-- The whole row has been scanned. -/
theorem scanned_scanRow (i : Fin nvars) :
    Scanned EFF derives (i * wordsize nvars) nvars (scanRow EFF derives i) := by
  have hloop : ∀ m (hm : m ≤ nvars), Scanned EFF derives (i * wordsize nvars) m
      (((List.finRange nvars).take m).foldl (scanVar EFF derives)
        { vrow := i * wordsize nvars + 1, cword := EFF (i * wordsize nvars), mask := 1,
          rrow := fun _ => 0, reads := [i * wordsize nvars] }) := by
    intro m
    induction m with
    | zero =>
      exact fun _ => ⟨rfl, rfl, rfl, by simp [bit], by simp; omega⟩
    | succ m ih =>
      intro hm
      rw [take_succ_eq_append_getElem (by rwa [length_finRange]), foldl_append]
      simpa using (ih (by omega)).step (j := ⟨m, hm⟩)
  have hall := hloop nvars (Nat.le_refl _)
  rwa [take_of_length_le (by simp)] at hall

/-- **The rows of first derivatives are exact, and no word outside of `EFF` is read, exactly if the
number of non-terminals is no multiple of the word size.** Otherwise the last row of words is read
to one word beyond its end. -/
theorem set_first_derives_exact (hnvars : 1 ≤ nvars) (EFF : Nat → Word)
    (derives : Fin nvars → List (Fin nrules)) :
    ((∀ k ∈ readsEFF EFF derives, k < nvars * wordsize nvars) ↔ nvars % 32 ≠ 0) ∧
    ∀ (A : Fin nvars) (rule : Fin nrules), bit (firstDerives EFF derives A) rule = true ↔
      ∃ B : Fin nvars, bit (fun k => EFF (A * wordsize nvars + k)) B = true ∧
        rule ∈ derives B := by
  refine ⟨⟨fun h hmul => ?_, fun hmul k hk => ?_⟩, fun A rule => ?_⟩
  · have hlast : (nvars - 1) * wordsize nvars + nvars / 32 = nvars * wordsize nvars := by
      rw [show nvars / 32 = wordsize nvars by unfold wordsize; omega, ← Nat.succ_mul,
        Nat.succ_eq_add_one, Nat.sub_add_cancel hnvars]
    refine absurd (h _ (mem_flatMap.mpr ⟨⟨nvars - 1, by omega⟩, mem_finRange _,
      ((scanned_scanRow _).reads _).mpr ⟨Nat.le_add_right _ (nvars / 32), Nat.le_refl _⟩⟩)) ?_
    exact Nat.not_lt.mpr (Nat.le_of_eq hlast.symm)
  · obtain ⟨i, -, hk⟩ := mem_flatMap.mp hk
    have hread := (((scanned_scanRow i).reads k).mp hk).2
    calc k ≤ i * wordsize nvars + nvars / 32 := hread
      _ < i * wordsize nvars + wordsize nvars := by
        unfold wordsize
        omega
      _ = (i + 1) * wordsize nvars := (Nat.succ_mul ..).symm
      _ ≤ nvars * wordsize nvars := Nat.mul_le_mul_right _ i.isLt
  · rw [firstDerives, (scanned_scanRow A).rrow]
    simp

theorem set_first_derives_exact_two : 1 ≤ 2 ∧
    ∀ k ∈ readsEFF (fun _ => 3#32) (fun B : Fin 2 => [B]), k < 2 :=
  ⟨by decide, (set_first_derives_exact (by decide) (fun _ => 3#32) fun B : Fin 2 => [B]).1.mpr
    (by decide)⟩

/-- With 32 non-terminals, the word after the last row is read. -/
theorem set_first_derives_leaves :
    32 * wordsize 32 ∈ readsEFF (fun _ => 0) (fun _ : Fin 32 => ([] : List (Fin 1))) :=
  mem_flatMap.mpr ⟨31, mem_finRange _, ((scanned_scanRow 31).reads _).mpr (by decide)⟩

end TravLang.Yacc
