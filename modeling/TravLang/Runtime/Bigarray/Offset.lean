import TravLang.Lib.MixedRadix
import TravLang.Runtime.Bigarray.Basic
import TravLang.Runtime.Words

/-!
# Offsets of elements

The dimensions of a bigarray are the radices of a mixed-radix number and an index vector gives its
digits: from the first dimension on in the C layout, from the last one on, and less one, in the
Fortran layout. `caml_ba_offset` computes that number, up to the wrapping of words, and raises an
exception exactly if one of the digits is not below its radix.
-/

namespace TravLang.Runtime.Bigarray

open Result MixedRadix List BaArray

variable {host : Host} {b : BaArray} {index : List Int} {n : Nat}

/-! ## Digits -/

namespace BaArray

/-- The most significant dimension first. -/
def order {α : Type} (b : BaArray) (l : List α) : List α :=
  match b.layout with
  | .c => l
  | .fortran => l.reverse

/-- The first index of a dimension -/
def start (b : BaArray) : Int :=
  match b.layout with
  | .c => 0
  | .fortran => 1

def radices (b : BaArray) : List Nat := b.order (b.dim.map Int.toNat)

/-- The digits that an index vector stands for. -/
def digits (b : BaArray) (index : List Int) : List Int := b.order (index.map (· - b.start))

/-- The number of elements, without wrapping -/
def size (b : BaArray) : Nat := (b.dim.map Int.toNat).prod

theorem prod_order (b : BaArray) (l : List Nat) : (b.order l).prod = l.prod := by
  unfold order
  split
  · rfl
  · exact prod_reverse l

theorem prod_radices (b : BaArray) : b.radices.prod = b.size := b.prod_order _

end BaArray

/-- Digits as integers -/
def ints (ns : List Nat) : List Int := ns.map Nat.cast

/-- An index vector of a bigarray: an integer for each dimension. -/
structure IsIndex (host : Host) (b : BaArray) (index : List Int) : Prop where
  length : index.length = b.numDims
  inRange : ∀ i ∈ index, InRange host i

/-- The index vector is that of the element at a position. -/
def At (b : BaArray) (index : List Int) (n : Nat) : Prop :=
  ∃ is, b.digits index = ints is ∧ Digits b.radices is ∧ value b.radices is = n

/-- Dimensions that are not negative. -/
def DimsOk (host : Host) (dim : List Int) : Prop := ∀ d ∈ dim, 0 ≤ d ∧ InRange host d

/-- The loop over the dimensions is Horner's scheme. -/
theorem offsetLoop_spec : ∀ {ds is : List Int} {a : Int}, ds.length = is.length →
    DimsOk host ds → (∀ i ∈ is, -2 ^ (host.wordBits - 1) ≤ i ∧ i < 2 ^ (host.wordBits - 1)) →
    (∃ ns : List Nat, is = ints ns ∧ Digits (ds.map Int.toNat) ns ∧
      offsetLoop host (host.intnat a) (ds.zip is) =
        .ok (host.intnat (a * (ds.map Int.toNat).prod + value (ds.map Int.toNat) ns))) ∨
    ((∀ ns : List Nat, is = ints ns → ¬ Digits (ds.map Int.toNat) ns) ∧
      offsetLoop host (host.intnat a) (ds.zip is) = .error .arrayBound)
  | [], [], a, _, _, _ => by
    refine .inl ⟨[], rfl, .nil, ?_⟩
    rw [zip_nil_left, offsetLoop, map_nil, prod_nil, value_nil]
    simp
  | d :: ds, i :: is, a, hlen, hds, his => by
    obtain ⟨hd, hds⟩ := forall_mem_cons.mp hds
    obtain ⟨hi, his'⟩ := forall_mem_cons.mp his
    have hd' := inRange_bounds hd.2
    have hiff := uintnat_lt_iff hi.1 hi.2 hd.1 (by omega)
    rw [zip_cons_cons, offsetLoop, map_cons]
    split
    · next hge =>
      refine .inr ⟨?_, rfl⟩
      rintro ns hns hdigits
      cases hdigits with
      | @cons n _ ns _ hlt _ =>
        obtain ⟨rfl, -⟩ := List.cons.inj hns
        exact absurd hge (Nat.not_le.mpr (hiff.mpr ⟨Int.natCast_nonneg n, by omega⟩))
    · next hlt =>
      obtain ⟨hnonneg, hlt⟩ := hiff.mp (Nat.not_le.mp hlt)
      obtain ⟨n, rfl⟩ := Int.eq_ofNat_of_zero_le hnonneg
      have hstep : host.intnat (host.intnat a * d + n) = host.intnat (a * d + n) := by
        unfold Host.intnat
        rw [← Int.bmod_add_bmod, Int.bmod_mul_bmod, Int.bmod_add_bmod]
      rw [hstep]
      rcases offsetLoop_spec (a := a * d + n) (Nat.succ.inj hlen) hds his' with
        ⟨ns, hns, hdigits, hok⟩ | ⟨hno, herr⟩
      · refine .inl ⟨n :: ns, by rw [hns]; rfl, .cons (by omega) hdigits, ?_⟩
        rw [hok, value_cons, prod_cons]
        congr 2
        push_cast
        rw [Int.toNat_of_nonneg hd.1]
        ring
      · refine .inr ⟨?_, herr⟩
        rintro ns hns hdigits
        cases hdigits with
        | cons _ hs => exact hno _ (List.cons.inj hns).2 hs

/-! ## Positions -/

namespace BaArray

variable {α : Type}

section

variable (b)

theorem order_c (h : b.layout = .c) (l : List α) : b.order l = l := by
  rw [order, h]

theorem order_fortran (h : b.layout = .fortran) (l : List α) : b.order l = l.reverse := by
  rw [order, h]

theorem start_c (h : b.layout = .c) : b.start = 0 := by
  rw [start, h]

theorem start_fortran (h : b.layout = .fortran) : b.start = 1 := by
  rw [start, h]

theorem order_order (l : List α) : b.order (b.order l) = l := by
  unfold order
  split
  · rfl
  · exact reverse_reverse l

theorem map_order {β : Type} (f : α → β) (l : List α) : (b.order l).map f = b.order (l.map f) := by
  unfold order
  split
  · rfl
  · exact map_reverse

@[simp] theorem length_order (b : BaArray) (l : List α) :
    (b.order l).length = l.length := by
  unfold order
  split
  · rfl
  · exact length_reverse

@[simp] theorem mem_order (b : BaArray) {l : List α} {a : α} :
    a ∈ b.order l ↔ a ∈ l := by
  unfold order
  split
  · rfl
  · exact mem_reverse

theorem start_cases : b.start = 0 ∨ b.start = 1 := by
  unfold start
  split
  · exact .inl rfl
  · exact .inr rfl

end

/-- The index vector with given digits. -/
def undigits (b : BaArray) (is : List Int) : List Int := (b.order is).map (· + b.start)

theorem digits_undigits (b : BaArray) (is : List Int) : b.digits (b.undigits is) = is := by
  unfold digits undigits
  rw [map_map, map_order, order_order]
  simp [Function.comp_def]

theorem undigits_digits (b : BaArray) (index : List Int) : b.undigits (b.digits index) = index := by
  unfold digits undigits
  rw [order_order, map_map]
  simp [Function.comp_def]

end BaArray

theorem At.unique {m : Nat} (h : At b index n) (h' : At b index m) :
    n = m := by
  obtain ⟨is, his, -, rfl⟩ := h
  obtain ⟨is', his', -, rfl⟩ := h'
  have heq : is = is' := (List.map_inj_right fun _ _ => Int.natCast_inj.mp).mp (his.symm.trans his')
  rw [heq]

/-- **Different index vectors are those of different elements.** -/
theorem At.inj {index' : List Int} (h : At b index n) (h' : At b index' n) :
    index = index' := by
  obtain ⟨is, his, hdigits, rfl⟩ := h
  obtain ⟨is', his', hdigits', heq⟩ := h'
  rw [← b.undigits_digits index, ← b.undigits_digits index', his, his',
    value_inj hdigits hdigits' heq.symm]

theorem At.lt (h : At b index n) : n < b.size := by
  obtain ⟨is, -, hdigits, rfl⟩ := h
  rw [← b.prod_radices]
  exact value_lt hdigits

/-- The index vector of an element has an integer for each dimension. -/
theorem At.isIndex (hdim : DimsOk host b.dim) (h : At b index n) :
    IsIndex host b index := by
  obtain ⟨is, his, hdigits, -⟩ := h
  rw [← b.undigits_digits index, his]
  refine ⟨?_, ?_⟩
  · rw [undigits, length_map, b.length_order, ints, length_map,
      hdigits.length_eq, radices, b.length_order, length_map]
    rfl
  · intro i hi
    rw [undigits, mem_map] at hi
    obtain ⟨j, hj, rfl⟩ := hi
    rw [b.mem_order, ints, mem_map] at hj
    obtain ⟨k, hk, rfl⟩ := hj
    obtain ⟨r, hr, hlt⟩ := exists_lt_of_mem hdigits hk
    rw [radices, b.mem_order, mem_map] at hr
    obtain ⟨d, hd, rfl⟩ := hr
    obtain ⟨hnonneg, hlow, hhigh⟩ := hdim d hd
    have hstart := b.start_cases
    exact ⟨by omega, by omega⟩

/-- There is an index vector for each element. -/
theorem exists_at (hn : n < b.size) : ∃ index, At b index n := by
  rw [← b.prod_radices] at hn
  obtain ⟨is, hdigits, hval⟩ := exists_value hn
  exact ⟨b.undigits (ints is), is, b.digits_undigits _, hdigits, hval⟩

/-- **`caml_ba_offset` is the position of the element, or raises an exception if there is none.** -/
theorem camlBaOffset_spec (hdim : DimsOk host b.dim) (hindex : IsIndex host b index) :
    (∃ n : Nat, At b index n ∧ camlBaOffset host b index = .ok (host.intnat n)) ∨
    ((∀ n, ¬ At b index n) ∧ camlBaOffset host b index = .error .arrayBound) := by
  have hdigits : ∀ i ∈ b.digits index,
      -2 ^ (host.wordBits - 1) ≤ i ∧ i < 2 ^ (host.wordBits - 1) := by
    intro i hi
    rw [digits, mem_order, mem_map] at hi
    obtain ⟨j, hj, rfl⟩ := hi
    have hj := inRange_bounds (hindex.inRange j hj)
    rcases b.start_cases with hstart | hstart <;> (rw [hstart]; omega)
  have hoffset : camlBaOffset host b index =
      offsetLoop host (host.intnat 0) ((b.order b.dim).zip (b.digits index)) := by
    have hzero : host.intnat 0 = 0 := Int.zero_bmod
    rw [hzero, camlBaOffset]
    cases hlayout : b.layout with
    | c => simp [digits, b.order_c hlayout, b.start_c hlayout]
    | fortran =>
      have hzip : b.dim.reverse.zip (index.map (· - 1)).reverse =
          (b.dim.zip (index.map (· - 1))).reverse :=
        (reverse_zipWith (by rw [length_map]; exact hindex.length.symm)).symm
      rw [digits, b.order_fortran hlayout, b.order_fortran hlayout, b.start_fortran hlayout,
        hzip, zip_map_right, map_reverse]
      refine congrArg (fun l => offsetLoop host 0 (List.reverse l)) ?_
      refine map_congr_left fun p hp => ?_
      have hi := inRange_bounds (hindex.inRange p.2 (of_mem_zip hp).2)
      exact Prod.ext rfl (intnat_eq_self (by omega) (by omega))
  have hlen : (b.order b.dim).length = (b.digits index).length := by
    rw [b.length_order, digits, b.length_order, length_map, hindex.length]
    rfl
  have horder : DimsOk host (b.order b.dim) := fun d hd => hdim d (b.mem_order.mp hd)
  rw [hoffset]
  rcases offsetLoop_spec (a := 0) hlen horder hdigits with ⟨ns, hns, hd, hok⟩ | ⟨hno, herr⟩
  · rw [b.map_order] at hd hok
    rw [Int.zero_mul, Int.zero_add] at hok
    exact .inl ⟨_, ⟨ns, hns, hd, rfl⟩, hok⟩
  · refine .inr ⟨?_, herr⟩
    rintro n ⟨ns, hns, hd, -⟩
    rw [b.map_order] at hno
    exact hno ns hns hd

theorem camlBaOffset_of_at (hdim : DimsOk host b.dim) (h : At b index n) :
    camlBaOffset host b index = .ok (host.intnat n) := by
  rcases camlBaOffset_spec hdim (h.isIndex hdim) with ⟨m, hm, hok⟩ | ⟨hno, -⟩
  · rw [hok, h.unique hm]
  · exact absurd h (hno n)

theorem at_of_camlBaOffset (hdim : DimsOk host b.dim) {off : Int} (hindex : IsIndex host b index)
    (h : camlBaOffset host b index = .ok off) :
    ∃ n : Nat, At b index n ∧ off = host.intnat n := by
  rcases camlBaOffset_spec hdim hindex with ⟨n, hn, hok⟩ | ⟨-, herr⟩
  · exact ⟨n, hn, (Except.ok.inj (hok.symm.trans h)).symm⟩
  · exact absurd (herr.symm.trans h) nofun

end TravLang.Runtime.Bigarray
