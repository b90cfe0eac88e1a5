import Mathlib.Data.Int.ModEq
import TravLang.Runtime.Bigarray.Offset

/-!
# Views of a bigarray

A view shows a part of the elements of another bigarray, from some position on. `sub` cuts the most
significant dimension, `slice` fixes the digits of the first ones, `change_layout` and `reshape`
keep all of the elements. So the elements of a view of a view of … are those of the allocation.

`caml_ba_sub` takes it that there is a dimension to cut: a bigarray of no dimensions is the
exception in `views_alias_parent`.
-/

namespace TravLang.Runtime.Bigarray

open Result MixedRadix List BaArray

variable {host : Host} {malloc : Malloc} {b b' : BaArray} {base bytes n data : Nat}
  {d vofs vlen : Int} {dim ds vind vdim : List Int} {kind : Kind} {layout : Layout} {α : Type}
  {op : Op}

/-! ## Allocation -/

/-- A block that `malloc` returns is not `NULL` and lies inside of the address space. -/
def MallocOk (host : Host) (malloc : Malloc) : Prop :=
  ∀ size p, malloc size = some p → 0 < p ∧ p + size ≤ 2 ^ host.wordBits

/-- `caml_ba_byte_size`, without wrapping -/
def BaArray.byteSize (host : Host) (b : BaArray) : Nat := b.size * b.elementSize host

theorem Kind.elementSize_pos (host : Host) (kind : Kind) : 0 < kind.elementSize host := by
  have hword : 0 < host.wordSize := by
    rcases wordSize_cases host with h | h <;> (rw [h]; decide)
  cases kind with
  | camlInt => exact hword
  | nativeInt => exact hword
  | _ => exact Nat.succ_pos _

theorem camlUmulOverflow_eq_some {a c : Nat} (h : camlUmulOverflow host a c = some n) :
    n = a * c ∧ n < 2 ^ host.wordBits := by
  unfold camlUmulOverflow at h
  split at h
  · next hlt =>
    obtain rfl := Option.some.inj h
    exact ⟨rfl, hlt⟩
  · exact absurd h nofun

theorem DimsOk.uintnat {dim : List Int} (h : DimsOk host dim) (hd : d ∈ dim) :
    host.uintnat d = d.toNat := by
  obtain ⟨hnonneg, hrange⟩ := h d hd
  have hbounds := inRange_bounds hrange
  exact uintnat_eq_toNat hnonneg (by rw [two_pow_wordBits]; omega)

theorem checkedNumElts_eq_some : ∀ {dim : List Int} {a : Nat}, DimsOk host dim →
    dim.foldlM (fun numElts (d : Int) => camlUmulOverflow host numElts (host.uintnat d)) a =
      some n →
    n = a * (dim.map Int.toNat).prod
  | [], a, _, h => by
    obtain rfl := Option.some.inj h
    rw [map_nil, prod_nil, Nat.mul_one]
  | d :: dim, a, hdim, h => by
    rw [foldlM_cons] at h
    obtain ⟨c, hc, hrest⟩ := Option.bind_eq_some_iff.mp h
    obtain ⟨rfl, -⟩ := camlUmulOverflow_eq_some hc
    rw [checkedNumElts_eq_some (fun e he => hdim e (mem_cons_of_mem d he)) hrest,
      hdim.uintnat mem_cons_self, map_cons, prod_cons, Nat.mul_assoc]

/-- The check of `caml_ba_create` and `caml_ba_reshape` -/
theorem dimsOk_of_any (hneg : ¬ dim.any (· < 0)) (hrange : ∀ d ∈ dim, Runtime.InRange host d) :
    DimsOk host dim := by
  intro d hd
  rw [any_eq_true, not_exists] at hneg
  exact ⟨Int.not_lt.mp fun hlt => hneg d ⟨hd, decide_eq_true hlt⟩, hrange d hd⟩

/-- What `caml_ba_alloc` returns has no more bytes than the address space, and the data it is given
unless that is `NULL`. -/
theorem camlBaAlloc_eq_ok (hdim : DimsOk host dim)
    (h : camlBaAlloc host malloc kind layout data dim = .ok b) :
    b = { data := b.data, kind, layout, dim } ∧ b.byteSize host < 2 ^ host.wordBits ∧
    (data ≠ 0 → b.data = data) ∧
    (data = 0 → malloc (b.byteSize host) = some b.data ∨ b.byteSize host = 0) := by
  unfold camlBaAlloc at h
  split at h
  · exact absurd h nofun
  next numElts hnum =>
  have hnum := checkedNumElts_eq_some hdim hnum
  rw [Nat.one_mul] at hnum
  split at h
  · exact absurd h nofun
  next size hsize =>
  obtain ⟨hsize, hlt⟩ := camlUmulOverflow_eq_some hsize
  have hbytes : ∀ p, byteSize host { data := p, kind, layout, dim } = size := by
    intro p
    rw [hsize, hnum]
    rfl
  split at h
  · next hnull =>
    split at h
    · next p hp =>
      obtain rfl := Except.ok.inj h
      exact ⟨rfl, by rw [hbytes]; exact hlt, fun hne => absurd hnull hne,
        fun _ => .inl (by rw [hbytes]; exact hp)⟩
    · split at h
      · exact absurd h nofun
      · next hzero =>
        obtain rfl := Except.ok.inj h
        exact ⟨rfl, by rw [hbytes]; exact hlt, fun hne => absurd hnull hne,
          fun _ => .inr (by rw [hbytes]; exact Decidable.not_not.mp hzero)⟩
  · next hne =>
    obtain rfl := Except.ok.inj h
    exact ⟨rfl, by rw [hbytes]; exact hlt, fun _ => rfl, fun hnull => absurd hnull hne⟩

theorem camlBaAlloc_ne_badDim :
    camlBaAlloc host malloc kind layout data dim ≠ .error .badDim := by
  unfold camlBaAlloc
  repeat' split
  all_goals exact nofun

/-! ## The allocation that a view is part of -/

/-- The elements of a bigarray lie in a region of `bytes` bytes at `base`. -/
structure Ok (host : Host) (base bytes : Nat) (b : BaArray) : Prop where
  dims : DimsOk host b.dim
  numDims : b.numDims ≤ camlBaMaxNumDims
  fits : b.byteSize host < 2 ^ host.wordBits
  start : 0 < b.size → 0 < base ∧ base ≤ b.data
  finish : 0 < b.size → b.data + b.byteSize host ≤ base + bytes
  region : 0 < b.size → base + bytes ≤ 2 ^ host.wordBits

theorem pointerAdd_eq {m : Int} (h : m % 2 ^ host.wordBits = n % 2 ^ host.wordBits)
    (hlt : data + n < 2 ^ host.wordBits) : pointerAdd host data m = data + n := by
  rw [← uintnat_natCast hlt, pointerAdd]
  refine uintnat_congr ?_
  rw [Nat.cast_add, Int.add_emod, h, ← Int.add_emod]

/-- The last byte of the element at a position is before the end of the bigarray. -/
theorem element_end (host : Host) (hn : n < b.size) :
    n * b.elementSize host + b.elementSize host ≤ b.byteSize host := by
  calc n * b.elementSize host + b.elementSize host = (n + 1) * b.elementSize host :=
        (Nat.succ_mul n _).symm
    _ ≤ b.size * b.elementSize host := Nat.mul_le_mul_right _ hn

namespace Ok

theorem elementAddress (h : Ok host base bytes b) (hn : n < b.size) :
    elementAddress host b (host.intnat n) = b.data + n * b.elementSize host := by
  have hpos : 0 < b.size := Nat.zero_lt_of_lt hn
  have hend := element_end host hn
  have hsize : 0 < b.elementSize host := b.kind.elementSize_pos host
  have hfinish := h.finish hpos
  have hregion := h.region hpos
  refine pointerAdd_eq ?_ (by omega)
  rw [Int.mul_emod, intnat_emod, ← Int.mul_emod, Nat.cast_mul]

end Ok

/-! ## Views and their parents -/

/-- The integers of an operation are those of a host. -/
def Op.InRange (host : Host) : Op → Prop
  | .sub ofs len => Runtime.InRange host ofs ∧ Runtime.InRange host len
  | .slice vind => ∀ i ∈ vind, Runtime.InRange host i
  | .changeLayout _ => True
  | .reshape vdim => ∀ d ∈ vdim, Runtime.InRange host d

/-- An element of the view `b'` of `b` is that of `b` at another index: at the shifted index, the
completed index vector, the reversed and re-based index vector, the same position. -/
def Op.Shows (host : Host) (b b' : BaArray) (index parent : List Int) : Op → Prop
  | .sub ofs _ =>
    match b.layout with
    | .c => ∃ i is, index = i :: is ∧ parent = (i + ofs) :: is
    | .fortran => ∃ i is, index = is ++ [i] ∧ parent = is ++ [i + ofs - 1]
  | .slice vind =>
    match b.layout with
    | .c => parent = vind ++ index
    | .fortran => parent = index ++ vind
  | .changeLayout layout =>
    match b.layout, layout with
    | .c, .fortran => parent = index.reverse.map (· - 1)
    | .fortran, .c => parent = index.reverse.map (· + 1)
    | _, _ => parent = index
  | .reshape _ => camlBaOffset host b parent = camlBaOffset host b' index

/-- The elements of a view are those of its parent from position `k` on. -/
structure IsView (host : Host) (op : Op) (b b' : BaArray) (k : Nat) : Prop where
  dims : DimsOk host b'.dim
  numDims : b'.numDims ≤ camlBaMaxNumDims
  kind : b'.kind = b.kind
  data : 0 < b'.size → b'.data = b.data + k * b.elementSize host
  parent : ∀ {index : List Int} {n : Nat}, At b' index n →
    ∃ index', op.Shows host b b' index index' ∧ At b index' (k + n)

namespace IsView

variable {op : Op} {k : Nat}

/-- The elements of a view are some of its parent's. -/
theorem size_le (h : IsView host op b b' k) (hpos : 0 < b'.size) : k + b'.size ≤ b.size := by
  obtain ⟨index, hat⟩ := exists_at (Nat.sub_lt hpos Nat.one_pos)
  obtain ⟨index', -, hat'⟩ := h.parent hat
  have hlt := hat'.lt
  omega

theorem ok (h : IsView host op b b' k) (hb : Ok host base bytes b) : Ok host base bytes b' := by
  have helt : b'.elementSize host = b.elementSize host := congrArg (Kind.elementSize host) h.kind
  have hmul : 0 < b'.size → k * b.elementSize host + b'.byteSize host ≤ b.byteSize host := by
    intro hpos
    rw [byteSize, helt, ← Nat.add_mul]
    exact Nat.mul_le_mul_right _ (h.size_le hpos)
  have hpos' : 0 < b'.size → 0 < b.size := fun hpos => by
    have := h.size_le hpos
    omega
  refine ⟨h.dims, h.numDims, ?_, ?_, ?_, fun hpos => hb.region (hpos' hpos)⟩
  · rcases Nat.eq_zero_or_pos b'.size with hzero | hpos
    · rw [byteSize, hzero, Nat.zero_mul]
      exact Nat.two_pow_pos _
    · have := hmul hpos
      have := hb.fits
      omega
  · intro hpos
    have := hb.start (hpos' hpos)
    rw [h.data hpos]
    omega
  · intro hpos
    have := hb.finish (hpos' hpos)
    rw [h.data hpos]
    omega

/-- **An element that is read through a view is an element of the parent.** -/
theorem reads (h : IsView host op b b' k) (hb : Ok host base bytes b) {index : List Int}
    (hat : At b' index n) : ∃ index', IsIndex host b index' ∧ op.Shows host b b' index index' ∧
      camlBaOffset host b index' = .ok (host.intnat (k + n : Nat)) ∧
      ∀ mem, camlBaGetN host mem b' index = camlBaGetN host mem b index' := by
  obtain ⟨index', hshows, hat'⟩ := h.parent hat
  have hpos : 0 < b'.size := Nat.zero_lt_of_lt hat.lt
  have helt : b'.elementSize host = b.elementSize host := congrArg (Kind.elementSize host) h.kind
  have hoff := camlBaOffset_of_at hb.dims hat'
  refine ⟨index', hat'.isIndex hb.dims, hshows, hoff, fun mem => ?_⟩
  have haddr : elementAddress host b' (host.intnat n) =
      elementAddress host b (host.intnat (k + n : Nat)) := by
    rw [(h.ok hb).elementAddress hat.lt, hb.elementAddress hat'.lt, h.data hpos, helt, Nat.add_mul,
      Nat.add_assoc]
  unfold camlBaGetN
  rw [if_neg (not_not.mpr (hat.isIndex h.dims).length),
    if_neg (not_not.mpr (hat'.isIndex hb.dims).length), camlBaOffset_of_at h.dims hat, hoff,
      ok_bind,
    ok_bind, haddr, helt]

end IsView

/-! ## Cutting a dimension -/

theorem mulDims_emod : ∀ {dim : List Int} (a : Int), DimsOk host dim →
    dim.foldl (fun mul d => host.intnat (mul * d)) a % 2 ^ host.wordBits =
      a * (dim.map Int.toNat).prod % 2 ^ host.wordBits
  | [], a, _ => by simp
  | d :: dim, a, hdim => by
    obtain ⟨⟨hnonneg, -⟩, hrest⟩ := forall_mem_cons.mp hdim
    rw [foldl_cons, mulDims_emod _ hrest, Int.mul_emod, intnat_emod, ← Int.mul_emod,
      map_cons, prod_cons, Nat.cast_mul, Int.toNat_of_nonneg hnonneg, Int.mul_assoc]

/-- The number of the dimension that `caml_ba_sub` cuts, which is the most significant one -/
def BaArray.changedDim (b : BaArray) : Int :=
  match b.layout with
  | .c => 0
  | .fortran => (b.numDims : Int) - 1

theorem readDim_changedDim (h : b.order b.dim = d :: ds) :
    b.readDim b.changedDim = .ok d := by
  cases hlayout : b.layout with
  | c =>
    rw [b.order_c hlayout] at h
    simp [readDim, changedDim, hlayout, h]
  | fortran =>
    rw [b.order_fortran hlayout, reverse_eq_cons_iff] at h
    simp [readDim, changedDim, numDims, hlayout, h]

theorem readDim_changedDim_nil (h : b.order b.dim = []) :
    b.readDim b.changedDim = .error .badDim := by
  have hnil : b.dim = [] := by
    rw [← length_eq_zero_iff, ← b.length_order, h, length_nil]
  cases hlayout : b.layout with
  | c => simp [readDim, changedDim, hlayout, hnil]
  | fortran => simp [readDim, changedDim, numDims, hlayout, hnil]

theorem writeDim_changedDim {res : BaArray} (h : b.order b.dim = d :: ds) (hdim : res.dim = b.dim)
    (v : Int) :
    res.writeDim b.changedDim v = .ok { res with dim := b.order (v :: ds) } := by
  cases hlayout : b.layout with
  | c =>
    rw [b.order_c hlayout] at h
    simp [writeDim, changedDim, numDims, b.order_c hlayout, hlayout, hdim, h]
  | fortran =>
    rw [b.order_fortran hlayout, reverse_eq_cons_iff] at h
    simp [writeDim, changedDim, numDims, b.order_fortran hlayout, hlayout,
      hdim, h]

theorem camlBaSub_eq (hofs : Runtime.InRange host vofs) (vlen : Int) :
    camlBaSub host malloc b vofs vlen = (do
      if vofs - b.start < 0 ∨ vlen < 0 then
        throw (.invalidArgument "Bigarray.sub: bad sub-array")
      let d ← b.readDim b.changedDim
      if host.intnat (vofs - b.start + vlen) > d then
        throw (.invalidArgument "Bigarray.sub: bad sub-array")
      let mul := mulDims host (b.order ((b.order b.dim).drop 1))
      let res ← camlBaAlloc host malloc b.kind b.layout
        (pointerAdd host b.data ((vofs - b.start) * mul * b.elementSize host)) b.dim
      res.writeDim b.changedDim vlen) := by
  have hbounds := inRange_bounds hofs
  unfold camlBaSub
  cases hlayout : b.layout with
  | c =>
    rw [b.order_c hlayout, b.order_c hlayout, b.start_c hlayout, changedDim, hlayout,
      Int.sub_zero]
  | fortran =>
    rw [b.order_fortran hlayout, b.order_fortran hlayout, b.start_fortran hlayout,
      changedDim, hlayout]
    dsimp only
    rw [intnat_eq_self (by omega) (by omega), drop_one, tail_reverse,
      reverse_reverse]

/-- What `caml_ba_sub` checks and returns. -/
theorem camlBaSub_eq_ok (hdim : DimsOk host b.dim) (hop : (Op.sub vofs vlen).InRange host)
    (h : camlBaSub host malloc b vofs vlen = .ok b') :
    ∃ d ds res, b.order b.dim = d :: ds ∧ 0 ≤ vofs - b.start ∧ 0 ≤ vlen ∧
      vofs - b.start + vlen ≤ d ∧
      camlBaAlloc host malloc b.kind b.layout (pointerAdd host b.data
        ((vofs - b.start) * mulDims host (b.order ds) * b.elementSize host)) b.dim = .ok res ∧
      b' = { res with dim := b.order (vlen :: ds) } := by
  have hofs := inRange_bounds hop.1
  have hlen := inRange_bounds hop.2
  have hstart := b.start_cases
  rw [camlBaSub_eq hop.1] at h
  split at h
  · exact absurd h nofun
  next hnonneg =>
  rw [not_or, Int.not_lt, Int.not_lt] at hnonneg
  obtain ⟨-, -, h⟩ := bind_eq_ok.mp h
  obtain ⟨d, hread, h⟩ := bind_eq_ok.mp h
  split at h
  · exact absurd h nofun
  next hle =>
  obtain ⟨-, -, h⟩ := bind_eq_ok.mp h
  obtain ⟨res, hres, h⟩ := bind_eq_ok.mp h
  have hresdim : res.dim = b.dim := by rw [(camlBaAlloc_eq_ok hdim hres).1]
  cases hds : b.order b.dim with
  | nil =>
    rw [readDim_changedDim_nil hds] at hread
    exact absurd hread nofun
  | cons d' ds =>
    rw [readDim_changedDim hds] at hread
    obtain rfl := Except.ok.inj hread
    rw [hds, drop_one, tail_cons] at hres
    rw [writeDim_changedDim hds hresdim] at h
    rw [intnat_eq_self (by omega) (by omega), Int.not_lt] at hle
    exact ⟨d', ds, res, rfl, hnonneg.1, hnonneg.2, hle, hres, (Except.ok.inj h).symm⟩

theorem order_eq_of_layout (h : b'.layout = b.layout) (l : List α) :
    b'.order l = b.order l := by
  rw [order, order, h]

theorem start_eq_of_layout (h : b'.layout = b.layout) : b'.start = b.start := by
  rw [start, start, h]

/-- The index vectors of an element before and after its first digit is shifted. -/
theorem shows_sub {o i : Nat} {is : List Nat} (hlayout : b'.layout = b.layout)
    (ho : vofs - b.start = o) :
    (Op.sub vofs vlen).Shows host b b' (b'.undigits (ints (i :: is)))
      (b.undigits (ints ((o + i) :: is))) := by
  unfold Op.Shows
  cases hl : b.layout with
  | c =>
    rw [b.start_c hl, Int.sub_zero] at ho
    have hl' := hlayout.trans hl
    simp only [undigits, b.order_c hl, b'.order_c hl', b.start_c hl, b'.start_c hl', ints,
      map_cons, Int.add_zero]
    exact ⟨i, _, rfl, by rw [ho, Nat.cast_add, Int.add_comm (i : Int)]⟩
  | fortran =>
    rw [b.start_fortran hl] at ho
    have hl' := hlayout.trans hl
    simp only [undigits, b.order_fortran hl, b'.order_fortran hl', b.start_fortran hl,
      b'.start_fortran hl', ints, map_cons, reverse_cons, map_append, map_nil]
    have hlast : ((o + i : Nat) : Int) + 1 = i + 1 + vofs - 1 := by omega
    exact ⟨i + 1, _, rfl, by rw [hlast]⟩

theorem isView_sub (hb : Ok host base bytes b) (hop : (Op.sub vofs vlen).InRange host)
    (h : camlBaSub host malloc b vofs vlen = .ok b') :
    ∃ k, IsView host (.sub vofs vlen) b b' k := by
  obtain ⟨d, ds, res, hds, hofs, hlen, hle, hres, hb'⟩ := camlBaSub_eq_ok hb.dims hop h
  obtain ⟨hrec, -, hdata, -⟩ := camlBaAlloc_eq_ok hb.dims hres
  have hlayout : b'.layout = b.layout := by rw [hb', hrec]
  have hkind : b'.kind = b.kind := by rw [hb', hrec]
  have hrad : b.radices = d.toNat :: ds.map Int.toNat := by
    rw [radices, ← b.map_order, hds, map_cons]
  have hrad' : b'.radices = vlen.toNat :: ds.map Int.toNat := by
    rw [radices, ← b'.map_order, order_eq_of_layout hlayout, hb', b.order_order,
      map_cons]
  have hdims : DimsOk host ds := fun e he =>
    hb.dims e (b.mem_order.mp (by rw [hds]; exact mem_cons_of_mem d he))
  obtain ⟨o, ho⟩ := Int.eq_ofNat_of_zero_le hofs
  refine ⟨o * (ds.map Int.toNat).prod, ?_, ?_, hkind, ?_, ?_⟩
  · rw [hb']
    intro e he
    rcases mem_cons.mp (b.mem_order.mp he) with rfl | he
    · exact ⟨hlen, hop.2⟩
    · exact hdims e he
  · have hcard : b'.numDims = b.numDims := by
      rw [numDims, numDims, ← b.length_order b.dim, hds, hb']
      simp
    rw [hcard]
    exact hb.numDims
  · intro hpos
    rw [← b'.prod_radices, hrad', prod_cons] at hpos
    have hsize : o * (ds.map Int.toNat).prod < b.size := by
      rw [← b.prod_radices, hrad, prod_cons]
      exact Nat.mul_lt_mul_of_pos_right
        (by have := Nat.pos_of_mul_pos_right hpos; omega) (Nat.pos_of_mul_pos_left hpos)
    have hbpos := Nat.zero_lt_of_lt hsize
    have hend := element_end host hsize
    have hstart := hb.start hbpos
    have hfinish := hb.finish hbpos
    have hregion := hb.region hbpos
    have helt : 0 < b.elementSize host := b.kind.elementSize_pos host
    have hptr : pointerAdd host b.data
        ((vofs - b.start) * mulDims host (b.order ds) * b.elementSize host) =
        b.data + o * (ds.map Int.toNat).prod * b.elementSize host := by
      refine pointerAdd_eq ?_ (by omega)
      have hmul := mulDims_emod 1 fun e he => hdims e (b.mem_order.mp he)
      rw [b.map_order, b.prod_order, Int.one_mul] at hmul
      rw [ho, Nat.cast_mul, Nat.cast_mul]
      exact (Int.ModEq.mul_left o hmul).mul_right (b.elementSize host)
    rw [hptr] at hdata
    rw [hb']
    exact hdata (by omega)
  · rintro index n ⟨is, his, hdigits, rfl⟩
    rw [← b'.undigits_digits index, his]
    rw [hrad'] at hdigits ⊢
    cases hdigits with
    | @cons i _ is _ hi his =>
      refine ⟨_, shows_sub hlayout ho, (o + i) :: is, b.digits_undigits _, ?_, ?_⟩
      · rw [hrad]
        exact .cons (by omega) his
      · rw [hrad, value_cons, value_cons, Nat.add_mul, Nat.add_assoc]

/-! ## Fixing digits -/

/-- An index vector from the more significant indices and the less significant ones. -/
def BaArray.join {α : Type} (b : BaArray) (l l' : List α) : List α :=
  match b.layout with
  | .c => l ++ l'
  | .fortran => l' ++ l

section

variable (b)

theorem order_join (l l' : List α) : b.order (b.join l l') = b.order l ++ b.order l' := by
  cases hlayout : b.layout with
  | c => rw [b.order_c hlayout, b.order_c hlayout, b.order_c hlayout, join, hlayout]
  | fortran =>
    rw [b.order_fortran hlayout, b.order_fortran hlayout, b.order_fortran hlayout, join,
      hlayout, reverse_append]

variable {β : Type}

theorem map_join (f : α → β) (l l' : List α) :
    (b.join l l').map f = b.join (l.map f) (l'.map f) := by
  unfold join
  split
  · exact map_append
  · exact map_append

theorem digits_join (l l' : List Int) : b.digits (b.join l l') = b.digits l ++ b.digits l' := by
  rw [digits, map_join, order_join]
  rfl

theorem digits_replicate (n : Nat) :
    b.digits (List.replicate n b.start) = ints (List.replicate n 0) := by
  rw [digits, ints, map_replicate, map_replicate, Int.sub_self]
  unfold order
  split
  · rfl
  · exact reverse_replicate

theorem mem_join {l l' : List α} {a : α} : a ∈ b.join l l' ↔ a ∈ l ∨ a ∈ l' := by
  unfold join
  split
  · exact mem_append
  · exact mem_append.trans Or.comm

theorem length_join (l l' : List α) : (b.join l l').length = l.length + l'.length := by
  unfold join
  split
  · exact length_append
  · rw [length_append, Nat.add_comm]

end

theorem camlBaSlice_eq (host : Host) (malloc : Malloc) (b : BaArray) {vind : List Int}
    (hlen : vind.length < 2 ^ 31) :
    camlBaSlice host malloc b vind = (do
      if vind.length > b.numDims then
        throw (.invalidArgument "Bigarray.slice: too many indices")
      let offset ← camlBaOffset host b
        (b.join vind (List.replicate (b.numDims - vind.length) b.start))
      camlBaAlloc host malloc b.kind b.layout (elementAddress host b offset)
        (b.order ((b.order b.dim).drop vind.length))) := by
  have hinds : (vind.length : Int).bmod (2 ^ 32) = vind.length :=
    Int.bmod_eq_of_le_mul_two (by omega) (by omega)
  have hneg : ¬ (vind.length : Int) < 0 := by omega
  unfold camlBaSlice
  simp only [hinds, Int.toNat_natCast, take_length, hneg, false_and, if_false, gt_iff_lt,
    Int.ofNat_lt]
  cases hlayout : b.layout with
  | c => rw [b.order_c hlayout, b.order_c hlayout, b.start_c hlayout, join, hlayout]
  | fortran =>
    rw [b.order_fortran hlayout, b.order_fortran hlayout, b.start_fortran hlayout, join,
      hlayout, drop_reverse, reverse_reverse]
    rfl

/-- What `caml_ba_slice` checks and returns. -/
theorem camlBaSlice_eq_ok (hlen : vind.length < 2 ^ 31)
    (h : camlBaSlice host malloc b vind = .ok b') :
    vind.length ≤ b.numDims ∧ ∃ offset,
      camlBaOffset host b (b.join vind (List.replicate (b.numDims - vind.length) b.start)) =
        .ok offset ∧
      camlBaAlloc host malloc b.kind b.layout (elementAddress host b offset)
        (b.order ((b.order b.dim).drop vind.length)) = .ok b' := by
  rw [camlBaSlice_eq host malloc b hlen] at h
  split at h
  · exact absurd h nofun
  · next hle =>
    obtain ⟨-, -, h⟩ := bind_eq_ok.mp h
    exact ⟨Nat.not_lt.mp hle, bind_eq_ok.mp h⟩

theorem shows_slice (host : Host) (b b' : BaArray) (vind index : List Int) :
    (Op.slice vind).Shows host b b' index (b.join vind index) := by
  cases hlayout : b.layout with
  | c => simp [Op.Shows, join, hlayout]
  | fortran => simp [Op.Shows, join, hlayout]

theorem inRange_start (host : Host) (b : BaArray) : Runtime.InRange host b.start := by
  have hpow : (2 : Int) ≤ 2 ^ (host.wordBits - 2) := by
    rcases wordBits_cases host with hbits | hbits <;> (rw [hbits]; decide)
  rcases b.start_cases with hstart | hstart <;> (rw [hstart]; exact ⟨by omega, by omega⟩)

theorem isView_slice (hb : Ok host base bytes b) (hop : (Op.slice vind).InRange host)
    (hlen : vind.length < 2 ^ 31) (h : camlBaSlice host malloc b vind = .ok b') :
    ∃ k, IsView host (.slice vind) b b' k := by
  obtain ⟨hle, offset, hoffset, halloc⟩ := camlBaSlice_eq_ok hlen h
  have hdims : DimsOk host (b.order ((b.order b.dim).drop vind.length)) := fun d hd =>
    hb.dims d (b.mem_order.mp (mem_of_mem_drop (b.mem_order.mp hd)))
  obtain ⟨hrec, -, hdata, -⟩ := camlBaAlloc_eq_ok hdims halloc
  have hlayout : b'.layout = b.layout := by rw [hrec]
  have hdim : b'.dim = b.order ((b.order b.dim).drop vind.length) := by rw [hrec]
  have hrad : b'.radices = b.radices.drop vind.length := by
    rw [radices, ← b'.map_order, order_eq_of_layout hlayout, hdim, b.order_order,
      map_drop, b.map_order]
    rfl
  have hindex : IsIndex host b
      (b.join vind (List.replicate (b.numDims - vind.length) b.start)) := by
    refine ⟨?_, ?_⟩
    · rw [length_join, length_replicate, Nat.add_sub_cancel' hle]
    · intro i hi
      rcases (mem_join b).mp hi with hi | hi
      · exact hop i hi
      · rw [eq_of_mem_replicate hi]
        exact inRange_start host b
  obtain ⟨n₀, ⟨is, his, hdigits, hval⟩, rfl⟩ := at_of_camlBaOffset hb.dims hindex hoffset
  rw [digits_join, digits_replicate, eq_comm, ints, map_eq_append_iff] at his
  obtain ⟨is₁, is₂, rfl, his₁, his₂⟩ := his
  have hlen₁ : is₁.length = vind.length := by
    rw [← length_map (Nat.cast : Nat → Int), his₁, digits, b.length_order, length_map]
  obtain ⟨hdigits₁, hdigits₂⟩ := of_append hdigits
  rw [hlen₁, ← hrad] at hdigits₂
  rw [hlen₁] at hdigits₁
  have hsplit : b.radices = b.radices.take vind.length ++ b'.radices := by
    rw [hrad, take_append_drop]
  have hzeros : value b'.radices is₂ = 0 := by
    rw [← value_replicate_zero b'.radices (b.numDims - vind.length)]
    exact congrArg (value b'.radices) ((List.map_inj_right fun _ _ => Int.natCast_inj.mp).mp his₂)
  have hn₀ : n₀ < b.size := by
    rw [← hval, ← b.prod_radices]
    exact value_lt hdigits
  rw [hsplit, value_append hdigits₁, hzeros, Nat.add_zero] at hval
  refine ⟨n₀, hdim ▸ hdims, ?_, by rw [hrec], ?_, ?_⟩
  · have hcard : b'.numDims = b.numDims - vind.length := by
      rw [numDims, hdim, b.length_order, length_drop, b.length_order]
      rfl
    rw [hcard]
    exact (Nat.sub_le _ _).trans hb.numDims
  · intro _
    have hstart := hb.start (Nat.zero_lt_of_lt hn₀)
    rw [hb.elementAddress hn₀] at hdata
    exact hdata (by omega)
  · rintro index n ⟨is, his, hdigits', rfl⟩
    have hdig : b'.digits index = b.digits index := by
      rw [digits, order_eq_of_layout hlayout, start_eq_of_layout hlayout]
      rfl
    refine ⟨b.join vind index, ?_, is₁ ++ is, ?_, ?_, ?_⟩
    · exact shows_slice host b b' vind index
    · rw [digits_join, ← his₁, ← hdig, his, ints, ints, map_append]
    · rw [hsplit]
      exact rel_append hdigits₁ hdigits'
    · rw [hsplit, value_append hdigits₁, hval]

/-! ## Keeping the elements -/

/-- A view of all of the elements, with their radices. -/
theorem data_eq_of_alloc (hb : Ok host base bytes b) (hsize : b'.size = b.size)
    (hdata : b.data ≠ 0 → b'.data = b.data) :
    0 < b'.size → b'.data = b.data + 0 * b.elementSize host := by
  intro hpos
  have hstart := hb.start (hsize ▸ hpos)
  rw [Nat.zero_mul, Nat.add_zero]
  exact hdata (by omega)

theorem digits_changeLayout (hne : layout ≠ b.layout) (hl : b'.layout = layout) (index : List Int) :
    ∃ index', (Op.changeLayout layout).Shows host b b' index index' ∧
      b.digits index' = b'.digits index := by
  subst hl
  cases hlayout : b.layout with
  | c =>
    have hl' : b'.layout = .fortran := by
      cases h : b'.layout with
      | c => exact absurd (h.trans hlayout.symm) hne
      | fortran => rfl
    refine ⟨index.reverse.map (· - 1), by simp [Op.Shows, hlayout, hl'], ?_⟩
    simp [digits, b.order_c hlayout, b.start_c hlayout, b'.order_fortran hl',
      b'.start_fortran hl']
  | fortran =>
    have hl' : b'.layout = .c := by
      cases h : b'.layout with
      | c => rfl
      | fortran => exact absurd (h.trans hlayout.symm) hne
    refine ⟨index.reverse.map (· + 1), by simp [Op.Shows, hlayout, hl'], ?_⟩
    simp [digits, b.order_fortran hlayout, b.start_fortran hlayout, b'.order_c hl',
      b'.start_c hl', Function.comp_def]

theorem order_reverse (hne : b'.layout ≠ b.layout) (l : List α) :
    b'.order l.reverse = b.order l := by
  cases hlayout : b.layout with
  | c =>
    cases h : b'.layout with
    | c => exact absurd (h.trans hlayout.symm) hne
    | fortran => rw [b'.order_fortran h, b.order_c hlayout, reverse_reverse]
  | fortran =>
    cases h : b'.layout with
    | c => rw [b'.order_c h, b.order_fortran hlayout]
    | fortran => exact absurd (h.trans hlayout.symm) hne

theorem isView_changeLayout (hb : Ok host base bytes b)
    (h : camlBaChangeLayout host malloc b layout = .ok b') :
    ∃ k, IsView host (.changeLayout layout) b b' k := by
  unfold camlBaChangeLayout at h
  split at h
  · next hne =>
    have hdims : DimsOk host b.dim.reverse := fun d hd => hb.dims d (mem_reverse.mp hd)
    obtain ⟨hrec, -, hdata, -⟩ := camlBaAlloc_eq_ok hdims h
    have hlayout : b'.layout = layout := by rw [hrec]
    have hdim : b'.dim = b.dim.reverse := by rw [hrec]
    have hrad : b'.radices = b.radices := by
      rw [radices, hdim, map_reverse, order_reverse (hlayout ▸ hne)]
      rfl
    have hsize : b'.size = b.size := by rw [← b'.prod_radices, hrad, b.prod_radices]
    refine ⟨0, hdim ▸ hdims, ?_, by rw [hrec], data_eq_of_alloc hb hsize hdata, ?_⟩
    · rw [numDims, hdim, length_reverse]
      exact hb.numDims
    · rintro index n ⟨is, his, hdigits, hval⟩
      obtain ⟨index', hshows, hdig⟩ := digits_changeLayout hne hlayout index
      rw [hrad] at hdigits hval
      exact ⟨index', hshows, is, hdig.trans his, hdigits, by rw [hval, Nat.zero_add]⟩
  · next heq =>
    obtain rfl := Except.ok.inj h
    have heq := Decidable.not_not.mp heq
    refine ⟨0, hb.dims, hb.numDims, rfl, data_eq_of_alloc hb rfl fun _ => rfl, ?_⟩
    intro index n hat
    refine ⟨index, ?_, by rw [Nat.zero_add]; exact hat⟩
    rw [heq]
    cases hlayout : b.layout with
    | c => simp [Op.Shows, hlayout]
    | fortran => simp [Op.Shows, hlayout]

/-- The number of elements without the check for an overflow -/
theorem foldl_uintnat : ∀ {dim : List Int} (a : Nat), DimsOk host dim → a < 2 ^ host.wordBits →
    dim.foldl (fun numElts (d : Int) => host.uintnat (numElts * d)) a =
      a * (dim.map Int.toNat).prod % 2 ^ host.wordBits
  | [], a, _, ha => by
    rw [foldl_nil, map_nil, prod_nil, Nat.mul_one, Nat.mod_eq_of_lt ha]
  | d :: dim, a, hdim, _ => by
    obtain ⟨⟨hnonneg, -⟩, hrest⟩ := forall_mem_cons.mp hdim
    obtain ⟨e, rfl⟩ := Int.eq_ofNat_of_zero_le hnonneg
    have hstep : host.uintnat (a * (e : Int)) = a * e % 2 ^ host.wordBits := by
      unfold Host.uintnat
      rw [← Nat.cast_mul]
      exact_mod_cast Int.toNat_natCast _
    rw [foldl_cons, foldl_uintnat _ hrest (uintnat_lt host _), hstep, map_cons,
      prod_cons, Int.toNat_natCast, Nat.mod_mul_mod, Nat.mul_assoc]

theorem isView_reshape (hb : Ok host base bytes b) (hop : (Op.reshape vdim).InRange host)
    (h : camlBaReshape host malloc b vdim = .ok b') :
    ∃ k, IsView host (.reshape vdim) b b' k := by
  unfold camlBaReshape at h
  split at h
  · exact absurd h nofun
  next hcard =>
  split at h
  · exact absurd h nofun
  next hneg =>
  have hdims := dimsOk_of_any hneg hop
  split at h
  · exact absurd h nofun
  next helts =>
  obtain ⟨hrec, hfits, hdata, -⟩ := camlBaAlloc_eq_ok hdims h
  have hdim : b'.dim = vdim := by rw [hrec]
  have hone : 1 < 2 ^ host.wordBits := by
    rcases wordBits_cases host with hbits | hbits <;> (rw [hbits]; decide)
  have hlt : ∀ {c : BaArray}, c.byteSize host < 2 ^ host.wordBits →
      c.size < 2 ^ host.wordBits := fun {c} hc =>
    (Nat.le_mul_of_pos_right _ (c.kind.elementSize_pos host)).trans_lt hc
  have hsize : b'.size = b.size := by
    have helts := Decidable.not_not.mp helts
    rw [camlBaNumElts, foldl_uintnat 1 hdims hone, foldl_uintnat 1 hb.dims hone, Nat.one_mul,
      Nat.one_mul, ← hdim] at helts
    rwa [← size, ← size, Nat.mod_eq_of_lt (hlt hfits),
      Nat.mod_eq_of_lt (hlt hb.fits)] at helts
  refine ⟨0, hdim ▸ hdims, ?_, by rw [hrec], data_eq_of_alloc hb hsize hdata, ?_⟩
  · rw [numDims, hdim]
    exact Nat.not_lt.mp hcard
  · intro index n hat
    obtain ⟨index', hat'⟩ := exists_at (b := b) (hsize ▸ hat.lt)
    refine ⟨index', ?_, by rw [Nat.zero_add]; exact hat'⟩
    exact (camlBaOffset_of_at hb.dims hat').trans
      (camlBaOffset_of_at (hdim ▸ hdims) hat).symm

/-! ## Whole runs -/

/-- There is a dimension that the operation can cut, and the number of indices is an `int`. -/
def Op.Applicable (b : BaArray) : Op → Prop
  | .sub _ _ => b.numDims ≠ 0
  | .slice vind => vind.length < 2 ^ 31
  | _ => True

/-- A view of a bigarray is a part of its elements. -/
theorem isView_apply (hb : Ok host base bytes b) (hop : op.InRange host) (happ : op.Applicable b)
    (h : op.apply host malloc b = .ok b') : ∃ k, IsView host op b b' k := by
  cases op with
  | sub ofs len => exact isView_sub hb hop h
  | slice vind =>
    simp only [Op.Applicable, Op.apply] at happ h
    exact isView_slice hb hop happ h
  | changeLayout layout => exact isView_changeLayout hb h
  | reshape vdim => exact isView_reshape hb hop h

/-- The bigarrays that come from an allocation of `bytes` bytes at `base`. -/
inductive Reachable (host : Host) (base bytes : Nat) : BaArray → Prop where
  | create {malloc : Malloc} {kind : Kind} {layout : Layout} {vdim : List Int} {b : BaArray} :
      MallocOk host malloc → (∀ d ∈ vdim, Runtime.InRange host d) →
      camlBaCreate host malloc kind layout vdim = .ok b → b.data = base → b.byteSize host = bytes →
      Reachable host base bytes b
  | view {malloc : Malloc} {op : Op} {b b' : BaArray} :
      Reachable host base bytes b → MallocOk host malloc → op.InRange host → op.Applicable b →
      op.apply host malloc b = .ok b' → Reachable host base bytes b'

theorem ok_create (hmalloc : MallocOk host malloc) (hvdim : ∀ d ∈ vdim, Runtime.InRange host d)
    (h : camlBaCreate host malloc kind layout vdim = .ok b) :
    Ok host b.data (b.byteSize host) b := by
  unfold camlBaCreate at h
  split at h
  · exact absurd h nofun
  next hcard =>
  split at h
  · exact absurd h nofun
  next hneg =>
  have hdims := dimsOk_of_any hneg hvdim
  obtain ⟨hrec, hfits, -, hdata⟩ := camlBaAlloc_eq_ok hdims h
  have hdim : b.dim = vdim := by rw [hrec]
  have hblock : 0 < b.size → 0 < b.data ∧ b.data + b.byteSize host ≤ 2 ^ host.wordBits := by
    intro hpos
    rcases hdata rfl with hp | hzero
    · exact hmalloc _ _ hp
    · have := Nat.mul_pos hpos (b.kind.elementSize_pos host)
      exact absurd hzero (Nat.ne_of_gt this)
  exact ⟨hdim ▸ hdims, by rw [numDims, hdim]; exact Nat.not_lt.mp hcard, hfits,
    fun hpos => ⟨(hblock hpos).1, Nat.le_refl _⟩, fun _ => Nat.le_refl _,
    fun hpos => (hblock hpos).2⟩

theorem Reachable.ok (h : Reachable host base bytes b) : Ok host base bytes b := by
  induction h with
  | create hmalloc hvdim hcreate hbase hbytes =>
    subst hbase hbytes
    exact ok_create hmalloc hvdim hcreate
  | view _ _ hop happ happly ih =>
    obtain ⟨k, hview⟩ := isView_apply ih hop happ happly
    exact hview.ok ih

/-! ## Reads of dimensions -/

theorem offsetLoop_ne_badDim : ∀ (l : List (Int × Int)) (offset : Int),
    offsetLoop host offset l ≠ .error .badDim
  | [], _ => by simp [offsetLoop]
  | (_, _) :: l, _ => by
    rw [offsetLoop]
    split
    · simp
    · exact offsetLoop_ne_badDim l _

theorem camlBaOffset_ne_badDim (index : List Int) : camlBaOffset host b index ≠ .error .badDim := by
  unfold camlBaOffset
  split
  · exact offsetLoop_ne_badDim _ _
  · exact offsetLoop_ne_badDim _ _

/-- An error of a sequence is an error of one of its parts. -/
theorem bind_ne_badDim {x : Except Exn α} {f : α → Except Exn β} (hx : x ≠ .error .badDim)
    (hf : ∀ a, x = .ok a → f a ≠ .error .badDim) :
    (x >>= f) ≠ .error .badDim := by
  cases x with
  | error e => exact fun h => hx (congrArg Except.error (Except.error.inj h))
  | ok a => exact hf a rfl

theorem camlBaSub_ne_badDim (hdim : DimsOk host b.dim) (hofs : Runtime.InRange host vofs)
    (h : b.numDims ≠ 0) :
    camlBaSub host malloc b vofs vlen ≠ .error .badDim := by
  cases hds : b.order b.dim with
  | nil => exact absurd (by rw [numDims, ← b.length_order, hds, length_nil]) h
  | cons d ds =>
    rw [camlBaSub_eq hofs, readDim_changedDim hds]
    split
    · exact nofun
    rw [ok_bind]
    split
    · exact nofun
    · refine bind_ne_badDim camlBaAlloc_ne_badDim fun res hres => ?_
      rw [writeDim_changedDim hds (by rw [(camlBaAlloc_eq_ok hdim hres).1])]
      exact nofun

/-- **An operation reads no dimension that does not exist, if there is one that it can cut.** -/
theorem apply_ne_badDim (hdim : DimsOk host b.dim) (hop : op.InRange host)
    (happ : op.Applicable b) :
    op.apply host malloc b ≠ .error .badDim := by
  cases op with
  | sub ofs len => exact camlBaSub_ne_badDim hdim hop.1 happ
  | slice vind =>
    simp only [Op.Applicable, Op.apply] at happ ⊢
    rw [camlBaSlice_eq host malloc b happ]
    split
    · exact nofun
    · exact bind_ne_badDim (camlBaOffset_ne_badDim _) fun _ _ => camlBaAlloc_ne_badDim
  | changeLayout layout =>
    show camlBaChangeLayout host malloc b layout ≠ .error .badDim
    unfold camlBaChangeLayout
    split
    · exact camlBaAlloc_ne_badDim
    · exact nofun
  | reshape vdim =>
    show camlBaReshape host malloc b vdim ≠ .error .badDim
    unfold camlBaReshape
    split
    · exact nofun
    · split
      · exact nofun
      · split
        · exact nofun
        · exact camlBaAlloc_ne_badDim

/-- **Views are safe and alias what they should.** For a bigarray that comes from `create` by views:
accepted index vectors address elements inside of the allocation, different ones address different
elements, an element of a further view is an element of the bigarray, and no operation reads a
dimension that does not exist unless it is a `sub` of a bigarray of no dimensions or a `slice` with
`2 ^ 31` or more indices. -/
theorem views_alias_parent (h : Reachable host base bytes b) :
    (∀ index off, IsIndex host b index → camlBaOffset host b index = .ok off →
      base ≤ elementAddress host b off ∧
      elementAddress host b off + b.elementSize host ≤ base + bytes) ∧
    (∀ index index' off off', IsIndex host b index → IsIndex host b index' →
      camlBaOffset host b index = .ok off → camlBaOffset host b index' = .ok off' →
      index ≠ index' →
      elementAddress host b off + b.elementSize host ≤ elementAddress host b off' ∨
      elementAddress host b off' + b.elementSize host ≤ elementAddress host b off) ∧
    (∀ (malloc : Malloc) (op : Op) (b' : BaArray), MallocOk host malloc → op.InRange host →
      op.Applicable b → op.apply host malloc b = .ok b' → ∀ index off, IsIndex host b' index →
      camlBaOffset host b' index = .ok off → ∃ index' off', IsIndex host b index' ∧
        op.Shows host b b' index index' ∧ camlBaOffset host b index' = .ok off' ∧
        ∀ mem, camlBaGetN host mem b' index = camlBaGetN host mem b index') ∧
    (∀ (malloc : Malloc) (op : Op), op.InRange host → op.Applicable b →
      op.apply host malloc b ≠ .error .badDim) := by
  have hb := h.ok
  refine ⟨?_, ?_, ?_, ?_⟩
  · intro index off hindex hoff
    obtain ⟨n, hat, rfl⟩ := at_of_camlBaOffset hb.dims hindex hoff
    have hpos := Nat.zero_lt_of_lt hat.lt
    have hstart := hb.start hpos
    have hfinish := hb.finish hpos
    have hend := element_end host hat.lt
    rw [hb.elementAddress hat.lt]
    omega
  · intro index index' off off' hindex hindex' hoff hoff' hne
    obtain ⟨n, hat, rfl⟩ := at_of_camlBaOffset hb.dims hindex hoff
    obtain ⟨n', hat', rfl⟩ := at_of_camlBaOffset hb.dims hindex' hoff'
    have hstep : ∀ {i j : Nat}, i < j →
        i * b.elementSize host + b.elementSize host ≤ j * b.elementSize host := fun {i j} hij => by
      rw [← Nat.succ_mul]
      exact Nat.mul_le_mul_right _ hij
    rw [hb.elementAddress hat.lt, hb.elementAddress hat'.lt]
    rcases Nat.lt_trichotomy n n' with hlt | rfl | hlt
    · exact .inl (by have := hstep hlt; omega)
    · exact absurd (hat.inj hat') hne
    · exact .inr (by have := hstep hlt; omega)
  · intro malloc op b' _ hop happ happly index off hindex hoff
    obtain ⟨k, hview⟩ := isView_apply hb hop happ happly
    obtain ⟨n, hat, -⟩ := at_of_camlBaOffset hview.dims hindex hoff
    obtain ⟨index', hindex', hshows, hoff', hreads⟩ := hview.reads hb hat
    exact ⟨index', _, hindex', hshows, hoff', hreads⟩
  · intro malloc op hop happ
    exact apply_ne_badDim hb.dims hop happ

/-- `malloc` on a heap with a block at 4096 -/
def oneBlock : Malloc := fun size => if size ≤ 4096 then some 4096 else none

theorem mallocOk_oneBlock : MallocOk host64 oneBlock := by
  intro size p h
  unfold oneBlock at h
  split at h
  · next hle =>
    obtain rfl := Option.some.inj h
    have hpow : 2 ^ host64.wordBits = 18446744073709551616 := by decide
    rw [hpow]
    omega
  · exact absurd h nofun

/-- A matrix of six elements -/
def matrix : BaArray := ⟨4096, .int32, .fortran, [2, 3]⟩

/-- Its last two columns -/
def lastColumns : BaArray := ⟨4104, .int32, .fortran, [2, 2]⟩

theorem views_alias_parent_lastColumns :
    camlBaCreate host64 oneBlock .int32 .fortran [2, 3] = .ok matrix ∧
    (Op.sub 2 2).apply host64 oneBlock matrix = .ok lastColumns ∧
    ∀ index off, IsIndex host64 lastColumns index →
      camlBaOffset host64 lastColumns index = .ok off →
      4096 ≤ elementAddress host64 lastColumns off ∧
      elementAddress host64 lastColumns off + 4 ≤ 4096 + 24 := by
  have hcreate : camlBaCreate host64 oneBlock .int32 .fortran [2, 3] = .ok matrix := by decide
  have happly : (Op.sub 2 2).apply host64 oneBlock matrix = .ok lastColumns := by decide
  have hmatrix : Reachable host64 4096 24 matrix :=
    .create mallocOk_oneBlock (by decide) hcreate rfl rfl
  have hop : (Op.sub 2 2).InRange host64 := ⟨by decide, by decide⟩
  have happ : (Op.sub 2 2).Applicable matrix := show (2 : Nat) ≠ 0 by decide
  have hview : Reachable host64 4096 24 lastColumns :=
    .view hmatrix mallocOk_oneBlock hop happ happly
  exact ⟨hcreate, happly, (views_alias_parent hview).1⟩

/-- **`sub` of a bigarray of no dimensions reads a dimension, which does not exist.** -/
theorem sub_of_no_dimensions :
    ∃ b, camlBaCreate host64 oneBlock .char .c [] = .ok b ∧
      (Op.sub 0 0).apply host64 oneBlock b = .error .badDim :=
  ⟨⟨4096, .char, .c, []⟩, by decide, by decide⟩

end TravLang.Runtime.Bigarray
