import TravLang.Runtime.Marshal.Writing

/-!
# Float arrays

Arrays of any length that both hosts can hold. The reader swaps the bytes of every array whose
length takes eight bytes, also when its byte order is that of the writer.
-/

namespace TravLang.Runtime.Marshal

open Result

theorem externDoubleArrayLength_ok {w : Host} {flags : Flags} {n : Nat}
    (hflags : flags.compat32 = true → n ≤ 0x1FFFFF) :
    ∃ bs, externDoubleArrayLength w flags n = .ok bs := by
  unfold externDoubleArrayLength externLength
  have hlimit : ¬ (0x1FFFFF < n ∧ flags.compat32 = true) := by
    rintro ⟨hlt, hcompat⟩
    have := hflags hcompat
    omega
  rw [if_neg hlimit]
  split_ifs <;> exact ⟨_, rfl⟩

/-- A float array that a host can hold, with a bound for its length. -/
theorem length_lt_of_wosize {h : Host} {ds : List UInt64}
    (hsize : ds.length * h.doubleWosize ≤ h.maxWosize) :
    ds.length < 2 ^ h.wordBits ∧ (h.sixtyFour = true ∨ ds.length < 2 ^ 32) := by
  rcases h with ⟨_ | _, _⟩ <;>
    simp [Host.doubleWosize, Host.maxWosize, Host.wordBits, Host.wordSize] at hsize ⊢ <;> omega

/-- **Float arrays come back with the same floats**, for any byte orders of the writer and of the
reader, exactly if there are fewer than `2 ^ 32` floats, the two orders differ or each float reads
the same in both orders. -/
theorem float_array_round_trip {w r : Host} {flags : Flags} {ds : List UInt64}
    (hw : ds.length * w.doubleWosize ≤ w.maxWosize) (hr : ds.length * r.doubleWosize ≤ r.maxWosize)
    (hflags : flags.compat32 = true → ds.length ≤ 0x1FFFFF) :
    ∃ bs, externDoubleArray w flags ds = .ok bs ∧ ∀ f rest, ∃ code src,
      readCode f r (bs ++ rest) = .ok (.readDoubleArray code ds.length, src) ∧
      (readfloats r code ds.length src = .ok (ds, rest) ↔
        ds.length < 2 ^ 32 ∨ w.bigEndian ≠ r.bigEndian ∨ ∀ d ∈ ds, byteSwapped d = d) := by
  obtain ⟨len, hlen⟩ := externDoubleArrayLength_ok (w := w) hflags
  have hextern : externDoubleArray w flags ds = .ok (len ++ ds.flatMap (doubleBytes w)) := by
    rw [externDoubleArray, hlen, ok_bind]
  refine ⟨_, hextern, fun f rest => ?_⟩
  have hc : Compatible w r flags ∨ ds.length < 2 ^ 32 :=
    (length_lt_of_wosize hr).2.imp .inl id
  obtain ⟨code, hcode, hread⟩ :=
    readCode_doubleArray f rest hc (length_lt_of_wosize hw).1 hextern
  refine ⟨code, _, hread, ?_⟩
  obtain ⟨h8, h32, h64⟩ := readfloats_doubleBytes (w := w) (r := r) rest ds
  rcases hcode with ⟨rfl | rfl, hlt⟩ | ⟨rfl, hge⟩
  · exact iff_of_true h8 (.inl hlt)
  · exact iff_of_true h32 (.inl hlt)
  · have hswap : ds.map byteSwapped = ds ↔ ∀ d ∈ ds, byteSwapped d = d := by
      simpa using List.map_inj_left (f := byteSwapped) (g := id) (l := ds)
    rw [h64, or_iff_right (by omega), Except.ok.injEq, Prod.mk.injEq, ← hswap]
    by_cases horder : w.bigEndian = r.bigEndian <;> simp [horder]

/-- From a host to one with the other byte order. -/
theorem float_array_round_trip_swapped :
    ∃ bs, externDoubleArray ⟨true, false⟩ .default [1, 2] = .ok bs ∧ ∀ f rest, ∃ code src,
      readCode f ⟨false, true⟩ (bs ++ rest) = .ok (.readDoubleArray code 2, src) ∧
      readfloats ⟨false, true⟩ code 2 src = .ok ([1, 2], rest) := by
  obtain ⟨bs, hbs, h⟩ := @float_array_round_trip ⟨true, false⟩ ⟨false, true⟩ .default [1, 2]
    (by decide) (by decide) (by decide)
  refine ⟨bs, hbs, fun f rest => ?_⟩
  obtain ⟨code, src, hread, hfloats⟩ := h f rest
  exact ⟨code, src, hread, hfloats.mpr (.inl (by decide))⟩

/-- An array with `2 ^ 32` copies of one float is read back as that many copies of another one, on
the host that has written it. -/
theorem float_array_swapped : ∃ bs code src,
    externDoubleArray host64 .default (List.replicate (2 ^ 32) 1) = .ok bs ∧
    readCode "input_value" host64 bs = .ok (.readDoubleArray code (2 ^ 32), src) ∧
    readfloats host64 code (2 ^ 32) src =
      .ok (List.replicate (2 ^ 32) 72057594037927936, []) := by
  have hlength : (List.replicate (2 ^ 32) (1 : UInt64)).length = 2 ^ 32 := List.length_replicate
  have hflags : Flags.default.compat32 = true → 2 ^ 32 ≤ 0x1FFFFF := nofun
  obtain ⟨len, hlen⟩ := externDoubleArrayLength_ok (w := host64) hflags
  have hextern : externDoubleArray host64 .default (List.replicate (2 ^ 32) 1) =
      .ok (len ++ (List.replicate (2 ^ 32) 1).flatMap (doubleBytes host64)) := by
    rw [externDoubleArray, hlength, hlen, ok_bind]
  obtain ⟨code, hcode, hread⟩ := readCode_doubleArray "input_value" [] (r := host64)
    (.inl (.inl rfl)) (by rw [hlength]; decide) hextern
  obtain ⟨-, -, h64⟩ :=
    readfloats_doubleBytes (w := host64) (r := host64) [] (List.replicate (2 ^ 32) 1)
  rw [List.append_nil, hlength] at hread
  refine ⟨_, code, _, hextern, hread, ?_⟩
  rw [if_pos rfl, List.map_replicate, hlength,
    show byteSwapped 1 = 72057594037927936 by decide] at h64
  rcases hcode with ⟨-, hlt⟩ | ⟨rfl, -⟩
  · exact absurd (hlength ▸ hlt) (by decide)
  · exact h64

end TravLang.Runtime.Marshal
