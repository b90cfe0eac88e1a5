import TravLang.Lib.Result
import TravLang.Runtime.Marshal.Extern

/-!
# The hash table of the writer

The objects that have been written are numbered from zero. The table of the writer stands for the
list of their addresses: it finds the number of an address in the list, and knows an address that
is not there. It is never full, so every search ends, and growing keeps what it stands for.
-/

namespace TravLang.Runtime.Marshal

open Result Probing List

/-- The table `t` stands for the addresses `seen`, each with its index. -/
structure StandsFor (host : Host) (t : PositionTable) (seen : List Nat) : Prop where
  bits : ∃ p, t.size = 2 ^ p ∧ p + t.shift = host.wordBits ∧ p + 3 ≤ host.wordBits
  mask : t.mask = t.size - 1
  threshold : t.threshold = Marshal.threshold t.size
  length : t.entries.length = t.size
  few : seen.length < t.threshold
  holds : Holds (hash host t.shift) t.entries seen.zipIdx

variable {host : Host} {t : PositionTable} {seen : List Nat} {a : Nat}

theorem hash_lt {p shift : Nat} (h : p + shift = host.wordBits) (v : Nat) :
    hash host shift v < 2 ^ p := by
  rw [hash, Nat.shiftRight_eq_div_pow]
  apply Nat.div_lt_of_lt_mul
  rw [← Nat.pow_add, Nat.add_comm shift, h]
  exact Nat.mod_lt _ (Nat.two_pow_pos _)

theorem wordBits_eq (host : Host) : host.wordBits = 8 * host.wordSize := rfl

theorem standsFor_init (host : Host) : StandsFor host (externInitPositionTable host) [] := by
  have hbits := wordBits_cases host
  refine ⟨⟨8, rfl, ?_, by omega⟩, rfl, rfl, length_replicate, ?_, ?_⟩
  · show 8 + (host.wordBits - 8) = host.wordBits
    omega
  · exact (by decide : 0 < threshold (2 ^ 8))
  · exact holds_replicate _ _

/-- **An address is found with its number, or there is a slot for it.** -/
theorem externLookupPosition_spec (h : StandsFor host t seen) (a : Nat) :
    (∃ pos, externLookupPosition host t a = .ok (.inl pos) ∧ seen[pos]? = some a) ∨
    (∃ slot, externLookupPosition host t a = .ok (.inr slot) ∧ a ∉ seen ∧
      Holds (hash host t.shift) (t.entries.set slot (some (a, seen.length)))
        (seen ++ [a]).zipIdx) := by
  obtain ⟨p, hsize, hshift, -⟩ := h.bits
  have hlen : t.entries.length = 2 ^ p := h.length.trans hsize
  have hfew : seen.zipIdx.length < t.entries.length := by
    have := h.few
    rw [h.threshold, Marshal.threshold] at this
    rw [length_zipIdx, h.length]
    omega
  obtain ⟨j, hprobe, hj⟩ := h.holds.lookup (k := a) hlen hfew (hlen ▸ hash_lt hshift a)
  have hprobe' : probe (stopsAt a) t.mask t.entries t.size (hash host t.shift a) = some j := by
    rw [h.mask, ← h.length, hprobe]
  unfold externLookupPosition
  rw [hprobe']
  rcases hj with ⟨pos, hslot, hmem⟩ | ⟨hslot, hnew, hholds⟩
  · refine .inl ⟨pos, by simp only [hslot], ?_⟩
    exact List.mk_mem_zipIdx_iff_getElem?.mp hmem
  · refine .inr ⟨j, by simp only [hslot], ?_, ?_⟩
    · simpa using hnew
    · rw [zipIdx_append, Nat.zero_add]
      exact hholds seen.length

/-- A table that is full enough grows, unless its size overflows. -/
theorem externResizePositionTable_spec {p : Nat} (hsize : t.size = 2 ^ p)
    (hshift : p + t.shift = host.wordBits) (hp : p + 3 ≤ host.wordBits)
    (hfew : seen.length ≤ threshold t.size)
    (h : Holds (hash host t.shift) t.entries seen.zipIdx) :
    externResizePositionTable host t = .error .outOfMemory ∨
    ∃ t', externResizePositionTable host t = .ok t' ∧ StandsFor host t' seen := by
  obtain ⟨q, hq, hgrow⟩ : ∃ q, q ≤ t.shift ∧ 1 ≤ q ∧ (if t.size < 1000000 then
      (8 * t.size % 2 ^ host.wordBits, t.shift - 3)
      else (2 * t.size % 2 ^ host.wordBits, t.shift - 1)) =
        (2 ^ (p + q) % 2 ^ host.wordBits, t.shift - q) := by
    split
    · exact ⟨3, by omega, by omega, by rw [hsize, Nat.pow_add, Nat.mul_comm]⟩
    · exact ⟨1, by omega, by omega, by rw [hsize, Nat.pow_add, Nat.mul_comm]⟩
  obtain ⟨hq1, hgrow⟩ := hgrow
  unfold externResizePositionTable
  rw [hgrow]
  simp only
  split
  · exact .inl rfl
  next hfits =>
  right
  obtain ⟨hpos, hfits⟩ := not_or.mp hfits
  have hbits := wordBits_cases host
  have hlt : p + q < host.wordBits := by
    by_contra hge
    apply hpos
    exact Nat.mod_eq_zero_of_dvd (Nat.pow_dvd_pow 2 (by omega))
  have hmod : 2 ^ (p + q) % 2 ^ host.wordBits = 2 ^ (p + q) :=
    Nat.mod_eq_of_lt (Nat.pow_lt_pow_right (by decide) hlt)
  rw [hmod] at hfits ⊢
  have hroom : p + q + 3 ≤ host.wordBits := by
    rw [Nat.not_le] at hfits
    have hword : 2 ^ 3 ≤ 2 * host.wordSize := by
      rw [wordBits_eq] at hbits
      omega
    have := Nat.lt_of_le_of_lt (Nat.mul_le_mul_left (2 ^ (p + q)) hword) hfits
    rw [← Nat.pow_add] at this
    exact Nat.le_of_lt ((Nat.pow_lt_pow_iff_right (by decide)).mp this)
  have hshift' : p + q + (t.shift - q) = host.wordBits := by omega
  have hfew' : seen.length < threshold (2 ^ (p + q)) := by
    have hdouble : 2 * 2 ^ p ≤ 2 ^ (p + q) := by
      rw [← Nat.pow_succ']
      exact Nat.pow_le_pow_right (by decide) (by omega)
    have hone := Nat.one_le_two_pow (n := p)
    rw [threshold, hsize] at hfew
    rw [threshold]
    omega
  have hperm := h.perm
  obtain ⟨entries, hfill, hlen, hholds⟩ := fill_spec (hash_lt hshift') t.entries
    (List.replicate (2 ^ (p + q)) none) [] length_replicate (holds_replicate _ _)
    (by rw [nil_append, (hperm.map Prod.fst).nodup_iff]; exact h.nodup)
    (by
      rw [nil_append, hperm.length_eq, length_zipIdx]
      rw [threshold] at hfew'
      omega)
  rw [hfill]
  refine ⟨_, rfl, ⟨p + q, rfl, hshift', hroom⟩, rfl, rfl, hlen, hfew', ?_⟩
  exact ⟨hholds.perm.trans hperm, h.nodup, hholds.path⟩

/-- **An object that is recorded gets the next number.** -/
theorem externRecordLocation_spec {flags : Flags} {s : ExternState} {slot : Nat}
    (hsharing : flags.noSharing = false) (h : StandsFor host s.posTable seen)
    (hcounter : s.objCounter = seen.length)
    (hslot : Holds (hash host s.posTable.shift)
      (s.posTable.entries.set slot (some (a, seen.length))) (seen ++ [a]).zipIdx) :
    externRecordLocation host flags s a slot = .error .outOfMemory ∨
    ∃ t, externRecordLocation host flags s a slot =
        .ok { s with posTable := t, objCounter := s.objCounter + 1 } ∧
      StandsFor host t (seen ++ [a]) := by
  obtain ⟨p, hsize, hshift, hp⟩ := h.bits
  unfold externRecordLocation
  rw [if_neg (by simp [hsharing])]
  simp only [hcounter]
  have hlen : (seen ++ [a]).length = seen.length + 1 := by simp
  split
  · next hfull =>
    have hfew : (seen ++ [a]).length ≤ threshold s.posTable.size := by
      rw [hlen, ← h.threshold]
      exact h.few
    rcases externResizePositionTable_spec
      (t := { s.posTable with entries := s.posTable.entries.set slot (some (a, seen.length)) })
      hsize hshift hp hfew hslot with herr | ⟨t, ht, hst⟩
    · exact .inl (by rw [herr, error_bind])
    · exact .inr ⟨t, by rw [ht, ok_bind], hst⟩
  · next hfits =>
    exact .inr ⟨_, rfl, h.bits, h.mask, h.threshold, by rw [length_set, h.length],
      by rw [hlen]; exact Nat.not_le.mp hfits, hslot⟩

end TravLang.Runtime.Marshal
