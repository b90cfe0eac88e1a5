import TravLang.Runtime.Marshal.FloatArrays
import TravLang.Runtime.Marshal.Headers
import TravLang.Runtime.Marshal.RoundTrip

/-!
# Messages for hosts with smaller words

With the flag `Compat_32` a host with words of 64 bits writes a message only if a host with words of
32 bits can read it back. Each limit that the writer checks is a limit of the reader.
-/

namespace TravLang.Runtime.Marshal

open Result List

variable {D : Type} {w r : Host} {flags : Flags} {heap : Heap (Custom D)} {v : Value} {bs : Bytes}

/-! ## The limits of the writer -/

section

variable (hw : w.sixtyFour = true) (hcompat : flags.compat32 = true)

include hw hcompat

theorem externInt_limit {n : Int} (h : externInt w flags n = .ok bs) :
    -2 ^ 30 ≤ n ∧ n < 2 ^ 30 := by
  unfold externInt at h
  simp only [hw, hcompat, true_and, if_true] at h
  split_ifs at h <;> omega

theorem externHeader_limit {sz tag : Nat} (h : externHeader w flags sz tag = .ok bs) :
    sz ≤ 0x3FFFFF := by
  unfold externHeader at h
  simp only [hw, hcompat, and_true, if_true] at h
  split_ifs at h <;> omega

theorem externLength_limit {limit code8 code32 code64 len : Nat} {msg : String}
    (hlimit : 0x100 ≤ limit) (h : externLength w flags limit msg code8 code32 code64 len = .ok bs) :
    len ≤ limit := by
  unfold externLength at h
  simp only [hw, hcompat, and_true, if_true] at h
  split_ifs at h <;> omega

end

/-- **A block that is written is a block of the reader.** -/
theorem wosize_limit (hw : w.sixtyFour = true) (hr : r.sixtyFour = false)
    (hcompat : flags.compat32 = true) {o : Obj Value (Custom D)} {item : Item D}
    (hkind : DataObj w heap o) (hitem : itemOf o = some item)
    (h : item.encode w flags = .ok bs) : o.wosize r ≤ r.maxWosize := by
  have hmax : r.maxWosize = 0x3FFFFF := by simp [Host.maxWosize, Host.wordBits, Host.wordSize, hr]
  have hword : r.wordSize = 4 := by simp [Host.wordSize, hr]
  rw [hmax]
  cases o with
  | structured tag fields =>
    cases hitem
    exact externHeader_limit hw hcompat h
  | string s =>
    cases hitem
    obtain ⟨len, hlen, -⟩ := bind_eq_ok.mp h
    have hle : s.length ≤ 0xFFFFFB := by
      unfold externStringLength at hlen
      split at hlen
      · omega
      · exact externLength_limit hw hcompat (by decide) hlen
    simp only [Obj.wosize, hword]
    omega
  | double d => simp [Obj.wosize, Host.doubleWosize, hword]
  | doubleArray ds =>
    cases hitem
    obtain ⟨len, hlen, -⟩ := bind_eq_ok.mp h
    have hle := externLength_limit hw hcompat (by decide) hlen
    simp only [Obj.wosize, Host.doubleWosize, hword]
    omega
  | custom c n => exact hkind.2.2.elim
  | abstract n => exact hkind.2.2.elim

/-! ## What has been written -/

theorem encodeAll_append_ok : ∀ {items items' : List (Item D)} {bs : Bytes},
    encodeAll w flags (items ++ items') = .ok bs →
    (∃ bs₁, encodeAll w flags items = .ok bs₁) ∧ ∃ bs₂, encodeAll w flags items' = .ok bs₂
  | [], _, bs, h => ⟨⟨[], rfl⟩, bs, h⟩
  | item :: items, items', bs, h => by
    obtain ⟨b, hb, h⟩ := bind_eq_ok.mp h
    obtain ⟨b', hb', -⟩ := bind_eq_ok.mp h
    obtain ⟨⟨bs₁, h₁⟩, h₂⟩ := encodeAll_append_ok hb'
    exact ⟨⟨b ++ bs₁, by rw [encodeAll, hb, ok_bind, h₁, ok_bind]⟩, h₂⟩

/-- A value that is no integer, or an integer of the reader. -/
def IntOk (r : Host) (u : Value) : Prop := ∀ n, u = .long n → InRange r n

/-- A block with contents that the reader can represent. -/
def BlockOk (w r : Host) (heap : Heap (Custom D)) (a : Nat) : Prop :=
  ∃ o, heap.get a = some o ∧ o.wosize w ≠ 0 ∧ o.wosize r ≤ r.maxWosize ∧ ∀ u ∈ o.fields, IntOk r u

/-- The values that have been turned into items are those of the reader. -/
theorem Emits.blockOk (hw : w.sixtyFour = true) (hr : r.sixtyFour = false)
    (hcompat : flags.compat32 = true) (hobjs : ∀ a o, heap.get a = some o → DataObj w heap o)
    {em em' : List Nat} {vs : List Value} {items : List (Item D)}
    (h : Emits w flags heap em vs items em') :
    ∀ {bs}, encodeAll w flags items = .ok bs →
      (∀ u ∈ vs, IntOk r u) ∧
      ((∀ a ∈ em, BlockOk w r heap a) → ∀ a ∈ em', BlockOk w r heap a) := by
  induction h with
  | done em => exact fun _ => ⟨by simp, id⟩
  | step hemit _ ih =>
    intro bs hbs
    obtain ⟨⟨bs₁, h₁⟩, bs₂, h₂⟩ := encodeAll_append_ok hbs
    obtain ⟨hints, hblocks⟩ := ih h₂
    have hrest := fun u hu => hints u (mem_append_right _ hu)
    cases hemit with
    | long n =>
      rw [encodeAll_singleton] at h₁
      have hn := externInt_limit hw hcompat h₁
      refine ⟨forall_mem_cons.mpr ⟨?_, hrest⟩, hblocks⟩
      intro m hm
      cases hm
      simpa [InRange, Host.wordBits, Host.wordSize, hr] using hn
    | fresh hget hforward hsize hnew hitem =>
      rw [encodeAll_singleton] at h₁
      refine ⟨forall_mem_cons.mpr ⟨by simp [IntOk], hrest⟩, fun hem => hblocks fun a ha => ?_⟩
      rcases mem_append.mp ha with ha | ha
      · exact hem a ha
      · obtain rfl := mem_singleton.mp ha
        exact ⟨_, hget, hsize, wosize_limit hw hr hcompat (hobjs _ _ hget) hitem h₁,
          fun u hu => hints u (mem_append_left _ hu)⟩
    | _ => exact ⟨forall_mem_cons.mpr ⟨by simp [IntOk], hrest⟩, hblocks⟩

/-- A header with the flag has no counter that needs more than 32 bits. -/
theorem counted_of_compat32 {zstd : Option (Bytes → Option Bytes)} {s : ExternState}
    {header data : Bytes} (hw : w.sixtyFour = true) (hcompat : flags.compat32 = true)
    (h : externHeaderOf w flags zstd s = .ok (header, data)) : Counted w data s := by
  have hword : 2 ^ 32 ≤ 2 ^ w.wordBits := two_pow_32_le w
  unfold externHeaderOf at h
  simp only [hw, hcompat, true_and, if_true] at h
  unfold Counted
  split at h
  · split at h
    · cases h
    split at h
    · cases h
    · cases h
      omega
  · split at h
    · cases h
    · cases h
      omega

/-- An array of floats and an integer, in a list that is its own tail. -/
def cyclicFloats : Heap (Custom Unit) :=
  [(8, .structured 0 [.block 16, .block 8]), (16, .structured 0 [.block 24, .long (-7)]),
    (24, .doubleArray [1, 2])]

end TravLang.Runtime.Marshal
