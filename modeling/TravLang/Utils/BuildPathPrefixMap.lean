import Mathlib.Tactic.SplitIfs
import TravLang.Lib.Result
import TravLang.Stdlib.Bytes

/-!
# Maps of path prefixes (`utils/build_path_prefix_map.ml`)

A map is a list of pairs of prefixes, some of them missing, and is written into one string: the
pairs are separated by `:`, the prefixes of a pair by `=`, and these two characters and `%` are
escaped in prefixes. An error is kept as the constructor for its format with the arguments.
-/

namespace TravLang.BuildPathPrefixMap

open Result List

def percent : UInt8 := 37
def equals : UInt8 := 61
def colon : UInt8 := 58
def hash : UInt8 := 35
def plus : UInt8 := 43
def dot : UInt8 := 46

inductive ErrorMessage where
  /-- `"invalid character '%c' in key or value"` -/
  | invalidCharacter (c : UInt8)
  /-- `"invalid encoded string %S (trailing '%%')"` -/
  | trailingPercent (str : Bytes)
  /-- `"invalid %%-escaped character '%c'"` -/
  | invalidEscape (c : UInt8)
  /-- `"invalid key/value pair %S, no '=' separator"` -/
  | noSeparator (str : Bytes)
  deriving DecidableEq, Repr

/-! ## Prefixes -/

def pushChar (c : UInt8) : Bytes :=
  if c = percent then [percent, hash]
  else if c = equals then [percent, plus]
  else if c = colon then [percent, dot]
  else [c]

def encodePrefix (str : Bytes) : Bytes := str.flatMap pushChar

/-- The local function `loop` of `decode_prefix`, on the characters from position `i` on. -/
def decodeLoop (str : Bytes) : Bytes → Bytes → Except ErrorMessage Bytes
  | [], buf => .ok buf
  | c :: rest, buf =>
    if c = equals ∨ c = colon then .error (.invalidCharacter c)
    else if c = percent then
      match rest with
      | [] => .error (.trailingPercent str)
      | d :: rest =>
        if d = hash then decodeLoop str rest (buf ++ [percent])
        else if d = plus then decodeLoop str rest (buf ++ [equals])
        else if d = dot then decodeLoop str rest (buf ++ [colon])
        else .error (.invalidEscape d)
    else decodeLoop str rest (buf ++ [c])

def decodePrefix (str : Bytes) : Except ErrorMessage Bytes := decodeLoop str str []

/-! ## Pairs -/

structure Pair where
  target : Bytes
  source : Bytes
  deriving DecidableEq, Repr

def encodePair (p : Pair) : Bytes :=
  List.intercalate [equals] [encodePrefix p.target, encodePrefix p.source]

/-- `String.index` -/
def index (c : UInt8) : Bytes → Option Nat
  | [] => none
  | b :: str => if b = c then some 0 else (index c str).map (· + 1)

def decodePair (str : Bytes) : Except ErrorMessage Pair :=
  match index equals str with
  | none => .error (.noSeparator str)
  | some equalPos => do
    let target ← decodePrefix (str.take equalPos)
    let source ← decodePrefix (str.drop (equalPos + 1))
    .ok ⟨target, source⟩

/-! ## Maps -/

def encodeElem : Option Pair → Bytes
  | none => []
  | some pair => encodePair pair

def encodeMap (map : List (Option Pair)) : Bytes := List.intercalate [colon] (map.map encodeElem)

def decodeOrEmpty (str : Bytes) : Except ErrorMessage (Option Pair) :=
  if str = [] then .ok none
  else do
    let pair ← decodePair str
    .ok (some pair)

/-- The first error ends the decoding. -/
def decodeMap (str : Bytes) : Except ErrorMessage (List (Option Pair)) :=
  (str.splitOn colon).mapM decodeOrEmpty

/-! ## Round trip of prefixes -/

theorem pushChar_cases (c : UInt8) :
    (c = percent ∧ pushChar c = [percent, hash]) ∨ (c = equals ∧ pushChar c = [percent, plus]) ∨
    (c = colon ∧ pushChar c = [percent, dot]) ∨
    (c ≠ percent ∧ c ≠ equals ∧ c ≠ colon ∧ pushChar c = [c]) := by
  unfold pushChar
  split_ifs with h₁ h₂ h₃ <;> simp_all

/-- Separators are escaped. -/
theorem not_mem_encodePrefix (str : Bytes) :
    equals ∉ encodePrefix str ∧ colon ∉ encodePrefix str := by
  have hchar : ∀ c, equals ∉ pushChar c ∧ colon ∉ pushChar c := by
    intro c
    rcases pushChar_cases c with ⟨-, h⟩ | ⟨-, h⟩ | ⟨-, h⟩ | ⟨-, hequals, hcolon, h⟩ <;> rw [h]
    · decide
    · decide
    · decide
    · simp [Ne.symm hequals, Ne.symm hcolon]
  constructor <;> intro h <;> obtain ⟨c, -, hc⟩ := mem_flatMap.mp h
  · exact (hchar c).1 hc
  · exact (hchar c).2 hc

theorem decodeLoop_encodePrefix (str : Bytes) : ∀ p buf : Bytes,
    decodeLoop str (encodePrefix p) buf = .ok (buf ++ p)
  | [], buf => by simp [encodePrefix, decodeLoop]
  | c :: p, buf => by
    have ih := fun buf => decodeLoop_encodePrefix str p buf
    rw [encodePrefix] at ih ⊢
    rw [flatMap_cons]
    rcases pushChar_cases c with ⟨rfl, h⟩ | ⟨rfl, h⟩ | ⟨rfl, h⟩ | ⟨hpercent, hequals, hcolon, h⟩ <;>
      rw [h]
    · simp [decodeLoop, percent, equals, colon, ih]
    · simp [decodeLoop, percent, equals, colon, hash, plus, ih]
    · simp [decodeLoop, percent, equals, colon, hash, plus, dot, ih]
    · rw [singleton_append, decodeLoop.eq_def]
      simp [hpercent, hequals, hcolon, ih]

theorem encodePrefix_cons (c : UInt8) (p : Bytes) :
    encodePrefix (c :: p) = pushChar c ++ encodePrefix p := flatMap_cons

/-- **A string that is accepted is the encoding of the result.** -/
theorem encodePrefix_of_decodeLoop (str : Bytes) : ∀ {rest buf out : Bytes},
    decodeLoop str rest buf = .ok out → ∃ p, out = buf ++ p ∧ encodePrefix p = rest
  | [], buf, out, h => ⟨[], by simpa [decodeLoop] using h.symm, rfl⟩
  | c :: rest, buf, out, h => by
    -- each accepted piece is the encoding of one character
    have hpiece : ∀ (piece : Bytes) {tail : Bytes} {d : UInt8}, pushChar d = piece →
        tail.length < (c :: rest).length → decodeLoop str tail (buf ++ [d]) = .ok out →
        ∃ p, out = buf ++ p ∧ encodePrefix p = piece ++ tail := by
      intro piece tail d hd hlt hloop
      obtain ⟨p, rfl, rfl⟩ := encodePrefix_of_decodeLoop str hloop
      exact ⟨d :: p, by simp, by rw [encodePrefix_cons, hd]⟩
    rw [decodeLoop.eq_def] at h
    simp only at h
    split at h
    · cases h
    next hsep =>
    obtain ⟨hequals, hcolon⟩ := not_or.mp hsep
    split at h
    · next hpercent =>
      subst hpercent
      split at h
      · cases h
      next d rest =>
      have hshorter : rest.length < (percent :: d :: rest).length :=
        Nat.lt_succ_of_le (Nat.le_succ _)
      split at h
      · next hd => exact hpiece [percent, d] (by rw [hd]; rfl) hshorter h
      split at h
      · next hd => exact hpiece [percent, d] (by rw [hd]; rfl) hshorter h
      split at h
      · next hd => exact hpiece [percent, d] (by rw [hd]; rfl) hshorter h
      · cases h
    · next hpercent =>
      exact hpiece [c] (by simp [pushChar, hpercent, hequals, hcolon])
        (Nat.lt_succ_self _) h
  termination_by rest => rest.length
  decreasing_by exact hlt

theorem decodePrefix_eq_ok {str p : Bytes} : decodePrefix str = .ok p ↔ encodePrefix p = str := by
  constructor
  · intro h
    obtain ⟨q, rfl, hq⟩ := encodePrefix_of_decodeLoop str h
    exact hq
  · rintro rfl
    exact decodeLoop_encodePrefix _ p []

/-! ## Round trip of pairs -/

theorem index_append {c : UInt8} {str : Bytes} (rest : Bytes) (h : c ∉ str) :
    index c (str ++ c :: rest) = some str.length := by
  induction str with
  | nil => simp [index]
  | cons b str ih =>
    rw [mem_cons, not_or] at h
    simp [index, Ne.symm h.1, ih h.2]

theorem split_of_index {c : UInt8} : ∀ {str : Bytes} {i : Nat}, index c str = some i →
    str = str.take i ++ c :: str.drop (i + 1)
  | b :: str, i, h => by
    rw [index] at h
    split at h
    · next hb =>
      cases h
      simp [hb]
    · obtain ⟨j, hj, rfl⟩ := Option.map_eq_some_iff.mp h
      simpa using split_of_index hj

theorem encodePair_eq (p : Pair) :
    encodePair p = encodePrefix p.target ++ equals :: encodePrefix p.source := by
  simp [encodePair, List.intercalate, List.intersperse]

theorem decodePair_eq_ok {str : Bytes} {p : Pair} :
    decodePair str = .ok p ↔ encodePair p = str := by
  rw [encodePair_eq]
  constructor
  · intro h
    unfold decodePair at h
    split at h
    · cases h
    next i hi =>
    obtain ⟨target, htarget, h⟩ := bind_eq_ok.mp h
    obtain ⟨source, hsource, h⟩ := bind_eq_ok.mp h
    cases h
    rw [decodePrefix_eq_ok.mp htarget, decodePrefix_eq_ok.mp hsource]
    exact (split_of_index hi).symm
  · rintro rfl
    rw [decodePair, index_append _ (not_mem_encodePrefix p.target).1]
    have hdecode : ∀ q, decodePrefix (encodePrefix q) = .ok q := fun _ => decodePrefix_eq_ok.mpr rfl
    simp [hdecode, ok_bind]

/-! ## Round trip of maps -/

theorem decodeOrEmpty_eq_ok {str : Bytes} {e : Option Pair} :
    decodeOrEmpty str = .ok e ↔ encodeElem e = str := by
  have hne : ∀ p, encodePair p ≠ [] := fun p => by simp [encodePair_eq]
  unfold decodeOrEmpty
  split
  · next hempty =>
    subst hempty
    cases e with
    | none => simp [encodeElem]
    | some p => simp [encodeElem, hne]
  · next hstr =>
    cases e with
    | none => simp [encodeElem, bind_eq_ok, Ne.symm hstr]
    | some p => simp [encodeElem, bind_eq_ok, decodePair_eq_ok]

theorem mapM_decodeOrEmpty {strs : List Bytes} {map : List (Option Pair)} :
    strs.mapM decodeOrEmpty = .ok map ↔ map.map encodeElem = strs := by
  induction strs generalizing map with
  | nil => cases map <;> simp [pure_eq_ok]
  | cons str strs ih =>
    rw [mapM_cons]
    constructor
    · intro h
      obtain ⟨e, he, h⟩ := bind_eq_ok.mp h
      obtain ⟨es, hes, h⟩ := bind_eq_ok.mp h
      cases h
      rw [map_cons, decodeOrEmpty_eq_ok.mp he, ih.mp hes]
    · intro h
      cases map with
      | nil => cases h
      | cons e es =>
        obtain ⟨he, hes⟩ := List.cons.inj h
        rw [decodeOrEmpty_eq_ok.mpr he, ok_bind, ih.mpr hes, ok_bind, pure_eq_ok]

theorem colon_not_mem_encodeElem (e : Option Pair) : colon ∉ encodeElem e := by
  cases e with
  | none => exact not_mem_nil
  | some p =>
    rw [encodeElem, encodePair_eq]
    have hdiff : colon ≠ equals := by decide
    simp [(not_mem_encodePrefix p.target).2, (not_mem_encodePrefix p.source).2, hdiff]

/-- **Maps and their encodings**: a map that is not empty is decoded from its encoding, and a string
that is accepted is the encoding of the map that it is decoded to. -/
theorem decodeMap_encodeMap :
    (∀ map : List (Option Pair), map ≠ [] → decodeMap (encodeMap map) = .ok map) ∧
    ∀ (str : Bytes) (map : List (Option Pair)), decodeMap str = .ok map → encodeMap map = str := by
  constructor
  · intro map hne
    have hsplit : (encodeMap map).splitOn colon = map.map encodeElem := by
      refine splitOn_intercalate colon ?_ (by simpa using hne)
      intro str hstr
      obtain ⟨e, -, rfl⟩ := mem_map.mp hstr
      exact colon_not_mem_encodeElem e
    rw [decodeMap, hsplit, mapM_decodeOrEmpty]
  · intro str map h
    rw [decodeMap, mapM_decodeOrEmpty] at h
    rw [encodeMap, h, intercalate_splitOn]

theorem decodeMap_encodeMap_pair :
    decodeMap (encodeMap [none, some ⟨[percent, 97], [colon]⟩]) =
      .ok [none, some ⟨[percent, 97], [colon]⟩] :=
  decodeMap_encodeMap.1 _ (by simp)

end TravLang.BuildPathPrefixMap
