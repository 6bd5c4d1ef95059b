import ScanArchive.Wire.Error
import ScanArchive.Wire.Varint

/-!
# Keys, and fields that are passed over

A field of an encoded message starts with a key: its number (the tag) and wire type.  A reader
passes over the fields it does not know; an unknown group ends at its matching end key, and
every group inside it must end inside it.
-/

namespace ScanArchive.Wire

def readVarint (bytes : Bytes) : Except DecodeError (Nat × Bytes) :=
  match Varint.read bytes with
  | some found => .ok found
  | none => .error (.of .invalidVarint)

theorem readVarint_eq_ok_iff {bytes : Bytes} {found : Nat × Bytes} :
    readVarint bytes = .ok found ↔ Varint.read bytes = some found := by
  unfold readVarint; split <;> simp [*]

structure Key where
  tag : Nat
  wireType : WireType
  deriving DecidableEq, Repr

namespace Key

def encode (key : Key) : Bytes := Varint.encode (key.tag * 8 + key.wireType.code)

def read (bytes : Bytes) : Except DecodeError (Key × Bytes) :=
  match readVarint bytes with
  | .error e => .error e
  | .ok (n, rest) =>
    if UInt32.size ≤ n then .error (.of (.invalidKey n))
    else match WireType.ofCode? (n % 8) with
      | none => .error (.of (.invalidWireType (n % 8)))
      | some wireType =>
        if n / 8 = 0 then .error (.of .zeroTag) else .ok (⟨n / 8, wireType⟩, rest)

theorem read_encode {key : Key} (hpos : 0 < key.tag) (hlt : key.tag < 0x20000000) (rest : Bytes) :
    read (key.encode ++ rest) = .ok (key, rest) := by
  have hc := key.wireType.code_lt
  have hn : readVarint (key.encode ++ rest) = .ok (key.tag * 8 + key.wireType.code, rest) :=
    readVarint_eq_ok_iff.2 (Varint.read_encode (by simp only [UInt64.size]; omega) rest)
  have hmod : (key.tag * 8 + key.wireType.code) % 8 = key.wireType.code := by omega
  have hdiv : (key.tag * 8 + key.wireType.code) / 8 = key.tag := by omega
  simp only [read, hn, hmod, hdiv, WireType.ofCode?_code]
  rw [if_neg (by simp only [UInt32.size]; omega), if_neg (by omega)]

theorem suffix_of_read {key : Key} {bytes rest : Bytes} (h : read bytes = .ok (key, rest)) :
    rest <:+ bytes ∧ rest.length < bytes.length := by
  unfold read at h
  split at h
  · cases h
  · rename_i n tail hn
    have hs := Varint.suffix_of_read (readVarint_eq_ok_iff.1 hn)
    split at h
    · cases h
    · split at h
      · cases h
      · split at h
        · cases h
        · simp only [Except.ok.injEq, Prod.mk.injEq] at h
          exact h.2 ▸ hs

end Key

def skipValue (wireType : WireType) (bytes : Bytes) : Except DecodeError Bytes :=
  let dropAfter (count : Nat) (bytes : Bytes) : Except DecodeError Bytes :=
    match Bytes.split? count bytes with
    | some (_, rest) => .ok rest
    | none => .error (.of .underflow)
  match wireType with
  | .varint => (readVarint bytes).map (·.2)
  | .sixtyFourBit => dropAfter 8 bytes
  | .thirtyTwoBit => dropAfter 4 bytes
  | .lengthDelimited =>
    match readVarint bytes with
    | .error e => .error e
    | .ok (count, rest) => dropAfter count rest
  | .startGroup | .endGroup => .error (.of .unexpectedEndGroup)

theorem suffix_of_skipValue {wireType : WireType} {bytes rest : Bytes}
    (h : skipValue wireType bytes = .ok rest) : rest <:+ bytes := by
  have hdrop : ∀ {count : Nat} {bytes rest : Bytes},
      (match Bytes.split? count bytes with
        | some (_, rest) => (.ok rest : Except DecodeError Bytes)
        | none => .error (.of .underflow)) = .ok rest → rest <:+ bytes := by
    intro count bytes rest h
    split at h
    · rename_i front tail hs
      simp only [Except.ok.injEq] at h
      subst h
      obtain ⟨rfl, -⟩ := Bytes.split?_eq_some_iff.1 hs
      exact List.suffix_append ..
    · cases h
  cases wireType with
  | varint =>
    cases hv : readVarint bytes with
    | error e => simp [skipValue, hv, Except.map] at h
    | ok found =>
      simp only [skipValue, hv, Except.map, Except.ok.injEq] at h
      exact h ▸ (Varint.suffix_of_read (readVarint_eq_ok_iff.1 hv)).1
  | sixtyFourBit => exact hdrop h
  | thirtyTwoBit => exact hdrop h
  | lengthDelimited =>
    cases hv : readVarint bytes with
    | error e => simp [skipValue, hv] at h
    | ok found =>
      simp only [skipValue, hv] at h
      exact (hdrop h).trans (Varint.suffix_of_read (readVarint_eq_ok_iff.1 hv)).1
  | startGroup => simp [skipValue] at h
  | endGroup => simp [skipValue] at h

/--
Passes over what is left of the open groups, given by their tags, the innermost first.  At most
`limit` levels may be open: a further level, and any value at that depth, is refused.
-/
def skipGroups (limit : Nat) (openTags : List Nat) (bytes : Bytes) : Except DecodeError Bytes :=
  match openTags with
  | [] => .ok bytes
  | tag :: outer =>
    match h : Key.read bytes with
    | .error e => .error e
    | .ok (key, rest) =>
      have := (Key.suffix_of_read h).2
      if key.wireType = .endGroup then
        if key.tag = tag then skipGroups limit outer rest
        else .error (.of .unexpectedEndGroup)
      else if limit ≤ openTags.length then .error (.of .recursionLimit)
      else if key.wireType = .startGroup then skipGroups limit (key.tag :: openTags) rest
      else match hs : skipValue key.wireType rest with
        | .error e => .error e
        | .ok rest' =>
          have := (suffix_of_skipValue hs).length_le
          skipGroups limit openTags rest'
  termination_by bytes.length

theorem suffix_of_skipGroups {limit : Nat} {openTags : List Nat} {bytes rest : Bytes} :
    skipGroups limit openTags bytes = .ok rest → rest <:+ bytes := by
  fun_induction skipGroups limit openTags bytes with
  | case1 bytes =>
    rintro ⟨⟩
    exact List.suffix_refl _
  | case2 => simp
  | case3 bytes outer key tail hk _ _ ih => exact fun h => (ih h).trans (Key.suffix_of_read hk).1
  | case4 => simp
  | case5 bytes tag outer key tail hk _ _ hlim =>
    rw [if_pos hlim]
    simp
  | case6 bytes tag outer key tail hk _ _ hstart hlim ih =>
    rw [if_neg hlim, if_pos hstart]
    exact fun h => (ih h).trans (Key.suffix_of_read hk).1
  | case7 bytes tag outer key tail hk _ _ hstart e hs hlim =>
    rw [if_neg hlim, if_neg hstart]
    split <;> simp_all
  | case8 bytes tag outer key tail hk _ _ hstart tail' hs _ hlim ih =>
    rw [if_neg hlim, if_neg hstart]
    split
    · simp
    · rename_i found hf
      obtain rfl : tail' = found := by simpa [hs] using hf
      exact fun h => ((ih h).trans (suffix_of_skipValue hs)).trans (Key.suffix_of_read hk).1

/-- Passes over an unknown field, given its key, where `depth` more levels may be opened. -/
def skipField (depth : Nat) (key : Key) (bytes : Bytes) : Except DecodeError Bytes :=
  if depth = 0 then .error (.of .recursionLimit)
  else if key.wireType = .startGroup then skipGroups depth [key.tag] bytes
  else skipValue key.wireType bytes

theorem suffix_of_skipField {depth : Nat} {key : Key} {bytes rest : Bytes}
    (h : skipField depth key bytes = .ok rest) : rest <:+ bytes := by
  unfold skipField at h
  split at h
  · cases h
  · split at h
    · exact suffix_of_skipGroups h
    · exact suffix_of_skipValue h

end ScanArchive.Wire
