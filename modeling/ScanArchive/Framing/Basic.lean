import ScanArchive.Stream
import ScanArchive.Wire.Scalar

/-!
# Framing

Every entry starts with its type and version, two bytes each.  In a chunk each message stands
behind its length, a variable-length number.  Main statement: `length_of_readDelimited`, a
message that is read takes at least one byte off the stream, so that reading comes to an end.
-/

namespace ScanArchive.Framing

abbrev Reading (α : Type) := StateT ByteStream (Except Error) α

def take (count : Nat) : Reading Bytes := fun s => (s.fill count).mapError (.io ·.reason)

def takeAll : Reading Bytes := fun s => s.drain.mapError (.io ·.reason)

def encodeInt16 (v : Int16) : Bytes := Bytes.toBigEndian 2 v.toUInt16.toNat

def decodeInt16 (bytes : Bytes) : Int16 := (Bytes.bigEndian bytes).toUInt16.toInt16

def encodePrefix (type : EntryType) (version : Int16) : Bytes :=
  encodeInt16 type.code ++ encodeInt16 version

def decodeType (code : Int16) : Except Error EntryType :=
  match EntryType.ofCode? code with
  | some type => .ok type
  | none => .error (.unknownEntryType code)

/--
A part of an entry that could not be read as a whole.  It is cut short if the data ended, and it
does not matter whether the stream had no more or a failed read said so.
-/
def truncated (part : FramingFault) (fault : StreamFault) : Error :=
  match fault.kind with
  | .unexpectedEnd => .framing part
  | .other => .io fault.reason

def takeExact (count : Nat) (part : FramingFault) : Reading Bytes :=
  fun s => (s.fillExact count).mapError (truncated part)

def readInt16 (part : FramingFault) : Reading Int16 := do
  let bytes ← takeExact 2 part
  return decodeInt16 bytes

def readType : Reading EntryType := do
  let code ← readInt16 .truncatedType
  decodeType code

def readVersion : Reading Int16 := readInt16 .truncatedVersion

def readPrefix : Reading (EntryType × Int16) := do
  let bytes ← take Layout.prefixLength
  if bytes.length < Layout.prefixLength then
    throw (.framing (.truncatedPrefix bytes.length Layout.prefixLength))
  let type ← decodeType (decodeInt16 (bytes.take 2))
  return (type, decodeInt16 (bytes.drop 2))

/-- Reads the type and says whether it is that of a header; every other code is not. -/
def isHeader : Reading Bool := do
  let code ← readInt16 .truncatedType
  return code = EntryType.header.code

/-- Reads the rest of a length whose first byte is given; at most `more` bytes may follow. -/
def readLength (more : Nat) (byte : UInt8) : Reading Nat :=
  if byte.toNat < 128 then return byte.toNat
  else match more with
    | 0 => throw (.framing .malformedLength)
    | more + 1 => do
      match ← take 1 with
      | [] => throw (.framing .truncatedLength)
      | next :: _ =>
        let high ← readLength more next
        return byte.toNat % 128 + 128 * high

def readBody (length : Nat) : Reading Bytes := do
  let body ← take length
  if body.length = length then return body
  else throw (.framing (.truncatedMessage length body.length))

/--
Reads one message behind its length; nothing at the end of the stream.  A length takes at most
ten bytes, and of a value beyond 64 bits the low 64 count.
-/
def readDelimited : Reading (Option Bytes) := do
  match ← take 1 with
  | [] => return none
  | byte :: _ =>
    let length ← readLength (Wire.Varint.maxLength - 1) byte
    let body ← readBody (length % UInt64.size)
    return some body

theorem bind_eq_ok_iff {α β : Type} {m : Reading α} {f : α → Reading β} {s s' : ByteStream}
    {b : β} :
    (m >>= f) s = .ok (b, s') ↔ ∃ a s₁, m s = .ok (a, s₁) ∧ f a s₁ = .ok (b, s') := by
  simp only [bind, StateT.bind, Except.bind]
  cases hm : m s with
  | error e => simp
  | ok found =>
    obtain ⟨a, s₁⟩ := found
    constructor
    · exact fun h => ⟨a, s₁, rfl, h⟩
    · rintro ⟨_, _, ⟨⟩, h⟩
      exact h

theorem bind_of_ok {α β : Type} {m : Reading α} {f : α → Reading β} {s s' : ByteStream} {a : α}
    (h : m s = .ok (a, s')) : (m >>= f) s = f a s' := by
  simp only [bind, StateT.bind, h, Except.bind]

theorem bind_of_error {α β : Type} {m : Reading α} {f : α → Reading β} {s : ByteStream} {e : Error}
    (h : m s = .error e) : (m >>= f) s = .error e := by
  simp only [bind, StateT.bind, h, Except.bind]

theorem pure_eq_ok_iff {α : Type} {a b : α} {s s' : ByteStream} :
    (pure a : Reading α) s = .ok (b, s') ↔ a = b ∧ s = s' := by
  constructor
  · rintro ⟨⟩
    exact ⟨rfl, rfl⟩
  · rintro ⟨rfl, rfl⟩
    rfl

theorem throw_ne_ok {α : Type} {e : Error} {s : ByteStream} {found : α × ByteStream} :
    (throw e : Reading α) s ≠ .ok found := by
  simp [throw, throwThe, MonadExceptOf.throw, StateT.lift, Except.bind, bind]

theorem map_eq_ok_iff {α β : Type} {m : Reading α} {f : α → β} {s s' : ByteStream} {b : β} :
    (f <$> m) s = .ok (b, s') ↔ ∃ a, m s = .ok (a, s') ∧ f a = b := by
  rw [← bind_pure_comp, bind_eq_ok_iff]
  constructor
  · rintro ⟨a, s₁, hm, h⟩
    obtain ⟨hb, rfl⟩ := pure_eq_ok_iff.1 h
    exact ⟨a, hm, hb⟩
  · rintro ⟨a, hm, rfl⟩
    exact ⟨a, s', hm, pure_eq_ok_iff.2 ⟨rfl, rfl⟩⟩

theorem lift_eq_ok_iff {α : Type} {e : Except Error α} {a : α} {s s' : ByteStream} :
    (liftM e : Reading α) s = .ok (a, s') ↔ e = .ok a ∧ s = s' := by
  cases e <;>
    simp [liftM, monadLift, MonadLift.monadLift, StateT.lift, bind, Except.bind, pure, Except.pure]

theorem fill_of_take {count : Nat} {s s' : ByteStream} {bytes : Bytes}
    (h : take count s = .ok (bytes, s')) : s.fill count = .ok (bytes, s') := by
  unfold take at h
  cases hfill : s.fill count with
  | error fault => rw [hfill] at h; cases h
  | ok found =>
    rw [hfill] at h
    cases h
    rfl

theorem suffix_of_take {count : Nat} {s s' : ByteStream} {bytes : Bytes}
    (h : take count s = .ok (bytes, s')) : s'.rest <:+ s.rest :=
  ⟨bytes, (ByteStream.fill_eq (fill_of_take h)).symm⟩

theorem suffix_of_readLength {more n : Nat} {byte : UInt8} {s s' : ByteStream}
    (h : readLength more byte s = .ok (n, s')) : s'.rest <:+ s.rest := by
  induction more generalizing byte s n s' with
  | zero =>
    unfold readLength at h
    split at h
    · exact (pure_eq_ok_iff.1 h).2 ▸ List.suffix_refl _
    · exact absurd h throw_ne_ok
  | succ more ih =>
    unfold readLength at h
    split at h
    · exact (pure_eq_ok_iff.1 h).2 ▸ List.suffix_refl _
    · obtain ⟨bytes, s₁, ht, h⟩ := bind_eq_ok_iff.1 h
      cases bytes with
      | nil => exact absurd h throw_ne_ok
      | cons next bytes =>
        obtain ⟨high, s₂, hg, h⟩ := bind_eq_ok_iff.1 h
        exact (pure_eq_ok_iff.1 h).2 ▸ (ih hg).trans (suffix_of_take ht)

theorem suffix_of_readBody {length : Nat} {s s' : ByteStream} {body : Bytes}
    (h : readBody length s = .ok (body, s')) : s'.rest <:+ s.rest := by
  obtain ⟨body', s₁, ht, h⟩ := bind_eq_ok_iff.1 h
  split at h
  · exact (pure_eq_ok_iff.1 h).2 ▸ suffix_of_take ht
  · exact absurd h throw_ne_ok

theorem length_of_readDelimited {s s' : ByteStream} {body : Bytes}
    (h : readDelimited s = .ok (some body, s')) : s'.rest.length < s.rest.length := by
  obtain ⟨bytes, s₁, ht, h⟩ := bind_eq_ok_iff.1 h
  cases bytes with
  | nil => cases (pure_eq_ok_iff.1 h).1
  | cons byte bytes =>
    have hlt : s₁.rest.length < s.rest.length := by
      rw [ByteStream.fill_eq (fill_of_take ht), List.length_append, List.length_cons]
      omega
    obtain ⟨length, s₂, hl, h⟩ := bind_eq_ok_iff.1 h
    obtain ⟨body', s₃, hb, h⟩ := bind_eq_ok_iff.1 h
    obtain rfl := (pure_eq_ok_iff.1 h).2
    exact Nat.lt_of_le_of_lt
      ((suffix_of_readBody hb).trans (suffix_of_readLength hl)).length_le hlt

end ScanArchive.Framing
