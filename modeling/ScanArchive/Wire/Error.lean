/-!
# Faults in encoded messages

A field's value is laid out in one of six ways, which its key names.  A fault has a cause and the
path of fields that was being read when it was met.
-/

namespace ScanArchive.Wire

/-! ## Wire types -/

inductive WireType where
  | varint
  | sixtyFourBit
  | lengthDelimited
  | startGroup
  | endGroup
  | thirtyTwoBit
  deriving DecidableEq, Repr

namespace WireType

def code : WireType → Nat
  | varint => 0
  | sixtyFourBit => 1
  | lengthDelimited => 2
  | startGroup => 3
  | endGroup => 4
  | thirtyTwoBit => 5

def ofCode? : Nat → Option WireType
  | 0 => some varint
  | 1 => some sixtyFourBit
  | 2 => some lengthDelimited
  | 3 => some startGroup
  | 4 => some endGroup
  | 5 => some thirtyTwoBit
  | _ => none

def name : WireType → String
  | varint => "Varint"
  | sixtyFourBit => "SixtyFourBit"
  | lengthDelimited => "LengthDelimited"
  | startGroup => "StartGroup"
  | endGroup => "EndGroup"
  | thirtyTwoBit => "ThirtyTwoBit"

@[simp] theorem ofCode?_code (w : WireType) : ofCode? w.code = some w := by cases w <;> rfl

theorem code_lt (w : WireType) : w.code < 8 := by cases w <;> decide

end WireType

/-! ## Faults -/

inductive Fault where
  /-- a number that does not end, is too long, or exceeds 64 bits -/
  | invalidVarint
  /-- a key above 32 bits -/
  | invalidKey (key : Nat)
  /-- a key with one of the two unassigned wire types -/
  | invalidWireType (code : Nat)
  | zeroTag
  /-- a known field laid out in another way than its type asks for -/
  | wireTypeMismatch (actual expected : WireType)
  /-- a length beyond the end of the data -/
  | underflow
  /-- contents that run past the length given for them -/
  | lengthExceeded
  /-- the end of a group that is not the innermost open one -/
  | unexpectedEndGroup
  | notUtf8
  | recursionLimit
  /-- an envelope whose type URL is not the one asked for -/
  | wrongTypeUrl (expected actual : String)
  deriving DecidableEq, Repr

def Fault.message : Fault → String
  | invalidVarint => "invalid varint"
  | invalidKey key => "invalid key value: " ++ toString key
  | invalidWireType code => "invalid wire type value: " ++ toString code
  | zeroTag => "invalid tag value: 0"
  | wireTypeMismatch actual expected =>
    "invalid wire type: " ++ actual.name ++ " (expected " ++ expected.name ++ ")"
  | underflow => "buffer underflow"
  | lengthExceeded => "delimited length exceeded"
  | unexpectedEndGroup => "unexpected end group tag"
  | notUtf8 => "invalid string value: data is not UTF-8 encoded"
  | recursionLimit => "recursion limit reached"
  | wrongTypeUrl expected actual =>
    "expected type URL: \"" ++ expected ++ "\" (got: \"" ++ actual ++ "\")"

structure Place where
  message : String
  field : String
  deriving DecidableEq, Repr

/-- A fault and the fields it was met in, the innermost first. -/
structure DecodeError where
  fault : Fault
  path : List Place := []
  deriving DecidableEq, Repr

namespace DecodeError

def of (fault : Fault) : DecodeError := { fault }

/-- The error as seen from the message around it. -/
def within (place : Place) (e : DecodeError) : DecodeError :=
  { e with path := e.path ++ [place] }

def message (e : DecodeError) : String :=
  "failed to decode Protobuf message: "
    ++ String.join (e.path.map fun p => p.message ++ "." ++ p.field ++ ": ")
    ++ e.fault.message

end DecodeError
end ScanArchive.Wire
