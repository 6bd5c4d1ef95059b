import ScanArchive.Dict
import ScanArchive.Validation.Error

/-!
# Signature types

File nodes carry digests under the ordinals of their types, while tools hold them under the
names.  The two conversions refuse what is not in the table.
-/

namespace ScanArchive

inductive SignatureType where
  | matchSha1
  /-- SHA-1 after blanks and comments are taken out -/
  | matchCleanSha1
  | deepWithSize
  | deepNoSize
  | structureOnly
  | shallowWithSize
  | shallowNoSize
  deriving DecidableEq, Repr

namespace SignatureType

def all : List SignatureType :=
  [matchSha1, matchCleanSha1, deepWithSize, deepNoSize, structureOnly, shallowWithSize,
    shallowNoSize]

def ordinal : SignatureType → Int32
  | matchSha1 => 0
  | matchCleanSha1 => 1
  | deepWithSize => 2
  | deepNoSize => 3
  | structureOnly => 4
  | shallowWithSize => 5
  | shallowNoSize => 6

def name : SignatureType → String
  | matchSha1 => "MATCH_SHA1"
  | matchCleanSha1 => "MATCH_CLEAN_SHA1"
  | deepWithSize => "DEEP_WITH_SIZE"
  | deepNoSize => "DEEP_NO_SIZE"
  | structureOnly => "STRUCTURE_ONLY"
  | shallowWithSize => "SHALLOW_WITH_SIZE"
  | shallowNoSize => "SHALLOW_NO_SIZE"

def ofOrdinal? (ordinal : Int32) : Option SignatureType :=
  if ordinal < 0 then none else all[ordinal.toNatClampNeg]?

def ofName? (name : String) : Option SignatureType := all.find? (·.name = name)

def encodeKey (name : String) : Except ValidationError Int32 :=
  match ofName? name with
  | some t => .ok t.ordinal
  | none => .error (.unknownSignatureType name)

def decodeKey (ordinal : Int32) : Except ValidationError String :=
  match ofOrdinal? ordinal with
  | some t => .ok t.name
  | none => .error (.unknownSignatureType (toString ordinal))

/--
The values under other keys.  A later pair replaces an earlier one; the first key that cannot be
converted is refused.
-/
def convert {κ κ' : Type} [Ord κ'] [Std.TransOrd κ'] [Std.LawfulEqOrd κ']
    (key : κ → Except ValidationError κ') (pairs : List (κ × String)) :
    Except ValidationError (Dict κ') :=
  (pairs.mapM fun pair => (key pair.1).map fun k => (k, pair.2)).map .ofList

def encodeMap (pairs : List (String × String)) : Except ValidationError (Dict Int32) :=
  convert encodeKey pairs

/-- The signatures of a file node under their names; the smallest unknown ordinal is refused. -/
def decodeMap (signatures : Dict Int32) : Except ValidationError (Dict String) :=
  convert decodeKey signatures.toList

end SignatureType
end ScanArchive
