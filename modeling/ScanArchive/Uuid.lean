/-!
# UUIDs

Numbers of 128 bits, written as 32 hexadecimal digits in groups of 8, 4, 4, 4 and 12 with
hyphens between them.  They are read in upper or lower case, also without the hyphens, and with
them also in braces or after a URN prefix.
-/

namespace ScanArchive

structure Uuid where
  value : BitVec 128
  deriving DecidableEq, Repr

namespace Uuid

def digit? (c : Char) : Option Nat :=
  if '0' ≤ c ∧ c ≤ '9' then some (c.toNat - '0'.toNat)
  else if 'a' ≤ c ∧ c ≤ 'f' then some (c.toNat - 'a'.toNat + 10)
  else if 'A' ≤ c ∧ c ≤ 'F' then some (c.toNat - 'A'.toNat + 10)
  else none

def ofDigits? (cs : List Char) : Option Uuid :=
  if cs.length = 32 then
    (cs.mapM digit?).map fun ds => ⟨BitVec.ofNat 128 (ds.foldl (fun n d => n * 16 + d) 0)⟩
  else none

def groups : List Nat := [8, 4, 4, 4, 12]

/-- The digits of groups of the given lengths that hyphens separate. -/
def ungroup? : List Nat → List Char → Option (List Char)
  | [], cs => if cs.isEmpty then some [] else none
  | [n], cs => if cs.length = n then some cs else none
  | n :: m :: rest, cs =>
    match cs.drop n with
    | '-' :: tail => (ungroup? (m :: rest) tail).map (cs.take n ++ ·)
    | _ => none

def ofGroups? (cs : List Char) : Option Uuid := (ungroup? groups cs).bind ofDigits?

def urn : List Char := "urn:uuid:".toList

def parse? (s : String) : Option Uuid :=
  let cs := s.toList
  if cs.length = 32 then ofDigits? cs
  else if (cs.take urn.length).map Char.toLower = urn then ofGroups? (cs.drop urn.length)
  else if cs.head? = some '\x7b' ∧ cs.getLast? = some '\x7d' then
    ofGroups? (cs.drop 1).dropLast
  else ofGroups? cs

def hyphenate : List Nat → List Char → List Char
  | [], cs => cs
  | [_], cs => cs
  | n :: rest, cs => cs.take n ++ '-' :: hyphenate rest (cs.drop n)

def digits (u : Uuid) : List Char :=
  let ds := Nat.toDigits 16 u.value.toNat
  List.replicate (32 - ds.length) '0' ++ ds

def toText (u : Uuid) : String := String.ofList (hyphenate groups u.digits)

/-- The random UUID of the given bits, four of which say that it is one and two the variant. -/
def ofRandomBits (bits : BitVec 128) : Uuid :=
  let value := bits.toNat
  let high := value >>> 80
  let middle := (value >>> 64) % 0x1000
  let low := value % 0x4000000000000000
  ⟨BitVec.ofNat 128 (high <<< 80 + 4 <<< 76 + middle <<< 64 + 2 <<< 62 + low)⟩

def isRandom (u : Uuid) : Bool :=
  (u.value.toNat >>> 76) % 16 = 4 ∧ (u.value.toNat >>> 62) % 4 = 2

end Uuid
end ScanArchive
