import ScanArchive.Container.Tar.Header

/-!
# Extensions of tar files

What does not fit into the header of an entry comes in entries of their own before it: a path, the
target of a link, or records of a key and a value each.
-/

namespace ScanArchive.Tar

/-- The records of an extension: a length, a key and a value in each line; nothing at a bad one. -/
def records (extension : Bytes) : List (Option (Bytes × Bytes)) :=
  let lines := (extension.splitOn 0x0A).takeWhile (!·.isEmpty)
  lines.map fun line =>
    let length := line.takeWhile (· ≠ 0x20)
    let pair := line.drop (length.length + 1)
    let key := pair.takeWhile (· ≠ 0x3D)
    match (Bytes.toText? length).bind fun text => number? 10 text.toList with
    | some n =>
      if n = line.length + 1 ∧ length.length < line.length ∧ key.length < pair.length then
        some (key, pair.drop (key.length + 1))
      else none
    | none => none

def extendedPath? (extension : Bytes) : Option Bytes :=
  ((records extension).filterMap id).lookup (Bytes.ofText "path")

/-- The size that an extension gives, if nothing before it is bad. -/
def extendedSize? (extension : Bytes) : Option Nat :=
  let good := (records extension).takeWhile (·.isSome)
  match (good.filterMap id).lookup (Bytes.ofText "size") with
  | some value => (Bytes.toText? value).bind fun text => number? 10 text.toList
  | none => none

/-- What has been said in advance about the next entry. -/
structure Announced where
  path : Option Bytes := none
  link : Bool := false
  extension : Option Bytes := none

namespace Announced

def any (a : Announced) : Bool := a.path.isSome || a.link || a.extension.isSome

def pathOf (a : Announced) (header : Bytes) : Bytes :=
  match a.path with
  | some path => if path.getLast? = some 0 then path.dropLast else path
  | none =>
    match a.extension.bind extendedPath? with
    | some path => path
    | none => headerPath header

/--
The size of an entry.  That of a path or a target said in advance is not what the records are
about.
-/
def sizeOf (a : Announced) (header : Bytes) : Except String Nat := do
  let size ← headerSize header
  if announces 'L' header ∨ announces 'K' header then return size
  return (a.extension.bind extendedSize?).getD size

end Announced
end ScanArchive.Tar
