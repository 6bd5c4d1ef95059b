import ScanArchive.Bytes

/-!
# Paths

What stands at a path in a directory of files, and why a path leads nowhere.
-/

namespace ScanArchive.CommandLine

inductive Location where
  | file (bytes : Bytes)
  /-- nothing that can be opened, and why -/
  | closed (reason : String)
  /-- something that can be opened and not read, and why -/
  | unreadable (reason : String)
  deriving DecidableEq, Repr

namespace Location

def missing : Location := closed "No such file or directory (os error 2)"

def notDirectory : Location := closed "Not a directory (os error 20)"

def nameTooLong : Location := closed "File name too long (os error 36)"

def directory : Location := unreadable "Is a directory (os error 21)"

end Location

/-- The files of a directory that has no other directories in it, by name. -/
abbrev Directory := List (String × Bytes)

namespace Directory

def maxName : Nat := 255

def maxPath : Nat := 4095

def follow (d : Directory) : List String → Location
  | [] => .directory
  | name :: rest =>
    if name.isEmpty ∨ name = "." then follow d rest
    else if maxName < name.utf8ByteSize then .nameTooLong
    else if name = ".." then if rest.all (·.isEmpty) then .directory else .missing
    else
      match d.lookup name, rest with
      | some bytes, [] => .file bytes
      | some _, _ => .notDirectory
      | none, _ => .missing

/-- What stands at a path, for which the directory is the current one. -/
def locate (d : Directory) (path : String) : Location :=
  if path.isEmpty then .missing
  else if maxPath < path.utf8ByteSize then .nameTooLong
  else if path.startsWith "/" then
    if (path.splitOn "/").all (·.isEmpty) then .directory else .missing
  else d.follow (path.splitOn "/")

end Directory
end ScanArchive.CommandLine
