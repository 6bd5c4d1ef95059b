import ScanArchive.Archive.Container
import ScanArchive.Container.Tar.Layout
import ScanArchive.Container.Zstd.Head

/-!
# Writing tar files

The header of an entry holds its length, so an entry is kept back until the next one is opened
or the file is finished.  An entry whose path is refused is lost.
-/

namespace ScanArchive

structure TarSink where
  /-- the entries laid out so far, the last one first -/
  members : List Bytes := []
  pending : Option OpenEntry := none

namespace TarSink

def flush : Call TarSink Unit := do
  let s ← get
  match s.pending with
  | none => return ()
  | some entry =>
    set { s with pending := none }
    match Tar.storedPath? entry.name with
    | none => throw (.archive (.other ("set path '" ++ entry.name ++ "'")))
    | some path =>
      let member := Tar.member path entry.toEntry.data
      modify fun s => { s with members := member :: s.members }

def startEntry (name : String) : Call TarSink Unit := do
  flush
  modify fun s => { s with pending := some { name } }

def writeBytes (bytes : Bytes) : Call TarSink Unit := do
  let s ← get
  match s.pending with
  | some entry => set { s with pending := some (entry.add bytes) }
  | none => throw (.archive .outsideEntry)

def finishTar (s : TarSink) : Except Error Bytes :=
  let (outcome, s) := flush.run s
  outcome.map fun () => s.members.reverse.flatten ++ Tar.trailer

def finish (s : TarSink) : Except Error Bytes := s.finishTar.map Zstd.frame

instance : Sink TarSink Bytes := ⟨startEntry, writeBytes, finish⟩

end TarSink
end ScanArchive
