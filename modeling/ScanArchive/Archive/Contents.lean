import ScanArchive.Archive.Reader

/-!
# Contents of archives

An archive is read entry by entry.  Its header can be searched for, which passes over whatever
else there is; reading everything asks for exactly one header and accepts nothing but headers
and chunks.
-/

namespace ScanArchive

inductive EntryContents where
  | header (h : Header)
  | chunk (c : Chunk)

structure DecodedEntry where
  name : String
  /-- the length of the entry, prefix included -/
  size : Nat
  version : Int16
  contents : EntryContents

namespace DecodedEntry

def type (e : DecodedEntry) : EntryType :=
  match e.contents with
  | .header _ => .header
  | .chunk _ => .chunk

end DecodedEntry

structure Contents where
  /-- the version of the header entry -/
  version : Int16
  header : Header
  chunks : List Chunk

def Contents.nodes (c : Contents) : Chunk := Chunk.merge c.chunks

namespace Entry

def decode (e : Entry) : Except Error DecodedEntry := do
  let ((type, version), body) ← Framing.readPrefix (.ofBytes e.data)
  let contents ← match type with
    | .header => do
      let (h, _) ← Framing.readHeaderBody version body
      pure (EntryContents.header h)
    | .chunk => do
      let (c, _) ← Framing.readChunkBody version body
      pure (EntryContents.chunk c)
  return { name := e.name, size := e.data.length, version, contents }

/--
The header, if the entry is marked as one.  An entry that is too short for a mark belongs to
someone else.
-/
def markedHeader? (e : Entry) : Option (Except Error VersionedHeader) :=
  match Framing.isHeader (.ofBytes e.data) with
  | .ok (true, body) => some ((Framing.readVersionedHeader false body).map (·.1))
  | _ => none

end Entry

namespace Source

def nextDecoded (source : Source) : Except Error (Option DecodedEntry) × Source :=
  match source.next with
  | (.error e, rest) => (.error e, rest)
  | (.ok none, rest) => (.ok none, rest)
  | (.ok (some entry), rest) => (entry.decode.map some, rest)

/-- Decodes all entries, up to the first that cannot be had. -/
def decodeAll : Source → Except Error (List DecodedEntry)
  | [] => .ok []
  | .error e :: _ => .error e
  | .ok entry :: rest => do
    let decoded ← entry.decode
    return decoded :: (← decodeAll rest)

/-- Reads up to the first entry that is marked as a header, and decodes that one. -/
def findHeader : Source → Except Error VersionedHeader × Source
  | [] => (.error .headerNotPresent, [])
  | .error e :: rest => (.error e, rest)
  | .ok entry :: rest =>
    match entry.markedHeader? with
    | some found => (found, rest)
    | none => findHeader rest

def readHeader (source : Source) : Except Error Header × Source :=
  ((findHeader source).1.map (·.header), (findHeader source).2)

/--
Reads all entries that are left, given the header found so far and the chunks found so far, the
last one first.
-/
def readRest : Source → Option VersionedHeader → List Chunk → Except Error Contents
  | [], none, _ => .error .headerNotPresent
  | [], some h, chunks =>
    .ok { version := h.version, header := h.header, chunks := chunks.reverse }
  | .error e :: _, _, _ => .error e
  | .ok entry :: rest, header?, chunks =>
    match entry.decode with
    | .error e => .error e
    | .ok decoded =>
      match decoded.contents, header? with
      | .chunk c, _ => readRest rest header? (c :: chunks)
      | .header h, none => readRest rest (some ⟨decoded.version, h⟩) chunks
      | .header _, some _ => .error (.duplicateHeader decoded.name)

/-- Reads a whole archive, which must have exactly one header. -/
def readAll (source : Source) : Except Error Contents := readRest source none []

end Source
end ScanArchive
