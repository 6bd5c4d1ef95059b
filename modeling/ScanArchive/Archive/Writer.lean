import ScanArchive.Archive.Container
import ScanArchive.Budget
import ScanArchive.Config
import ScanArchive.Framing.Basic

/-!
# Writing archives

A writer puts one header entry and then chunk entries into a sink.  Every header and node is
checked before any of its bytes are written, and a new chunk is opened when the budget of the
open one is used up.  A call that fails leaves what was written before it; nothing is undone.
-/

namespace ScanArchive

/--
The state of a writer over a sink.  The counts do not run over: fewer than 2³² chunk entries and
2⁶⁴ nodes are meant.
-/
structure Writer (σ : Type) where
  sink : σ
  provider : Provider
  budget : ChunkBudget
  /-- how many chunk entries have been opened -/
  entryCount : Nat := 0
  nodesWritten : Nat := 0
  headerWritten : Bool := false

namespace Writer

variable {σ ω : Type} [Sink σ ω]

/-- A writer over a sink that is open.  The configured container is not looked at. -/
def ofSink (sink : σ) (config : WriterConfig) : Except Error (Writer σ) := do
  config.validate.mapError .ofConfig
  let provider ← Registry.builtin.provider config.version
  return { sink, provider, budget := .ofSize config.maxChunkSize }

def version (w : Writer σ) : Int16 := w.provider.version

def onSink {α : Type} (call : Call σ α) : Call (Writer σ) α := fun w =>
  let (result, sink) := call w.sink
  (result, { w with sink })

def startEntry (name : String) (type : EntryType) : Call (Writer σ) Unit := do
  let w ← get
  onSink (Sink.startEntry name)
  onSink (Sink.writeBytes (Framing.encodePrefix type w.version))

def writeHeader (h : Header) : Call (Writer σ) Unit := do
  let w ← get
  if w.headerWritten then throw .headerAlreadyWritten
  h.validate.mapError Error.validation
  startEntry Layout.headerName .header
  onSink (Sink.writeBytes (w.provider.encoding.encodeHeader h))
  modify fun w => { w with headerWritten := true }

def startChunk : Call (Writer σ) Unit := do
  let w ← get
  startEntry (Layout.chunkName w.entryCount) .chunk
  modify fun w => { w with entryCount := w.entryCount + 1 }

def messageLength (payload : Bytes) : Except Error Nat :=
  match Wire.readVarint payload with
  | .ok (length, _) => .ok length
  | .error e => .error (.decode e)

/-- Writes one node, in a new chunk if the open one has no room for it. -/
def writeNode (n : Node) : Call (Writer σ) Unit := do
  let w ← get
  if !w.headerWritten then throw (.headerNotWritten "write_node")
  (w.provider.encoding.validate n).mapError Error.validation
  if !w.provider.supports n.kind then throw (.unknownMessageType n.kind.typeUrl)
  let payload ← w.provider.encoding.encodeNode n
  let length ← messageLength payload
  let (placement, budget) ← w.budget.place length
  set { w with budget }
  if placement = .newEntry then startChunk
  onSink (Sink.writeBytes payload)
  modify fun w => { w with nodesWritten := w.nodesWritten + 1 }

def writeNodes : List Node → Call (Writer σ) Unit
  | [] => return ()
  | n :: rest => do
    writeNode n
    writeNodes rest

def close (w : Writer σ) : Except Error ω :=
  if w.headerWritten then Sink.finish w.sink else .error (.headerNotWritten "close")

end Writer
end ScanArchive
