import ScanArchive.Envelope
import ScanArchive.Validation.Contract

/-!
# Encodings

The two ways in which headers and nodes are put into entries.  The bare encoding writes messages
as they are, and so can hold one kind of node only; the other wraps every message into an
envelope.
-/

namespace ScanArchive

/-- How headers and nodes stand in entries. -/
inductive Encoding where
  /-- messages as they are, file nodes only -/
  | bare
  /-- messages in envelopes, every kind of node -/
  | enveloped
  deriving DecidableEq, Repr

namespace Encoding

def version : Encoding → Int16
  | bare => Layout.version1
  | enveloped => Layout.version2

def kinds : Encoding → List NodeKind
  | bare => [.file]
  | enveloped =>
    [.dependency, .component, .file, NodeKind.annotation, .container, .containerLayer, .bdbaFile]

/-- Refuses a node of a kind that the encoding cannot hold, or that breaks its contract. -/
def validate (encoding : Encoding) (n : Node) : Except ValidationError Unit :=
  if n.kind ∈ encoding.kinds then n.validate
  else .error (.unsupportedType encoding.version n.kind.messageName)

/-- What follows the version in a header entry. -/
def encodeHeader (encoding : Encoding) (h : Header) : Bytes :=
  match encoding with
  | bare => Header.message.encode h
  | enveloped => Envelope.message.encode (.ofHeader h)

def decodeHeader (encoding : Encoding) (bytes : Bytes) : Except Error Header :=
  match encoding with
  | bare => (Header.message.decode bytes).mapError .decode
  | enveloped => do
    let e ← (Envelope.message.decode bytes).mapError Error.decode
    e.header

/-- The message that stands for a node in a chunk, without its length. -/
def nodeBody (encoding : Encoding) (n : Node) : Bytes :=
  match encoding with
  | bare => n.encode
  | enveloped => Envelope.message.encode (.ofNode n)

def encodeNode (encoding : Encoding) (n : Node) : Except Error Bytes :=
  if n.kind ∈ encoding.kinds then .ok (Wire.delimited (encoding.nodeBody n))
  else .error (.unknownMessageType n.kind.typeUrl)

def decodeNode (encoding : Encoding) (body : Bytes) : Except Error Node :=
  match encoding with
  | bare => (NodeKind.decode .file body).mapError .decode
  | enveloped => do
    let e ← (Envelope.message.decode body).mapError Error.decode
    e.node (kinds .enveloped)

end Encoding
end ScanArchive
