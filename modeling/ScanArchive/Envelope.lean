import ScanArchive.Error
import ScanArchive.Header
import ScanArchive.Node.Basic

/-!
# Envelopes

An envelope holds an encoded message behind a URL that names its type.
-/

namespace ScanArchive

/-- An encoded message that says what it is. -/
structure Envelope where
  typeUrl : String := ""
  value : Bytes := []
  deriving DecidableEq, Inhabited

namespace Envelope

open Wire in
def message : Message Envelope where
  name := "Any"
  initial := {}
  fields := [
    .plain .text "type_url" 1 (·.typeUrl) fun e v => { e with typeUrl := v },
    .plain .blob "value" 2 (·.value) fun e v => { e with value := v }]

def typeName (e : Envelope) : String := Schema.typeName e.typeUrl

def ofNode (n : Node) : Envelope := ⟨n.kind.typeUrl, n.encode⟩

def ofHeader (h : Header) : Envelope :=
  ⟨Schema.typeUrl Header.messageName, Header.message.encode h⟩

def node (e : Envelope) (kinds : List NodeKind) : Except Error Node :=
  match kinds.find? (·.fullName = e.typeName) with
  | none => .error (.unknownMessageType e.typeUrl)
  | some kind => (kind.decode e.value).mapError .decode

/--
The header inside.  Its type URL must have a slash before the name of the header message; the
name alone is recognised but not accepted.
-/
def header (e : Envelope) : Except Error Header :=
  if e.typeName ≠ Schema.fullName Header.messageName then .error (.unknownHeaderType e.typeUrl)
  else if e.typeUrl.toList.contains '/' then
    (Header.message.decode e.value).mapError .decode
  else
    .error (.decode {
      fault := .wrongTypeUrl (Schema.typeUrl Header.messageName) e.typeUrl
      path := [⟨"unexpected type URL", "type_url"⟩] })

end Envelope
end ScanArchive
