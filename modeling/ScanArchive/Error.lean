import ScanArchive.Layout
import ScanArchive.Validation.Error
import ScanArchive.Wire.Error

/-!
# Errors

Every way in which reading or writing an archive can fail, the class that callers branch on and
the text that people read.
-/

namespace ScanArchive

/-! ## Containers -/

inductive ContainerFault where
  /-- an entry with more contents than are read -/
  | entryTooLarge (name : String) (limit : Nat)
  | outsideEntry
  | other (reason : String)
  deriving DecidableEq, Repr

def ContainerFault.message : ContainerFault → String
  | entryTooLarge name limit => "entry " ++ name ++ " exceeds " ++ toString limit ++ " bytes"
  | outsideEntry => "write outside of an entry"
  | other reason => reason

/-! ## Framing -/

inductive FramingFault where
  | truncatedPrefix (found needed : Nat)
  | truncatedType
  | truncatedVersion
  | truncatedLength
  /-- a length that does not end within ten bytes -/
  | malformedLength
  | truncatedMessage (expected found : Nat)
  deriving DecidableEq, Repr

def FramingFault.message : FramingFault → String
  | truncatedPrefix found needed =>
    "truncated entry prefix: " ++ toString found ++ " of " ++ toString needed ++ " bytes"
  | truncatedType => "truncated entry type"
  | truncatedVersion => "truncated format version"
  | truncatedLength => "truncated length prefix"
  | malformedLength => "malformed length prefix"
  | truncatedMessage expected found =>
    "truncated message: expected " ++ toString expected ++ " bytes, found " ++ toString found

/-! ## Configurations -/

inductive ConfigError where
  | unknownVersion (version : Int16)
  /-- chunks that no message fits into -/
  | chunkSizeTooSmall (size : Nat)
  | chunkSizeTooLarge (size : Nat)
  | compressionLevel (level : Int)
  | unknownContainer (name : String)
  | containerMismatch (configured requested : ContainerFormat)
  deriving DecidableEq, Repr

def ConfigError.message : ConfigError → String
  | unknownVersion version => "Unknown format version: " ++ toString version
  | chunkSizeTooSmall size =>
    "Chunk size " ++ toString size ++ " must exceed the per-message overhead"
  | chunkSizeTooLarge size => "Chunk size " ++ toString size ++ " exceeds the 16MB format limit"
  | compressionLevel level => "Compression level " ++ toString level ++ " outside 1..=22"
  | unknownContainer name => "Unknown container format: " ++ name
  | containerMismatch configured requested =>
    "Configured container is " ++ configured.name ++ ", writer requested " ++ requested.name

/-! ## All errors -/

inductive ErrorKind where
  | framing
  | validation
  /-- unknown types or versions, and a missing or repeated header -/
  | protocol
  | capacity
  | state
  | io
  | archive
  | config
  deriving DecidableEq, Repr

def ErrorKind.name : ErrorKind → String
  | framing => "Framing"
  | validation => "Validation"
  | protocol => "Protocol"
  | capacity => "Capacity"
  | state => "State"
  | io => "Io"
  | archive => "Archive"
  | config => "Config"

inductive Error where
  | framing (fault : FramingFault)
  | validation (e : ValidationError)
  | decode (e : Wire.DecodeError)
  | unknownVersion (version : Int16)
  | unknownEntryType (code : Int16)
  | unexpectedEntryType (expected actual : EntryType)
  /-- a header envelope that holds something else, by its type URL -/
  | unknownHeaderType (url : String)
  /-- a node envelope of no kind that the version knows, by its type URL -/
  | unknownMessageType (url : String)
  | headerNotPresent
  /-- a second header, by the name of its entry -/
  | duplicateHeader (name : String)
  | messageTooLarge (size max : Nat)
  | headerAlreadyWritten
  /-- the call that came before the header was written -/
  | headerNotWritten (call : String)
  | archive (fault : ContainerFault)
  | compression (reason : String)
  | config (e : ConfigError)
  | io (reason : String)
  deriving DecidableEq, Repr

namespace Error

def kind : Error → ErrorKind
  | framing _ | decode _ => .framing
  | validation _ => .validation
  | unknownVersion _ | unknownEntryType _ | unexpectedEntryType .. | unknownHeaderType _
  | unknownMessageType _ | headerNotPresent | duplicateHeader _ => .protocol
  | messageTooLarge .. => .capacity
  | headerAlreadyWritten | headerNotWritten _ => .state
  | archive _ | compression _ => .archive
  | config _ => .config
  | io _ => .io

/-- The text of the error that this one only passes on. -/
def source? : Error → Option String
  | validation e => some e.message
  | decode e => some e.message
  | io reason => some reason
  | _ => none

def message : Error → String
  | framing fault => "Framing error: " ++ fault.message
  | validation e => "Validation error: " ++ e.message
  | decode e => "Decode error: " ++ e.message
  | unknownVersion version => "Unknown version: " ++ toString version
  | unknownEntryType code => "Unknown entry type: " ++ toString code
  | unexpectedEntryType expected actual =>
    "Unexpected entry type: expected " ++ expected.name ++ ", found " ++ actual.name
  | unknownHeaderType url => "Unknown header type: " ++ url
  | unknownMessageType url => "Object of unknown class found: " ++ url
  | headerNotPresent => "Header file not present"
  | duplicateHeader name => "Duplicate header entry: " ++ name
  | messageTooLarge size max =>
    "Message larger than maximum allowed chunk size: " ++ toString size ++ " bytes (+"
      ++ toString Layout.messageOverhead ++ " overhead) exceeds " ++ toString max
  | headerAlreadyWritten => "Header already written"
  | headerNotWritten call => "Header not written: " ++ call
  | archive fault => "Archive error: " ++ fault.message
  | compression reason => "Compression error: " ++ reason
  | config e => "Invalid configuration: " ++ e.message
  | io reason => "IO error: " ++ reason

/-- The error as which a refused configuration is passed on. -/
def ofConfig : ConfigError → Error
  | .unknownVersion version => unknownVersion version
  | e => config e

end Error
end ScanArchive
