import ScanArchive.Text

/-!
# Violations of the field contract

Why a node or a header is not fit for an archive.
-/

namespace ScanArchive

inductive FieldRule where
  /-- a text with at least one character -/
  | nonEmpty
  /-- a text with a character that is not whitespace -/
  | nonBlank
  | nonEmptyList
  | present
  deriving DecidableEq, Repr

def FieldRule.message : FieldRule → String
  | nonEmpty => "must not be empty"
  | nonBlank => "must not be blank"
  | nonEmptyList => "must not be an empty list"
  | present => "must be present"

inductive ValidationError where
  /-- a required field breaks its rule; `value` is the text that stands for what it holds -/
  | brokenRule (message field : String) (rule : FieldRule) (value : String)
  /-- a kind of node that the version does not know -/
  | unsupportedType (version : Int16) (message : String)
  /-- a signature whose type, by name or by ordinal, is not in the table -/
  | unknownSignatureType (name : String)
  deriving DecidableEq, Repr

namespace ValidationError

def messageName : ValidationError → String
  | brokenRule message .. => message
  | unsupportedType _ message => message
  | unknownSignatureType _ => "ProtoFileNode"

def fieldName? : ValidationError → Option String
  | brokenRule _ field .. => some field
  | unsupportedType .. => none
  | unknownSignatureType _ => some "signatures"

def message : ValidationError → String
  | brokenRule message field rule value =>
    "The field " ++ message ++ "." ++ field ++ " " ++ rule.message ++ ": " ++ Text.quoted value
  | unsupportedType version message =>
    "Unknown message type in version " ++ toString version ++ ": " ++ message
  | unknownSignatureType name => "Unknown signature type: " ++ name

end ValidationError
end ScanArchive
