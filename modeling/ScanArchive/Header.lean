import ScanArchive.Instant
import ScanArchive.Uuid

/-!
# Scan headers

The metadata of a scan, of which an archive holds exactly one: the message, making one, and
reading its fields as what they stand for.
-/

namespace ScanArchive

/-! ## Scan types -/

inductive ScanType where
  | signature
  | binary
  | container
  deriving DecidableEq, Repr

namespace ScanType

def all : List ScanType := [signature, binary, container]

def code : ScanType → Int32
  | signature => 0
  | binary => 1
  | container => 2

def name : ScanType → String
  | signature => "SIGNATURE"
  | binary => "BINARY"
  | container => "CONTAINER"

def ofCode? (code : Int32) : Option ScanType := all.find? (·.code = code)

def ofName? (name : String) : Option ScanType := all.find? (·.name = name)

end ScanType

/-! ## The message -/

/-- Metadata of a scan. -/
structure Header where
  id : String := ""
  /-- a number of `ScanType` or an unknown one -/
  scanType : Int32 := 0
  codeLocationName : String := ""
  publisherName : String := ""
  publisherVersion : String := ""
  publisherComment : String := ""
  creator : String := ""
  creationTime : Option Timestamp := none
  baseDir : String := ""
  withStringSearch : Bool := false
  withSnippetMatching : Bool := false
  projectGroupName : Option String := none
  projectName : Option String := none
  projectVersionName : Option String := none
  sourceRepository : Option String := none
  sourceBranch : Option String := none
  correlationId : Option String := none
  matchConfidenceThreshold : Option Int64 := none
  retainUnmatchedFiles : Option Bool := none
  fileSystemSizeInBytes : Option Int64 := none
  deriving DecidableEq, Inhabited

namespace Header

def messageName : String := "ProtoScanHeader"

open Wire in
def message : Message Header where
  name := messageName
  initial := {}
  fields := [
    .plain .text "id" 1 (·.id) fun h v => { h with id := v },
    .plain .int32 "scan_type" 2 (·.scanType) fun h v => { h with scanType := v },
    .plain .text "code_location_name" 3 (·.codeLocationName)
      fun h v => { h with codeLocationName := v },
    .plain .text "publisher_name" 4 (·.publisherName) fun h v => { h with publisherName := v },
    .plain .text "publisher_version" 5 (·.publisherVersion)
      fun h v => { h with publisherVersion := v },
    .plain .text "publisher_comment" 6 (·.publisherComment)
      fun h v => { h with publisherComment := v },
    .plain .text "creator" 7 (·.creator) fun h v => { h with creator := v },
    .message Timestamp.message "creation_time" 8 (·.creationTime)
      fun h v => { h with creationTime := v },
    .plain .text "base_dir" 9 (·.baseDir) fun h v => { h with baseDir := v },
    .plain .bool "with_string_search" 10 (·.withStringSearch)
      fun h v => { h with withStringSearch := v },
    .plain .bool "with_snippet_matching" 11 (·.withSnippetMatching)
      fun h v => { h with withSnippetMatching := v },
    .optional .text "project_group_name" 12 (·.projectGroupName)
      fun h v => { h with projectGroupName := v },
    .optional .text "project_name" 13 (·.projectName) fun h v => { h with projectName := v },
    .optional .text "project_version_name" 14 (·.projectVersionName)
      fun h v => { h with projectVersionName := v },
    .optional .text "source_repository" 15 (·.sourceRepository)
      fun h v => { h with sourceRepository := v },
    .optional .text "source_branch" 16 (·.sourceBranch) fun h v => { h with sourceBranch := v },
    .optional .text "correlation_id" 17 (·.correlationId)
      fun h v => { h with correlationId := v },
    .optional .int64 "match_confidence_threshold" 18 (·.matchConfidenceThreshold)
      fun h v => { h with matchConfidenceThreshold := v },
    .optional .bool "retain_unmatched_files" 19 (·.retainUnmatchedFiles)
      fun h v => { h with retainUnmatchedFiles := v },
    .optional .int64 "file_system_size_in_bytes" 20 (·.fileSystemSizeInBytes)
      fun h v => { h with fileSystemSizeInBytes := v }]

end Header

/-! ## Properties -/

namespace Header

def ofId (id : String) (type : ScanType) : Header := { id, scanType := type.code }

/-- A header whose id is a random UUID, made at the given time. -/
def ofRandom (bits : BitVec 128) (created : Instant) (type : ScanType) : Header :=
  { ofId (Uuid.ofRandomBits bits).toText type with creationTime := some created.toTimestamp }

def withCreationTime (h : Header) (created : Instant) : Header :=
  { h with creationTime := some created.toTimestamp }

def withCodeLocation (h : Header) (name : String) : Header := { h with codeLocationName := name }

def withPublisher (h : Header) (name version : String) : Header :=
  { h with publisherName := name, publisherVersion := version }

def withProject (h : Header) (project version : String) : Header :=
  { h with projectName := some project, projectVersionName := some version }

def withCorrelationId (h : Header) (id : Uuid) : Header :=
  { h with correlationId := some id.toText }

/-- The type of the scan; a number without a meaning counts as the first type. -/
def type (h : Header) : ScanType := (ScanType.ofCode? h.scanType).getD .signature

def created? (h : Header) : Option Instant := h.creationTime.bind Instant.ofTimestamp?

/-- The correlation id, if it is set: a UUID, or something that is none. -/
def correlation? (h : Header) : Option (Option Uuid) := h.correlationId.map Uuid.parse?

end Header
end ScanArchive
