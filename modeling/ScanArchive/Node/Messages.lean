import ScanArchive.Instant
import ScanArchive.Wire.Field

/-!
# Messages of nodes

The seven messages that are nodes of a scan, each with its fields and its layout.
-/

namespace ScanArchive

/-! ## Match types -/

inductive MatchType where
  | signature
  | codeSimilarity
  deriving DecidableEq, Repr

namespace MatchType

def all : List MatchType := [signature, codeSimilarity]

def code : MatchType → Int32
  | signature => 0
  | codeSimilarity => 1

def name : MatchType → String
  | signature => "Signature"
  | codeSimilarity => "CodeSimilarity"

def ofCode? (code : Int32) : Option MatchType := all.find? (·.code = code)

def ofName? (name : String) : Option MatchType := all.find? (·.name = name)

end MatchType

/-! ## Files of a signature scan -/

structure FileNode where
  id : Int64 := 0
  parentId : Int64 := 0
  name : String := ""
  fileSystemType : String := ""
  shallowDirectoryCount : Option Int64 := none
  deepDirectoryCount : Option Int64 := none
  deepFileCount : Option Int64 := none
  distanceFromRoot : Option Int64 := none
  distanceFromInnerRoot : Option Int64 := none
  path : String := ""
  archiveContext : Option String := none
  uri : String := ""
  size : Int64 := 0
  /-- digests of the content, by the ordinal of the signature type -/
  signatures : Dict Int32 := .empty
  deriving DecidableEq, Inhabited

namespace FileNode

def messageName : String := "ProtoFileNode"

open Wire in
def message : Message FileNode where
  name := messageName
  initial := {}
  fields := [
    .plain .int64 "id" 1 (·.id) fun n v => { n with id := v },
    .plain .int64 "parent_id" 2 (·.parentId) fun n v => { n with parentId := v },
    .plain .text "name" 3 (·.name) fun n v => { n with name := v },
    .plain .text "file_system_type" 4 (·.fileSystemType)
      fun n v => { n with fileSystemType := v },
    .optional .int64 "shallow_directory_count" 5 (·.shallowDirectoryCount)
      fun n v => { n with shallowDirectoryCount := v },
    .optional .int64 "deep_directory_count" 6 (·.deepDirectoryCount)
      fun n v => { n with deepDirectoryCount := v },
    .optional .int64 "deep_file_count" 7 (·.deepFileCount)
      fun n v => { n with deepFileCount := v },
    .optional .int64 "distance_from_root" 8 (·.distanceFromRoot)
      fun n v => { n with distanceFromRoot := v },
    .optional .int64 "distance_from_inner_root" 9 (·.distanceFromInnerRoot)
      fun n v => { n with distanceFromInnerRoot := v },
    .plain .text "path" 10 (·.path) fun n v => { n with path := v },
    .optional .text "archive_context" 11 (·.archiveContext)
      fun n v => { n with archiveContext := v },
    .plain .text "uri" 12 (·.uri) fun n v => { n with uri := v },
    .plain .int64 "size" 13 (·.size) fun n v => { n with size := v },
    .dict .int32 "signatures" 14 (·.signatures) fun n v => { n with signatures := v }]

end FileNode

/-! ## Components that were matched -/

structure DependencyNode where
  componentId : String := ""
  evidenceId : Option String := none
  containerLayer : Option String := none
  whiteoutLayer : Option String := none
  descriptionId : Option String := none
  /-- how the component was matched, as numbers of `MatchType` or unknown ones -/
  matchTypes : List Int32 := []
  deriving DecidableEq, Inhabited

namespace DependencyNode

def messageName : String := "ProtoDependencyNode"

open Wire in
def message : Message DependencyNode where
  name := messageName
  initial := {}
  fields := [
    .plain .text "component_id" 1 (·.componentId) fun n v => { n with componentId := v },
    .optional .text "evidence_id" 2 (·.evidenceId) fun n v => { n with evidenceId := v },
    .optional .text "container_layer" 3 (·.containerLayer)
      fun n v => { n with containerLayer := v },
    .optional .text "whiteout_layer" 4 (·.whiteoutLayer) fun n v => { n with whiteoutLayer := v },
    .optional .text "description_id" 5 (·.descriptionId) fun n v => { n with descriptionId := v },
    .packed (fun v => v.toInt64.toUInt64.toNat) (fun n => n.toUInt32.toInt32) "match_types" 6
      (·.matchTypes)
      fun n v => { n with matchTypes := v }]

end DependencyNode

/-! ## Identities of components -/

structure ComponentNode where
  id : String := ""
  namespaceName : String := ""
  identifier : String := ""
  descriptionId : Option String := none
  deriving DecidableEq, Inhabited

namespace ComponentNode

def messageName : String := "ProtoComponentNode"

open Wire in
def message : Message ComponentNode where
  name := messageName
  initial := {}
  fields := [
    .plain .text "id" 1 (·.id) fun n v => { n with id := v },
    .plain .text "namespace" 2 (·.namespaceName) fun n v => { n with namespaceName := v },
    .plain .text "identifier" 3 (·.identifier) fun n v => { n with identifier := v },
    .optional .text "description_id" 4 (·.descriptionId) fun n v => { n with descriptionId := v }]

end ComponentNode

/-! ## Free text about other nodes -/

structure AnnotationNode where
  id : String := ""
  comment : String := ""
  deriving DecidableEq, Inhabited

namespace AnnotationNode

def messageName : String := "ProtoAnnotationNode"

open Wire in
def message : Message AnnotationNode where
  name := messageName
  initial := {}
  fields := [
    .plain .text "id" 1 (·.id) fun n v => { n with id := v },
    .plain .text "comment" 2 (·.comment) fun n v => { n with comment := v }]

end AnnotationNode

/-! ## Container images -/

structure ContainerNode where
  id : String := ""
  image : String := ""
  architecture : String := ""
  repoTags : List String := []
  os : String := ""
  createdAt : Option Timestamp := none
  config : String := ""
  layers : List String := []
  imagePaths : List String := []
  deriving DecidableEq, Inhabited

namespace ContainerNode

def messageName : String := "ProtoContainerNode"

open Wire in
def message : Message ContainerNode where
  name := messageName
  initial := {}
  fields := [
    .plain .text "id" 1 (·.id) fun n v => { n with id := v },
    .plain .text "image" 2 (·.image) fun n v => { n with image := v },
    .plain .text "architecture" 3 (·.architecture) fun n v => { n with architecture := v },
    .repeated .text "repo_tags" 4 (·.repoTags) fun n v => { n with repoTags := v },
    .plain .text "os" 5 (·.os) fun n v => { n with os := v },
    .message Timestamp.message "created_at" 6 (·.createdAt) fun n v => { n with createdAt := v },
    .plain .text "config" 7 (·.config) fun n v => { n with config := v },
    .repeated .text "layers" 8 (·.layers) fun n v => { n with layers := v },
    .repeated .text "image_paths" 9 (·.imagePaths) fun n v => { n with imagePaths := v }]

end ContainerNode

/-! ## Layers of container images -/

structure ContainerLayerNode where
  id : String := ""
  layer : String := ""
  size : Int64 := 0
  command : Option String := none
  createdAt : Option Timestamp := none
  comment : Option String := none
  deriving DecidableEq, Inhabited

namespace ContainerLayerNode

def messageName : String := "ProtoContainerLayerNode"

open Wire in
def message : Message ContainerLayerNode where
  name := messageName
  initial := {}
  fields := [
    .plain .text "id" 1 (·.id) fun n v => { n with id := v },
    .plain .text "layer" 2 (·.layer) fun n v => { n with layer := v },
    .plain .int64 "size" 3 (·.size) fun n v => { n with size := v },
    .optional .text "command" 4 (·.command) fun n v => { n with command := v },
    .message Timestamp.message "created_at" 5 (·.createdAt) fun n v => { n with createdAt := v },
    .optional .text "comment" 6 (·.comment) fun n v => { n with comment := v }]

end ContainerLayerNode

/-! ## Files of binary analysis -/

structure BdbaFileNode where
  id : String := ""
  uri : String := ""
  size : Int64 := 0
  lastModifiedDateTime : Option Timestamp := none
  fileSystemType : Option String := none
  /-- digests of the content, by the name of the algorithm -/
  signatures : Dict String := .empty
  deriving DecidableEq, Inhabited

namespace BdbaFileNode

def messageName : String := "ProtoBdbaFileNode"

open Wire in
def message : Message BdbaFileNode where
  name := messageName
  initial := {}
  fields := [
    .plain .text "id" 1 (·.id) fun n v => { n with id := v },
    .plain .text "uri" 2 (·.uri) fun n v => { n with uri := v },
    .plain .int64 "size" 3 (·.size) fun n v => { n with size := v },
    .message Timestamp.message "last_modified_date_time" 4 (·.lastModifiedDateTime)
      fun n v => { n with lastModifiedDateTime := v },
    .optional .text "file_system_type" 5 (·.fileSystemType)
      fun n v => { n with fileSystemType := v },
    .dict .text "signatures" 6 (·.signatures) fun n v => { n with signatures := v }]

end BdbaFileNode
end ScanArchive
