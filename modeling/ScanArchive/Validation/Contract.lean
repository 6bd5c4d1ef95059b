import ScanArchive.Header
import ScanArchive.Node.Basic
import ScanArchive.Validation.Error

/-!
# The field contract

Each kind of node has required fields, each with a rule.  They are checked in a fixed order, so
that a node that breaks several rules is always refused for the same one.
-/

namespace ScanArchive

structure Requirement where
  field : String
  rule : FieldRule
  /-- the text that stands for what the field holds -/
  value : String
  met : Bool

namespace Requirement

def nonEmpty (field value : String) : Requirement := ⟨field, .nonEmpty, value, !value.isEmpty⟩

def nonBlank (field value : String) : Requirement :=
  ⟨field, .nonBlank, value, !Text.isBlank value⟩

def nonEmptyList {α : Type} (field : String) (values : List α) : Requirement :=
  ⟨field, .nonEmptyList, "[]", !values.isEmpty⟩

def present {α : Type} (field : String) (value : Option α) : Requirement :=
  ⟨field, .present, "null", value.isSome⟩

/-- Refuses a message for the first of its requirements that is not met. -/
def check (message : String) (requirements : List Requirement) : Except ValidationError Unit :=
  match requirements.find? (!·.met) with
  | some r => .error (.brokenRule message r.field r.rule r.value)
  | none => .ok ()

end Requirement

open Requirement in
def Header.requirements (h : Header) : List Requirement := [nonBlank "id" h.id]

open Requirement in
/-- The required fields of a node, in the order in which they are checked. -/
def Node.requirements : Node → List Requirement
  | .file n => [nonEmpty "name" n.name, nonBlank "path" n.path, nonBlank "uri" n.uri,
      nonBlank "fileSystemType" n.fileSystemType]
  | .dependency n => [nonBlank "componentId" n.componentId, nonEmptyList "matchTypes" n.matchTypes]
  | .component n => [nonBlank "id" n.id, nonBlank "namespace" n.namespaceName,
      nonBlank "identifier" n.identifier]
  | Node.annotation n => [nonBlank "id" n.id, nonBlank "comment" n.comment]
  | .container n => [nonBlank "id" n.id, nonBlank "image" n.image,
      nonBlank "architecture" n.architecture, nonBlank "os" n.os, nonBlank "config" n.config,
      nonEmptyList "layers" n.layers]
  | .containerLayer n => [nonBlank "id" n.id, nonBlank "layer" n.layer]
  | .bdbaFile n => [nonBlank "id" n.id, nonBlank "uri" n.uri,
      present "lastModifiedDateTime" n.lastModifiedDateTime]

def Header.validate (h : Header) : Except ValidationError Unit :=
  Requirement.check Header.messageName h.requirements

def Node.validate (n : Node) : Except ValidationError Unit :=
  Requirement.check n.kind.messageName n.requirements

end ScanArchive
