import ScanArchive.Node.Messages

/-!
# Nodes

A node is one of seven kinds of messages.  A bare encoding does not say which: it is read by
someone who knows the kind, or out of an envelope, which names the type of its contents by a URL:
a host, a slash and the full name.
-/

namespace ScanArchive

/-! ## Names of the schema -/

namespace Schema

def packageName : String := "com.blackducksoftware.bdio.proto.domain"

def typeUrlHost : String := "type.googleapis.com"

def fullName (messageName : String) : String := packageName ++ "." ++ messageName

def typeUrl (messageName : String) : String := typeUrlHost ++ "/" ++ fullName messageName

/-- What follows the last slash of a type URL; all of it when there is no slash. -/
def typeName (url : String) : String :=
  String.ofList (url.toList.reverse.takeWhile (· != '/')).reverse

end Schema

/-! ## Kinds of nodes -/

inductive NodeKind where
  | file
  | dependency
  | component
  | annotation
  | container
  | containerLayer
  | bdbaFile
  deriving DecidableEq, Repr

inductive Node where
  | file (n : FileNode)
  | dependency (n : DependencyNode)
  | component (n : ComponentNode)
  | annotation (n : AnnotationNode)
  | container (n : ContainerNode)
  | containerLayer (n : ContainerLayerNode)
  | bdbaFile (n : BdbaFileNode)
  deriving DecidableEq

namespace NodeKind

def all : List NodeKind :=
  [file, dependency, component, annotation, container, containerLayer, bdbaFile]

theorem mem_all (kind : NodeKind) : kind ∈ all := by cases kind <;> decide

def name : NodeKind → String
  | file => "File"
  | dependency => "Dependency"
  | component => "Component"
  | annotation => "Annotation"
  | container => "Container"
  | containerLayer => "ContainerLayer"
  | bdbaFile => "BdbaFile"

def messageName : NodeKind → String
  | file => FileNode.messageName
  | dependency => DependencyNode.messageName
  | component => ComponentNode.messageName
  | annotation => AnnotationNode.messageName
  | container => ContainerNode.messageName
  | containerLayer => ContainerLayerNode.messageName
  | bdbaFile => BdbaFileNode.messageName

def byName : List NodeKind :=
  [NodeKind.annotation, bdbaFile, component, containerLayer, container, dependency, file]

def fullName (kind : NodeKind) : String := Schema.fullName kind.messageName

def typeUrl (kind : NodeKind) : String := Schema.typeUrl kind.messageName

def decode (kind : NodeKind) (bytes : Bytes) : Except Wire.DecodeError Node :=
  match kind with
  | file => (FileNode.message.decode bytes).map .file
  | dependency => (DependencyNode.message.decode bytes).map .dependency
  | component => (ComponentNode.message.decode bytes).map .component
  | annotation => (AnnotationNode.message.decode bytes).map Node.annotation
  | container => (ContainerNode.message.decode bytes).map .container
  | containerLayer => (ContainerLayerNode.message.decode bytes).map .containerLayer
  | bdbaFile => (BdbaFileNode.message.decode bytes).map .bdbaFile

end NodeKind

namespace Node

def kind : Node → NodeKind
  | file _ => .file
  | dependency _ => .dependency
  | component _ => .component
  | annotation _ => NodeKind.annotation
  | container _ => .container
  | containerLayer _ => .containerLayer
  | bdbaFile _ => .bdbaFile

def encode : Node → Bytes
  | file n => FileNode.message.encode n
  | dependency n => DependencyNode.message.encode n
  | component n => ComponentNode.message.encode n
  | annotation n => AnnotationNode.message.encode n
  | container n => ContainerNode.message.encode n
  | containerLayer n => ContainerLayerNode.message.encode n
  | bdbaFile n => BdbaFileNode.message.encode n

def size : Node → Nat
  | file n => FileNode.message.size n
  | dependency n => DependencyNode.message.size n
  | component n => ComponentNode.message.size n
  | annotation n => AnnotationNode.message.size n
  | container n => ContainerNode.message.size n
  | containerLayer n => ContainerLayerNode.message.size n
  | bdbaFile n => BdbaFileNode.message.size n

end Node
end ScanArchive
