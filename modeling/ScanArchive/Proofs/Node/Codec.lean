import ScanArchive.Proofs.Encoding
import ScanArchive.Proofs.Wire.Size

/-!
# Messages are what their encodings say

The length of the encoding of every header, node and envelope is known beforehand, and each is
read back from its encoding with every field as it was: `messages_round_trip`.
-/

namespace ScanArchive

open Wire

/-! ## 1. Sizes -/

theorem Timestamp.sized : Timestamp.message.Sized := by
  simp [Message.Sized, Timestamp.message]

theorem Header.sized : Header.message.Sized := by
  simp [Message.Sized, Header.message, Field.sized_message Timestamp.sized]

theorem FileNode.sized : FileNode.message.Sized := by
  simp [Message.Sized, FileNode.message]

theorem DependencyNode.sized : DependencyNode.message.Sized := by
  simp [Message.Sized, DependencyNode.message]

theorem ComponentNode.sized : ComponentNode.message.Sized := by
  simp [Message.Sized, ComponentNode.message]

theorem AnnotationNode.sized : AnnotationNode.message.Sized := by
  simp [Message.Sized, AnnotationNode.message]

theorem ContainerNode.sized : ContainerNode.message.Sized := by
  simp [Message.Sized, ContainerNode.message, Field.sized_message Timestamp.sized]

theorem ContainerLayerNode.sized : ContainerLayerNode.message.Sized := by
  simp [Message.Sized, ContainerLayerNode.message, Field.sized_message Timestamp.sized]

theorem BdbaFileNode.sized : BdbaFileNode.message.Sized := by
  simp [Message.Sized, BdbaFileNode.message, Field.sized_message Timestamp.sized]

theorem Envelope.sized : Envelope.message.Sized := by
  simp [Message.Sized, Envelope.message]

theorem Node.length_encode (n : Node) : n.encode.length = n.size := by
  cases n with
  | file n => exact Message.length_encode FileNode.sized n
  | dependency n => exact Message.length_encode DependencyNode.sized n
  | component n => exact Message.length_encode ComponentNode.sized n
  | annotation n => exact Message.length_encode AnnotationNode.sized n
  | container n => exact Message.length_encode ContainerNode.sized n
  | containerLayer n => exact Message.length_encode ContainerLayerNode.sized n
  | bdbaFile n => exact Message.length_encode BdbaFileNode.sized n

/-! ## 2. Round trips -/

/--
Every header and node, and every envelope around a node, is as long as its size says and is read
back, whatever its fields hold.  A message must have a size that a 64-bit number can hold, as
every message that fits into memory has.
-/
theorem messages_round_trip :
    (∀ h : Header,
      (Header.message.encode h).length = Header.message.size h ∧
      (Header.message.size h < UInt64.size →
        Header.message.decode (Header.message.encode h) = .ok h)) ∧
    (∀ n : Node,
      n.encode.length = n.size ∧
      (n.size < UInt64.size → n.kind.decode n.encode = .ok n)) ∧
    ∀ (n : Node) (kinds : List NodeKind), n.kind ∈ kinds →
      (Envelope.message.encode (.ofNode n)).length = Envelope.message.size (.ofNode n) ∧
      (Envelope.message.size (.ofNode n) < UInt64.size →
        Envelope.message.decode (Envelope.message.encode (.ofNode n)) = .ok (.ofNode n) ∧
        (Envelope.ofNode n).node kinds = .ok n) := by
  refine ⟨fun h => ?_, fun n => ?_, fun n kinds hkind => ?_⟩
  · have hlength := Message.length_encode Header.sized h
    exact ⟨hlength, fun hsize => Header.lossless.decode_encode (hlength ▸ hsize)⟩
  · have hlength := n.length_encode
    exact ⟨hlength, fun hsize => Node.decode_encode (hlength ▸ hsize)⟩
  · have hlength := Message.length_encode Envelope.sized (.ofNode n)
    refine ⟨hlength, fun hsize => ?_⟩
    rw [← hlength] at hsize
    -- the node is shorter than the envelope around it
    have hinner : n.encode.length < UInt64.size :=
      Nat.lt_of_le_of_lt (Envelope.length_value_le (.ofNode n)) hsize
    exact ⟨Envelope.lossless.decode_encode hsize, Envelope.node_ofNode hkind hinner⟩

/-- Values that are set to zero are told from values that are not set. -/
theorem zero_values_round_trip :
    Header.message.decode (Header.message.encode
        { scanType := -1, creationTime := some {}, projectName := some "",
          retainUnmatchedFiles := some false, fileSystemSizeInBytes := some 0 })
      = .ok { scanType := -1, creationTime := some {}, projectName := some "",
              retainUnmatchedFiles := some false, fileSystemSizeInBytes := some 0 } ∧
    (Node.file { id := -1, signatures := .ofList [(0, ""), (-3, "a")] }).kind.decode
        (Node.file { id := -1, signatures := .ofList [(0, ""), (-3, "a")] }).encode
      = .ok (.file { id := -1, signatures := .ofList [(0, ""), (-3, "a")] }) ∧
    (Envelope.ofNode (.dependency { matchTypes := [1, -1] })).node NodeKind.all
      = .ok (.dependency { matchTypes := [1, -1] }) := by
  have hsizes : Header.message.size
        { scanType := -1, creationTime := some {}, projectName := some "",
          retainUnmatchedFiles := some false, fileSystemSizeInBytes := some 0 } < UInt64.size ∧
      (Node.file { id := -1, signatures := .ofList [(0, ""), (-3, "a")] }).size < UInt64.size ∧
      Envelope.message.size (.ofNode (.dependency { matchTypes := [1, -1] })) < UInt64.size := by
    decide +kernel
  obtain ⟨hheader, hnode, henvelope⟩ := messages_round_trip
  exact ⟨(hheader _).2 hsizes.1, (hnode _).2 hsizes.2.1,
    ((henvelope _ NodeKind.all (NodeKind.mem_all _)).2 hsizes.2.2).2⟩

end ScanArchive
