import ScanArchive.Encoding
import ScanArchive.Proofs.Wire.Field

/-!
# Headers, nodes and envelopes read back

Every header, node and envelope that is short enough to have a length is read back as it was
written, with each field, bare as well as in an envelope.
-/

namespace ScanArchive

open Wire Wire.Field Wire.Scalar

/-! ## 1. Messages -/

theorem Timestamp.lossless (depth : Nat) : Timestamp.message.Lossless depth where
  wellTagged := by decide
  carried _ := .cons (carries_plain reads_int64 rfl) <| .cons (carries_plain reads_int32 rfl) .nil

theorem Header.lossless : Header.message.Lossless Message.maxDepth where
  wellTagged := by decide
  carried _ :=
    .cons (carries_plain reads_text rfl) <|
    .cons (carries_plain reads_int32 rfl) <|
    .cons (carries_plain reads_text rfl) <|
    .cons (carries_plain reads_text rfl) <|
    .cons (carries_plain reads_text rfl) <|
    .cons (carries_plain reads_text rfl) <|
    .cons (carries_plain reads_text rfl) <|
    .cons (carries_message (Timestamp.lossless 99) rfl rfl) <|
    .cons (carries_plain reads_text rfl) <|
    .cons (carries_plain reads_bool rfl) <|
    .cons (carries_plain reads_bool rfl) <|
    .cons (carries_optional reads_text rfl) <|
    .cons (carries_optional reads_text rfl) <|
    .cons (carries_optional reads_text rfl) <|
    .cons (carries_optional reads_text rfl) <|
    .cons (carries_optional reads_text rfl) <|
    .cons (carries_optional reads_text rfl) <|
    .cons (carries_optional reads_int64 rfl) <|
    .cons (carries_optional reads_bool rfl) <|
    .cons (carries_optional reads_int64 rfl) .nil

theorem FileNode.lossless : FileNode.message.Lossless Message.maxDepth where
  wellTagged := by decide
  carried _ :=
    .cons (carries_plain reads_int64 rfl) <|
    .cons (carries_plain reads_int64 rfl) <|
    .cons (carries_plain reads_text rfl) <|
    .cons (carries_plain reads_text rfl) <|
    .cons (carries_optional reads_int64 rfl) <|
    .cons (carries_optional reads_int64 rfl) <|
    .cons (carries_optional reads_int64 rfl) <|
    .cons (carries_optional reads_int64 rfl) <|
    .cons (carries_optional reads_int64 rfl) <|
    .cons (carries_plain reads_text rfl) <|
    .cons (carries_optional reads_text rfl) <|
    .cons (carries_plain reads_text rfl) <|
    .cons (carries_plain reads_int64 rfl) <|
    .cons (carries_dict reads_int32 ⟨fun _ _ => rfl, fun _ => rfl, fun _ _ _ => rfl⟩ rfl) .nil

theorem DependencyNode.lossless : DependencyNode.message.Lossless Message.maxDepth where
  wellTagged := by decide
  carried _ :=
    .cons (carries_plain reads_text rfl) <|
    .cons (carries_optional reads_text rfl) <|
    .cons (carries_optional reads_text rfl) <|
    .cons (carries_optional reads_text rfl) <|
    .cons (carries_optional reads_text rfl) <|
    .cons (carries_packed (fun v => v.toInt64.toUInt64.toNat_lt) toInt32_toUInt64_toInt64
      rfl rfl) .nil

theorem ComponentNode.lossless : ComponentNode.message.Lossless Message.maxDepth where
  wellTagged := by decide
  carried _ :=
    .cons (carries_plain reads_text rfl) <|
    .cons (carries_plain reads_text rfl) <|
    .cons (carries_plain reads_text rfl) <|
    .cons (carries_optional reads_text rfl) .nil

theorem AnnotationNode.lossless : AnnotationNode.message.Lossless Message.maxDepth where
  wellTagged := by decide
  carried _ := .cons (carries_plain reads_text rfl) <| .cons (carries_plain reads_text rfl) .nil

theorem ContainerNode.lossless : ContainerNode.message.Lossless Message.maxDepth where
  wellTagged := by decide
  carried _ :=
    .cons (carries_plain reads_text rfl) <|
    .cons (carries_plain reads_text rfl) <|
    .cons (carries_plain reads_text rfl) <|
    .cons (carries_repeated reads_text ⟨fun _ _ => rfl, fun _ => rfl, fun _ _ _ => rfl⟩ rfl) <|
    .cons (carries_plain reads_text rfl) <|
    .cons (carries_message (Timestamp.lossless 99) rfl rfl) <|
    .cons (carries_plain reads_text rfl) <|
    .cons (carries_repeated reads_text ⟨fun _ _ => rfl, fun _ => rfl, fun _ _ _ => rfl⟩ rfl) <|
    .cons (carries_repeated reads_text ⟨fun _ _ => rfl, fun _ => rfl, fun _ _ _ => rfl⟩ rfl) .nil

theorem ContainerLayerNode.lossless : ContainerLayerNode.message.Lossless Message.maxDepth where
  wellTagged := by decide
  carried _ :=
    .cons (carries_plain reads_text rfl) <|
    .cons (carries_plain reads_text rfl) <|
    .cons (carries_plain reads_int64 rfl) <|
    .cons (carries_optional reads_text rfl) <|
    .cons (carries_message (Timestamp.lossless 99) rfl rfl) <|
    .cons (carries_optional reads_text rfl) .nil

theorem BdbaFileNode.lossless : BdbaFileNode.message.Lossless Message.maxDepth where
  wellTagged := by decide
  carried _ :=
    .cons (carries_plain reads_text rfl) <|
    .cons (carries_plain reads_text rfl) <|
    .cons (carries_plain reads_int64 rfl) <|
    .cons (carries_message (Timestamp.lossless 99) rfl rfl) <|
    .cons (carries_optional reads_text rfl) <|
    .cons (carries_dict reads_text ⟨fun _ _ => rfl, fun _ => rfl, fun _ _ _ => rfl⟩ rfl) .nil

theorem Envelope.lossless : Envelope.message.Lossless Message.maxDepth where
  wellTagged := by decide
  carried _ := .cons (carries_plain reads_text rfl) <| .cons (carries_plain reads_blob rfl) .nil

end ScanArchive
