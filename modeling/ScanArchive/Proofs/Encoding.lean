import ScanArchive.Proofs.Node.Lossless

/-!
# Entries hold what was put into them

A header or node that is read from its encoding is the one that was encoded, bare as well as in
an envelope, and no message that stands for a valid node is empty.
-/

namespace ScanArchive

open Wire

/-! ## 1. The types that envelopes name -/

theorem Schema.typeName_append {host name : String} (h : '/' ∉ name.toList) :
    typeName (host ++ "/" ++ name) = name := by
  have hname : ∀ c ∈ name.toList.reverse, (c != '/') = true := fun c hc =>
    bne_iff_ne.2 fun heq => h (heq ▸ List.mem_reverse.1 hc)
  rw [typeName, String.toList_append, String.toList_append, List.reverse_append,
    List.reverse_append, List.takeWhile_append_of_pos hname,
    show "/".toList.reverse = ['/'] from rfl, List.singleton_append,
    List.takeWhile_cons_of_neg (by decide), List.append_nil, List.reverse_reverse,
    String.ofList_toList]

theorem Schema.slash_notMem_fullName {name : String} (h : '/' ∉ name.toList) :
    '/' ∉ (fullName name).toList := by
  have hpackage : '/' ∉ packageName.toList := by decide
  have hdot : '/' ∉ ".".toList := by decide
  rw [fullName, String.toList_append, String.toList_append, List.mem_append, List.mem_append]
  rintro ((hslash | hslash) | hslash)
  · exact hpackage hslash
  · exact hdot hslash
  · exact h hslash

theorem Schema.typeName_typeUrl {name : String} (h : '/' ∉ name.toList) :
    typeName (typeUrl name) = fullName name := typeName_append (slash_notMem_fullName h)

namespace NodeKind

theorem slash_notMem_messageName (kind : NodeKind) : '/' ∉ kind.messageName.toList := by
  cases kind <;> decide

theorem typeUrl_ne_empty (kind : NodeKind) : kind.typeUrl ≠ "" := by
  cases kind <;> decide

theorem fullName_injective {a b : NodeKind} (h : a.fullName = b.fullName) : a = b := by
  revert h
  cases a <;> cases b <;> decide

/-- Among any kinds, the first of a name is the kind of that name. -/
theorem find?_fullName {kinds : List NodeKind} {kind : NodeKind} (h : kind ∈ kinds) :
    kinds.find? (·.fullName = kind.fullName) = some kind := by
  induction kinds with
  | nil => cases h
  | cons k kinds ih =>
    by_cases hk : k.fullName = kind.fullName
    · rw [List.find?_cons_of_pos (by simpa using hk), fullName_injective hk]
    · rw [List.find?_cons_of_neg (by simpa using hk)]
      refine ih ((List.mem_cons.1 h).resolve_left fun heq => hk ?_)
      rw [heq]

end NodeKind

/-! ## 2. Nodes and envelopes -/

theorem Wire.Message.encode_ne_nil {σ : Type} {m : Message σ} {field : Field σ} {s : σ}
    (hf : field ∈ m.fields) (hw : field.write s ≠ []) : m.encode s ≠ [] :=
  fun h => hw (List.flatMap_eq_nil_iff.1 h field hf)

theorem Wire.Field.write_plain_ne_nil {σ α : Type} [DecidableEq α] {scalar : Scalar α}
    {name : String} {tag : Nat} {get : σ → α} {put : σ → α → σ} {s : σ}
    (h : get s ≠ scalar.zero) : (plain scalar name tag get put).write s ≠ [] := by
  show (if get s = scalar.zero then [] else writeScalar scalar tag (get s)) ≠ []
  rw [if_neg h, writeScalar, Key.encode]
  exact fun hnil => Varint.encode_ne_nil _ (List.append_eq_nil_iff.1 hnil).1

theorem Requirement.met_of_check {message : String} {requirements : List Requirement}
    (h : check message requirements = .ok ()) (r : Requirement) (hr : r ∈ requirements) :
    r.met = true := by
  rw [check] at h
  split at h
  · cases h
  · rename_i hnone
    simpa using List.find?_eq_none.1 hnone r hr

theorem Node.decode_encode {n : Node} (h : n.encode.length < UInt64.size) :
    n.kind.decode n.encode = .ok n := by
  cases n with
  | file n => exact congrArg (Except.map Node.file) (FileNode.lossless.decode_encode h)
  | dependency n =>
    exact congrArg (Except.map Node.dependency) (DependencyNode.lossless.decode_encode h)
  | component n =>
    exact congrArg (Except.map Node.component) (ComponentNode.lossless.decode_encode h)
  | annotation n =>
    exact congrArg (Except.map Node.annotation) (AnnotationNode.lossless.decode_encode h)
  | container n =>
    exact congrArg (Except.map Node.container) (ContainerNode.lossless.decode_encode h)
  | containerLayer n =>
    exact congrArg (Except.map Node.containerLayer) (ContainerLayerNode.lossless.decode_encode h)
  | bdbaFile n => exact congrArg (Except.map Node.bdbaFile) (BdbaFileNode.lossless.decode_encode h)

namespace Envelope

theorem length_value_le (e : Envelope) : e.value.length ≤ (message.encode e).length := by
  show _ ≤ ((_ : Bytes) ++ ((if e.value = [] then [] else Field.writeScalar .blob 2 e.value)
    ++ [])).length
  have hdelimited := length_le_length_delimited e.value
  have hwritten := Field.length_write_le .blob 2 e.value
  change (delimited e.value).length ≤ _ at hwritten
  split
  · simp [*]
  · simp only [List.length_append, List.length_nil]
    omega

theorem node_ofNode {n : Node} {kinds : List NodeKind} (hkind : n.kind ∈ kinds)
    (hsize : n.encode.length < UInt64.size) : (ofNode n).node kinds = .ok n := by
  have hname : (ofNode n).typeName = n.kind.fullName :=
    Schema.typeName_typeUrl n.kind.slash_notMem_messageName
  rw [node, hname, NodeKind.find?_fullName hkind]
  show (n.kind.decode n.encode).mapError _ = _
  rw [Node.decode_encode hsize]
  rfl

theorem header_ofHeader {h : Header} (hsize : (Header.message.encode h).length < UInt64.size) :
    (ofHeader h).header = .ok h := by
  have hname : (ofHeader h).typeName = Schema.fullName Header.messageName :=
    Schema.typeName_typeUrl (by decide)
  have hslash : (ofHeader h).typeUrl.toList.contains '/' = true := by
    show (Schema.typeUrl Header.messageName).toList.contains '/' = true
    decide
  rw [header, if_neg (fun hne => hne hname), if_pos hslash]
  show (Header.message.decode (Header.message.encode h)).mapError _ = _
  rw [Header.lossless.decode_encode hsize]
  rfl

end Envelope

/-! ## 3. Encodings -/

namespace Encoding

variable {encoding : Encoding} {n : Node} {h : Header}

theorem mapError_ok_bind {ε α β : Type} (f : ε → Error) (a : α) (g : α → Except Error β) :
    ((.ok a : Except ε α).mapError f >>= g) = g a := rfl

theorem kind_mem_of_validate (hn : encoding.validate n = .ok ()) : n.kind ∈ encoding.kinds := by
  rw [validate] at hn
  split at hn
  · assumption
  · cases hn

theorem mem_kinds_enveloped (kind : NodeKind) : kind ∈ kinds .enveloped := by
  cases kind <;> decide

theorem decodeHeader_encodeHeader (hsize : (encoding.encodeHeader h).length < UInt64.size) :
    encoding.decodeHeader (encoding.encodeHeader h) = .ok h := by
  cases encoding with
  | bare =>
    show (Header.message.decode (Header.message.encode h)).mapError _ = _
    rw [Header.lossless.decode_encode hsize]
    rfl
  | enveloped =>
    -- the envelope is read first, then what it holds
    have hinner : (Header.message.encode h).length < UInt64.size :=
      Nat.lt_of_le_of_lt (Envelope.length_value_le (.ofHeader h)) hsize
    rw [decodeHeader, encodeHeader, Envelope.lossless.decode_encode hsize, mapError_ok_bind]
    exact Envelope.header_ofHeader hinner

theorem decodeNode_nodeBody (hkind : n.kind ∈ encoding.kinds)
    (hsize : (encoding.nodeBody n).length < UInt64.size) :
    encoding.decodeNode (encoding.nodeBody n) = .ok n := by
  cases encoding with
  | bare =>
    have hkind : n.kind = .file := List.mem_singleton.1 hkind
    show (NodeKind.decode .file n.encode).mapError _ = _
    rw [← hkind, Node.decode_encode hsize]
    rfl
  | enveloped =>
    have hinner : n.encode.length < UInt64.size :=
      Nat.lt_of_le_of_lt (Envelope.length_value_le (.ofNode n)) hsize
    rw [decodeNode, nodeBody, Envelope.lossless.decode_encode hsize, mapError_ok_bind]
    exact Envelope.node_ofNode hkind hinner

theorem nodeBody_ne_nil (hn : encoding.validate n = .ok ()) : encoding.nodeBody n ≠ [] := by
  have hkind := kind_mem_of_validate hn
  cases encoding with
  | bare =>
    cases n with
    | file f =>
      rw [validate, if_pos hkind] at hn
      have hname : f.name ≠ "" := by
        have hmet := Requirement.met_of_check hn (.nonEmpty "name" f.name) List.mem_cons_self
        simpa [Requirement.nonEmpty] using hmet
      -- the name is written, since it is not the default
      show FileNode.message.encode f ≠ []
      exact Message.encode_ne_nil (.tail _ (.tail _ (.head _))) (Field.write_plain_ne_nil hname)
    | _ => cases List.mem_singleton.1 hkind
  | enveloped =>
    -- an envelope names the type of what it holds
    show Envelope.message.encode (.ofNode n) ≠ []
    exact Message.encode_ne_nil (.head _) (Field.write_plain_ne_nil n.kind.typeUrl_ne_empty)

end Encoding
end ScanArchive
