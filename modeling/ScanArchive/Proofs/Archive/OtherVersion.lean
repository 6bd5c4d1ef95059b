import ScanArchive.Proofs.Archive.Layout
import ScanArchive.Proofs.Wire.Foreign

/-!
# Entries under another version

Bare messages and envelopes share the numbers of their first two fields.  What one encoding writes
is never accepted by the other: `other_version_rejected`.
-/

namespace ScanArchive

open Wire Wire.Message Wire.Field

/-! ## 1. Messages and envelopes mistaken for one another -/

theorem Header.spelled : ∀ field ∈ Header.message.fields, field.Spelled := by
  simp [Header.message]

theorem FileNode.spelled : ∀ field ∈ FileNode.message.fields, field.Spelled := by
  simp [FileNode.message]

theorem Envelope.leads_flatMap_drop {σ : Type} {m : Message σ} (hm : m.WellTagged)
    (hspelled : ∀ field ∈ m.fields, field.Spelled)
    (htags : ∀ field ∈ m.fields.drop 2, 2 < field.tag) (p : Envelope → Prop) (s : σ) :
    Envelope.message.Leads maxDepth p ((m.fields.drop 2).flatMap (·.write s)) p := by
  refine leads_flatMap fun field hfield => ?_
  have hmem := List.mem_of_mem_drop hfield
  refine leads_write_of_unknown (hspelled field hmem) (hm.2 _ (List.mem_map_of_mem hmem)) ?_ s
  have htag := htags field hfield
  have hknown : ∀ known ∈ Envelope.message.fields, known.tag ≤ 2 := by decide
  intro known hmem
  have hle := hknown known hmem
  omega

/-- A header that is taken for an envelope gives its id as a type URL, and no value. -/
theorem Envelope.value_of_decode_header {h : Header} {e : Envelope}
    (hdecode : Envelope.message.decode (Header.message.encode h) = .ok e) : e.value = [] := by
  have hm : Envelope.message.WellTagged := by decide
  have hothers := Envelope.leads_flatMap_drop Header.lossless.wellTagged Header.spelled (by decide)
    (fun e => e.value = [] ∧ h.scanType = 0) h
  have hleads : Envelope.message.Leads maxDepth (fun e => e.value = []) (Header.message.encode h)
      fun e => e.value = [] ∧ h.scanType = 0 :=
    -- the id is read as a text, the type of the scan is no byte string
    (leads_plain_text hm (.head _) (fun _ _ ht => ht) h).append
      ((leads_plain_of_ne hm Scalar.spelled_int32 (.tail _ (.head _)) (by decide) h).append hothers)
  exact (hleads.of_decode rfl hdecode).1

theorem Envelope.eq_of_decode_fileNode {n : FileNode} {e : Envelope}
    (hdecode : Envelope.message.decode (FileNode.message.encode n) = .ok e) : e = {} := by
  have hm : Envelope.message.WellTagged := by decide
  have hothers := Envelope.leads_flatMap_drop FileNode.lossless.wellTagged FileNode.spelled
    (by decide) (fun e => (e = {} ∧ n.id = 0) ∧ n.parentId = 0) n
  have hleads : Envelope.message.Leads maxDepth (fun e => e = {}) (FileNode.message.encode n)
      fun e => (e = {} ∧ n.id = 0) ∧ n.parentId = 0 :=
    (leads_plain_of_ne hm Scalar.spelled_int64 (.head _) (by decide) n).append
      ((leads_plain_of_ne hm Scalar.spelled_int64 (.tail _ (.head _)) (by decide) n).append hothers)
  exact (hleads.of_decode rfl hdecode).1.1

theorem Header.value_of_decode_envelope {e : Envelope} {h : Header}
    (hdecode : Header.message.decode (Envelope.message.encode e) = .ok h) : e.value = [] := by
  have hm := Header.lossless.wellTagged
  have hleads : Header.message.Leads maxDepth (fun _ => True) (Envelope.message.encode e)
      fun _ => True ∧ e.value = [] :=
    (leads_plain_text hm (.head _) (fun _ _ ht => ht) e).append
      ((leads_plain_of_ne hm Scalar.spelled_blob (.tail _ (.head _)) (by decide) e).append
        (leads_nil _ _ _))
  exact (hleads.of_decode trivial hdecode).2

theorem FileNode.typeUrl_of_decode_envelope {e : Envelope} {n : FileNode}
    (hdecode : FileNode.message.decode (Envelope.message.encode e) = .ok n) : e.typeUrl = "" := by
  have hm := FileNode.lossless.wellTagged
  have hleads : FileNode.message.Leads maxDepth (fun _ => True) (Envelope.message.encode e)
      fun _ => (True ∧ e.typeUrl = "") ∧ e.value = [] :=
    (leads_plain_of_ne hm Scalar.spelled_text (.head _) (by decide) e).append
      ((leads_plain_of_ne hm Scalar.spelled_blob (.tail _ (.head _)) (by decide) e).append
        (leads_nil _ _ _))
  exact (hleads.of_decode trivial hdecode).1.2

/-! ## 2. Encodings mistaken for one another -/

theorem Header.encode_ne_nil {h : Header} (hvalid : h.validate = .ok ()) :
    Header.message.encode h ≠ [] := by
  have hid : h.id ≠ "" := by
    intro hempty
    have hmet := Requirement.met_of_check hvalid (.nonBlank "id" h.id) List.mem_cons_self
    rw [Requirement.nonBlank, hempty] at hmet
    cases hmet
  exact Message.encode_ne_nil (.head _) (Field.write_plain_ne_nil hid)

theorem Header.decode_nil : Header.message.decode [] = .ok {} :=
  decode_of_takes (takes_nil Header.message _ _)

namespace Encoding

variable {read written : Encoding}

theorem registered (encoding : Encoding) :
    Registry.builtin.provider encoding.version = .ok ⟨encoding.version, encoding⟩ := by
  cases encoding <;> rfl

/-- A header that comes out of the other encoding is blank. -/
theorem validate_of_decodeHeader_of_ne (hne : read ≠ written) {h h' : Header}
    (hvalid : h.validate = .ok ())
    (hdecode : read.decodeHeader (written.encodeHeader h) = .ok h') : h'.validate ≠ .ok () := by
  cases read with
  | bare =>
    obtain rfl : written = .enveloped := by cases written <;> simp_all
    change (Header.message.decode (Envelope.message.encode (.ofHeader h))).mapError _ = _ at hdecode
    cases hheader : Header.message.decode (Envelope.message.encode (.ofHeader h)) with
    | error e => rw [hheader] at hdecode; cases hdecode
    -- the value would be read as the type of the scan, a number
    | ok _ => exact absurd (Header.value_of_decode_envelope hheader) (Header.encode_ne_nil hvalid)
  | enveloped =>
    obtain rfl : written = .bare := by cases written <;> simp_all
    change ((Envelope.message.decode (Header.message.encode h)).mapError Error.decode >>= _) = _
      at hdecode
    cases henvelope : Envelope.message.decode (Header.message.encode h) with
    | error e => rw [henvelope] at hdecode; cases hdecode
    | ok e =>
      -- the id is read as the type, which may even be the right one, but there is no value
      rw [henvelope, mapError_ok_bind, Envelope.header,
        Envelope.value_of_decode_header henvelope, Header.decode_nil] at hdecode
      split at hdecode
      · cases hdecode
      · split at hdecode
        · cases hdecode
          decide
        · cases hdecode

theorem decodeNode_of_ne (hne : read ≠ written) {n : Node} (hn : written.validate n = .ok ()) :
    ∃ e, read.decodeNode (written.nodeBody n) = .error e := by
  cases read with
  | bare =>
    obtain rfl : written = .enveloped := by cases written <;> simp_all
    show ∃ e, ((FileNode.message.decode (Envelope.message.encode (.ofNode n))).map
      Node.file).mapError Error.decode = .error e
    cases hnode : FileNode.message.decode (Envelope.message.encode (.ofNode n)) with
    | error e => exact ⟨_, rfl⟩
    | ok _ =>
      exact absurd (FileNode.typeUrl_of_decode_envelope hnode) n.kind.typeUrl_ne_empty
  | enveloped =>
    obtain rfl : written = .bare := by cases written <;> simp_all
    have hkind : n.kind = .file := List.mem_singleton.1 (kind_mem_of_validate hn)
    cases n with
    | file f =>
      show ∃ e, ((Envelope.message.decode (FileNode.message.encode f)).mapError Error.decode
        >>= fun e => e.node (kinds .enveloped)) = .error e
      cases henvelope : Envelope.message.decode (FileNode.message.encode f) with
      | error e => exact ⟨_, rfl⟩
      | ok e =>
        -- ids other than zero are numbers, where an envelope has a text and a byte string
        rw [Envelope.eq_of_decode_fileNode henvelope]
        exact ⟨.unknownMessageType "", by decide⟩
    | _ => cases hkind

end Encoding

/-! ## 3. Entries -/

open Framing

variable {read written : Encoding}

theorem gives_readHeaderBody_of_ne (hne : read ≠ written) {h : Header}
    (hvalid : h.validate = .ok ()) :
    ∃ e, Gives (readHeaderBody read.version) (written.encodeHeader h) (.error e) := by
  have hbody := gives_readHeaderBody read.registered (written.encodeHeader h)
  cases hdecode : read.decodeHeader (written.encodeHeader h) with
  | error e =>
    rw [hdecode] at hbody
    exact ⟨e, hbody⟩
  | ok h' =>
    rw [hdecode] at hbody
    cases hcheck : h'.validate with
    | error e =>
      rw [Except.bind, hcheck] at hbody
      exact ⟨_, hbody⟩
    | ok _ => exact absurd hcheck (Encoding.validate_of_decodeHeader_of_ne hne hvalid hdecode)

/-- The first node of a chunk is already refused. -/
theorem gives_readChunkBody_of_ne (hne : read ≠ written) {nodes : List Node} (hnil : nodes ≠ [])
    (hvalid : ∀ n ∈ nodes, written.validate n = .ok ())
    (hshort : Short (nodes.map written.nodeBody)) :
    ∃ e, Gives (readChunkBody read.version) (written.messages nodes) (.error e) := by
  obtain ⟨n, rest, rfl⟩ := List.exists_cons_of_ne_nil hnil
  have hbody := gives_readChunkBody_bodies read.registered hshort
  obtain ⟨e, he⟩ := Encoding.decodeNode_of_ne hne (hvalid n List.mem_cons_self)
  have haccept : read.accept (written.nodeBody n) = .error e := by
    rw [Encoding.accept, he]
  rw [List.map_cons, List.mapM_cons, haccept, ← List.map_cons, List.flatMap_map] at hbody
  exact ⟨e, hbody⟩

/--
A header that is valid is refused under the version of the other encoding, and so is any chunk of
valid nodes, whatever their fields hold.  The messages of nodes must be short enough to have a
length, as all are that fit into memory.
-/
theorem other_version_rejected (hne : read ≠ written) :
    (∀ h : Header, h.validate = .ok () →
      (∀ (verifyType : Bool) (s : ByteStream),
        s.Holds (unreadType verifyType .header
          ++ (encodeInt16 read.version ++ written.encodeHeader h)) →
        ∃ e, readVersionedHeader verifyType s = .error e) ∧
      ∀ (name : String) (rest : Source), ∃ e,
        Source.nextDecoded
            (.ok ⟨name, encodePrefix .header read.version ++ written.encodeHeader h⟩ :: rest)
          = (.error e, rest)) ∧
    (∀ nodes : List Node, nodes ≠ [] → (∀ n ∈ nodes, written.validate n = .ok ()) →
      Short (nodes.map written.nodeBody) →
      (∀ (verifyType : Bool) (s : ByteStream),
        s.Holds (unreadType verifyType .chunk
          ++ (encodeInt16 read.version ++ written.messages nodes)) →
        ∃ e, readChunk verifyType s = .error e) ∧
      ∀ (name : String) (rest : Source), ∃ e,
        Source.nextDecoded
            (.ok ⟨name, encodePrefix .chunk read.version ++ written.messages nodes⟩ :: rest)
          = (.error e, rest)) := by
  constructor
  · intro h hvalid
    obtain ⟨e, hbody⟩ := gives_readHeaderBody_of_ne hne hvalid
    refine ⟨fun verifyType s hs => ⟨e, gives_readVersionedHeader hbody verifyType s hs⟩,
      fun name rest => ⟨e, ?_⟩⟩
    have hdecode := Entry.decode_of_gives (gives_readContents_header hbody) name
    simp only [Source.nextDecoded, Source.next, hdecode]
    rfl
  · intro nodes hnil hvalid hshort
    obtain ⟨e, hbody⟩ := gives_readChunkBody_of_ne hne hnil hvalid hshort
    refine ⟨fun verifyType s hs => ⟨e, gives_readChunk hbody verifyType s hs⟩,
      fun name rest => ⟨e, ?_⟩⟩
    have hdecode := Entry.decode_of_gives (gives_readContents_chunk hbody) name
    simp only [Source.nextDecoded, Source.next, hdecode]
    rfl

/-- An id that names the type of a header, and a file node whose ids are zero. -/
theorem type_url_id_rejected :
    ∃ (h : Header) (n : FileNode), h.id = Schema.typeUrl Header.messageName ∧
      h.scanType = 0 ∧ n.id = 0 ∧ n.parentId = 0 ∧
      h.validate = .ok () ∧ Encoding.bare.validate (.file n) = .ok () ∧
      (∃ e, readVersionedHeader true (.ofBytes (encodeInt16 EntryType.header.code
        ++ (encodeInt16 Layout.version2 ++ Encoding.bare.encodeHeader h))) = .error e) ∧
      ∃ e, readChunk true (.ofBytes (encodeInt16 EntryType.chunk.code
        ++ (encodeInt16 Layout.version2 ++ Encoding.bare.messages [.file n]))) = .error e := by
  have hvalid : Header.validate { id := Schema.typeUrl Header.messageName } = .ok () ∧
      Encoding.bare.validate
        (.file { name := "a", path := "/a", uri := "/a", fileSystemType := "dir" }) = .ok () ∧
      (Encoding.bare.nodeBody
        (.file { name := "a", path := "/a", uri := "/a", fileSystemType := "dir" })).length
          < UInt64.size := by decide +kernel
  obtain ⟨hheader, hchunk⟩ :=
    other_version_rejected (show Encoding.enveloped ≠ .bare from nofun)
  refine ⟨_, _, rfl, rfl, rfl, rfl, hvalid.1, hvalid.2.1, ?_, ?_⟩
  · exact (hheader _ hvalid.1).1 true _ (ByteStream.holds_ofBytes _)
  · exact (hchunk _ (List.cons_ne_nil _ _) (List.forall_mem_singleton.2 hvalid.2.1)
      (List.forall_mem_singleton.2 hvalid.2.2)).1 true _ (ByteStream.holds_ofBytes _)

end ScanArchive
