import ScanArchive.Proofs.Archive.Rollover
import ScanArchive.Proofs.Bytes

/-!
# Sizes of entries

The budget keeps chunk entries as short as readers want them, but no writer looks at the length
of a header.  So the entries of a run are all short enough exactly when its header is.
-/

namespace ScanArchive

/-! ## 1. Single entries -/

namespace Provider

variable (p : Provider)

theorem length_headerEntry (h : Header) :
    (p.headerEntry h).data.length = Layout.prefixLength + (p.encoding.encodeHeader h).length := by
  rw [headerEntry, List.length_append, Framing.length_encodePrefix]

theorem length_chunkEntry (index : Nat) (nodes : List Node) :
    (p.chunkEntry index nodes).data.length
      = Layout.prefixLength + (p.encoding.messages nodes).length := by
  rw [chunkEntry, List.length_append, Framing.length_encodePrefix]

theorem length_chunkEntry_le {nodes : List Node}
    (hnodes : p.encoding.charge nodes < Layout.maxChunkSize) (index : Nat) :
    (p.chunkEntry index nodes).data.length ≤ Layout.maxEntrySize := by
  have hsmall : Layout.maxChunkSize < 0x10000000 := by decide
  have hmessages := Encoding.length_messages_le (hnodes.trans hsmall)
  rw [length_chunkEntry, Layout.maxEntrySize]
  omega

/-- An archive of chunks that keep to the limit is short enough exactly when its header is. -/
theorem archive_le_iff {h : Header} {blocks : List (List Node)}
    (hblocks : ∀ block ∈ blocks, p.encoding.charge block < Layout.maxChunkSize) :
    (∀ e ∈ p.archive h blocks, e.data.length ≤ Layout.maxEntrySize) ↔
      (p.encoding.encodeHeader h).length ≤ Layout.maxChunkSize := by
  have hheader : (p.headerEntry h).data.length ≤ Layout.maxEntrySize ↔
      (p.encoding.encodeHeader h).length ≤ Layout.maxChunkSize := by
    rw [length_headerEntry, Layout.maxEntrySize]
    omega
  rw [archive, List.forall_mem_cons, hheader]
  refine and_iff_left fun e he => ?_
  obtain ⟨i, hi, rfl⟩ := List.mem_mapIdx.1 he
  exact p.length_chunkEntry_le (hblocks _ (List.getElem_mem hi)) i

end Provider

/-! ## 2. Entries of a run -/

open Request in
theorem Request.entries_le_iff {config : WriterConfig} {w : Writer MemorySink}
    (hopen : Writer.ofSink ({} : MemorySink) config = .ok w) (requests : List Request) :
    (∀ e ∈ (run w requests).sink.entries, e.data.length ≤ Layout.maxEntrySize) ↔
      ∀ h ∈ acceptedHeaders w requests,
        (w.provider.encoding.encodeHeader h).length ≤ Layout.maxChunkSize := by
  have hnew := Writer.New.of_ofSink hopen
  obtain ⟨-, hlimit⟩ := config.maxChunkSize_of_validate hnew.valid
  obtain ⟨t, hd, ht, -, -, hheaders, hc⟩ := exists_tidy hopen requests
  rw [← hheaders, ← hc.provider]
  cases hheader : t.header with
  | none =>
    rw [hd.entries_eq_nil ht.torn hheader]
    exact iff_of_true (fun _ he => nomatch he) fun _ hh => nomatch hh
  | some h =>
    rw [hd.entries_eq_archive ht.sound ht.torn hheader, Option.toList_some,
      List.forall_mem_singleton]
    exact (run w requests).provider.archive_le_iff fun block hblock =>
      (ht.charge_lt hopen hc hblock).trans_le hlimit

/-! ## 3. Headers that are too long -/

theorem Header.length_id_lt {h : Header} (hid : h.id ≠ "") :
    (Bytes.ofText h.id).length < (Header.message.encode h).length := by
  have hdelimited : (Bytes.ofText h.id).length
      < (Wire.delimited (Bytes.ofText h.id)).length := by
    rw [Wire.length_delimited]
    unfold Wire.delimitedSize Wire.Varint.size
    omega
  have hwritten := Wire.Field.length_write_le .text 1 h.id
  have hfield : (if h.id = "" then [] else Wire.Field.writeScalar .text 1 h.id).length
      ≤ (Header.message.encode h).length := by
    rw [Wire.Message.encode, Header.message, List.flatMap_cons, List.length_append]
    exact Nat.le_add_right _ _
  rw [if_neg hid] at hfield
  exact (hdelimited.trans_le hwritten).trans_le hfield

theorem Encoding.length_id_lt (encoding : Encoding) {h : Header} (hid : h.id ≠ "") :
    (Bytes.ofText h.id).length < (encoding.encodeHeader h).length := by
  cases encoding with
  | bare => exact Header.length_id_lt hid
  | enveloped => exact (Header.length_id_lt hid).trans_le (Envelope.length_value_le (.ofHeader h))

/-- A header with an id that takes as much as a chunk may. -/
def Header.oversized : Header := { id := String.ofList (List.replicate Layout.maxChunkSize 'a') }

theorem Header.maxChunkSize_lt_oversized (encoding : Encoding) :
    Layout.maxChunkSize < (encoding.encodeHeader oversized).length := by
  have hid := Bytes.length_le_length_ofText (List.replicate Layout.maxChunkSize 'a')
  rw [List.length_replicate] at hid
  refine hid.trans_lt (encoding.length_id_lt (h := oversized) fun hnil => ?_)
  rw [show oversized.id = String.ofList (List.replicate Layout.maxChunkSize 'a') from rfl] at hnil
  rw [hnil] at hid
  exact absurd hid (by decide)

theorem Header.validate_oversized : oversized.validate = .ok () := by
  have hblank : Text.isBlank oversized.id = false := by
    rw [Text.isBlank, oversized, String.toList_ofList,
      show Layout.maxChunkSize = Nat.succ (Layout.maxChunkSize - 1) from rfl, List.replicate_succ]
    rfl
  have hmet : (Requirement.nonBlank "id" oversized.id).met = true := by
    rw [Requirement.nonBlank, hblank]
    rfl
  rw [validate, Requirement.check, requirements, List.find?_cons_of_neg (by rw [hmet]; decide)]
  rfl

/-- A header that no reader takes is accepted. -/
theorem oversized_header_accepted :
    ∃ (w₀ w₁ : Writer MemorySink) (entries : List Entry),
      Writer.ofSink ({} : MemorySink) {} = .ok w₀ ∧
      Writer.writeHeader .oversized w₀ = (.ok (), w₁) ∧
      w₁.close = .ok entries ∧
      ∃ e ∈ entries, Layout.maxEntrySize < e.data.length := by
  obtain ⟨w₀, w₁, w₂, t, hopen, hheader, hnodes, -, hf, hd, ht, hheaded, -⟩ :=
    exists_written (show WriterConfig.validate {} = .ok () by decide)
      (p := ⟨Layout.version2, .enveloped⟩) (by decide) Header.validate_oversized
      (List.forall_mem_nil _)
  obtain rfl : w₁ = w₂ := congrArg Prod.snd hnodes
  have hclose := Writer.close_of_headed (by rw [hd.headed, hheaded]; rfl) (hf _)
  refine ⟨w₀, w₁, w₁.sink.entries, hopen, hheader, hclose, ?_⟩
  rw [hd.entries_eq_archive ht.sound ht.torn hheaded]
  refine ⟨_, List.mem_cons_self, ?_⟩
  rw [Provider.length_headerEntry, Layout.maxEntrySize]
  have hlong := Header.maxChunkSize_lt_oversized w₁.provider.encoding
  omega

end ScanArchive
