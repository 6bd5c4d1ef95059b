import ScanArchive.Proofs.Archive.Agreement
import ScanArchive.Proofs.Archive.Faultless
import ScanArchive.Proofs.Archive.Rejection

/-!
# What is read can be archived again

Whatever bytes an archive consists of, what is read of it is valid, so that a writer takes all of
it but for nodes that are too large: `contents_renewable`.
-/

namespace ScanArchive

open Framing

/-! ## 1. What is read is valid -/

theorem Header.isBlank_of_validate {h : Header} (hvalid : h.validate = .ok ()) :
    Text.isBlank h.id = false := by
  have hmet := Requirement.met_of_check hvalid (.nonBlank "id" h.id) List.mem_cons_self
  simpa [Requirement.nonBlank] using hmet

theorem Encoding.validate_enveloped {encoding : Encoding} {n : Node}
    (hn : encoding.validate n = .ok ()) : Encoding.enveloped.validate n = .ok () := by
  rw [validate, if_pos (kind_mem_of_validate hn)] at hn
  rw [validate, if_pos (mem_kinds_enveloped n.kind)]
  exact hn

theorem DecodedEntry.validate_of_decodes {e : Entry} {d : DecodedEntry} (h : e.Decodes d) :
    (∀ v, d.header? = some v → v.header.validate = .ok ()) ∧
      ∀ chunk, d.chunk? = some chunk → ∀ n ∈ chunk, Encoding.enveloped.validate n = .ok () := by
  obtain ⟨-, body, s, s', -, -, hread⟩ := Entry.of_decode_eq_ok h
  constructor
  · intro v hv
    obtain ⟨-, hcontents⟩ := header?_eq_some_iff.1 hv
    have htype : d.type = .header := by rw [type, hcontents]
    rw [htype, hcontents] at hread
    obtain ⟨header, hbody, heq⟩ := map_eq_ok_iff.1 hread
    cases heq
    obtain ⟨-, -, hvalid⟩ := of_readHeaderBody_eq_ok hbody
    exact hvalid
  · intro chunk hchunk n hn
    have hcontents := chunk?_eq_some_iff.1 hchunk
    have htype : d.type = .chunk := by rw [type, hcontents]
    rw [htype, hcontents] at hread
    obtain ⟨chunk', hbody, heq⟩ := map_eq_ok_iff.1 hread
    cases heq
    obtain ⟨p, -, hvalid⟩ := of_readChunkBody_eq_ok hbody
    exact Encoding.validate_enveloped (hvalid n hn)

theorem Source.validate_of_readAll {entries : List Entry} {c : Contents}
    (hread : readAll (.ofEntries entries) = .ok c) :
    c.header.validate = .ok () ∧ ∀ n ∈ c.nodes, Encoding.enveloped.validate n = .ok () := by
  obtain ⟨decoded, hdecoded, hheaders, hchunks⟩ := readAll_eq_ok_iff.1 hread
  constructor
  · have hheader : ⟨c.version, c.header⟩ ∈ decoded.filterMap (·.header?) := by
      rw [hheaders]
      exact List.mem_singleton_self _
    obtain ⟨d, hd, hv⟩ := List.mem_filterMap.1 hheader
    obtain ⟨e, -, hdecodes⟩ := exists_decodes_of_mem hdecoded hd
    exact (DecodedEntry.validate_of_decodes hdecodes).1 _ hv
  · intro n hn
    obtain ⟨chunk, hchunk, hn⟩ := Chunk.mem_merge.1 hn
    rw [← hchunks] at hchunk
    obtain ⟨d, hd, hchunk⟩ := List.mem_filterMap.1 hchunk
    obtain ⟨e, -, hdecodes⟩ := exists_decodes_of_mem hdecoded hd
    exact (DecodedEntry.validate_of_decodes hdecodes).2 chunk hchunk n hn

theorem Source.validate_of_findHeader {entries : List Entry} {v : VersionedHeader}
    (hfound : (findHeader (.ofEntries entries)).1 = .ok v) : v.header.validate = .ok () := by
  rw [findHeader_ofEntries] at hfound
  split at hfound
  · cases hfound
  · rename_i e _
    cases hread : readVersionedHeader false (.ofBytes (e.data.drop 2)) with
    | error fault => rw [hread] at hfound; cases hfound
    | ok found =>
      rw [hread] at hfound
      cases hfound
      exact validate_of_readVersionedHeader hread

/-! ## 2. Writing it again -/

namespace Tidy

variable {t : Transcript} {w : Writer MemorySink}

theorem writeNode_result (hd : Describes t w) (hf : ∀ call, w.sink.failing call = false)
    (hheaded : w.headerWritten = true) {n : Node}
    (hvalid : w.provider.encoding.validate n = .ok ())
    (hshort : (w.provider.encoding.nodeBody n).length < UInt64.size) :
    (Writer.writeNode n w).1
      = if ((w.provider.encoding.nodeBody n).length + Layout.messageOverhead : Int)
          < w.budget.ceiling then .ok ()
        else .error (.messageTooLarge (w.provider.encoding.nodeBody n).length
          w.budget.ceiling.toNat) := by
  by_cases hfits : ((w.provider.encoding.nodeBody n).length + Layout.messageOverhead : Int)
      < w.budget.ceiling
  · rw [if_pos hfits]
    exact writeNode_eq_ok hd hf hheaded hvalid hfits
  · -- a node that does not fit into a new chunk does not fit into the open one
    have hroom : ¬ ((w.provider.encoding.nodeBody n).length + Layout.messageOverhead : Int)
        < w.budget.remaining := fun hroom => hfits (hroom.trans_le hd.budget.remaining_le)
    have hplace := ChunkBudget.place_eq hd.budget (w.provider.encoding.nodeBody n).length
    rw [if_neg hroom, if_neg hfits] at hplace
    rw [if_neg hfits, Writer.writeNode_apply, Writer.admission_of_valid hheaded hvalid,
      Writer.messageLength_delimited hshort]
    simp only [Except.bind, hplace, Except.map]

theorem results_nodes (hd : Describes t w) (hf : ∀ call, w.sink.failing call = false)
    (hheaded : w.headerWritten = true) {nodes : List Node}
    (hvalid : ∀ n ∈ nodes, w.provider.encoding.validate n = .ok ())
    (hshort : Short (nodes.map w.provider.encoding.nodeBody)) :
    Request.results w (nodes.map .node) = nodes.map fun n =>
      if ((w.provider.encoding.nodeBody n).length + Layout.messageOverhead : Int)
          < w.budget.ceiling then .ok ()
      else .error (.messageTooLarge (w.provider.encoding.nodeBody n).length
        w.budget.ceiling.toNat) := by
  -- the writer after the first node is described again, with the same limit
  induction nodes generalizing t w with
  | nil => rfl
  | cons n nodes ih =>
    obtain ⟨hfirst, hrest⟩ := List.forall_mem_cons.1 hvalid
    obtain ⟨hsize, hsizes⟩ := List.forall_mem_cons.1 hshort
    have hc := hd.continues_perform (.node n)
    have htail := ih (hd.perform (.node n)) (hc.failing ▸ hf) (hc.headerWritten hheaded)
      (by rw [hc.provider]; exact hrest) (by rw [hc.provider]; exact hsizes)
    rw [hc.provider, hc.ceiling] at htail
    rw [List.map_cons, List.map_cons, ← writeNode_result hd hf hheaded hfirst hsize]
    exact congrArg _ htail

end Tidy

theorem Request.run_nodes (w : Writer MemorySink) (nodes : List Node) :
    run w (nodes.map .node) = w.after (nodes.map .node) := by
  rw [run, Writer.after, List.foldl_map, List.foldl_map]
  rfl

theorem exists_readAll_run {w : Writer MemorySink} {h : Header} {nodes : List Node}
    (hd : Describes { header := some h } w) (ht : Tidy { header := some h } w)
    (hf : ∀ call, w.sink.failing call = false)
    (hp : Registry.builtin.provider w.provider.version = .ok w.provider)
    (hsize : (w.provider.encoding.encodeHeader h).length < UInt64.size)
    (hnodes : ∀ n ∈ nodes, w.provider.encoding.validate n = .ok () ∧
      ((w.provider.encoding.nodeBody n).length + Layout.messageOverhead : Int)
        < w.budget.ceiling) :
    ∃ entries c, (Request.run w (nodes.map .node)).close = .ok entries ∧
      Source.readAll (.ofEntries entries) = .ok c ∧ c.header = h ∧
      c.nodes.toList.Perm nodes.dedup := by
  obtain ⟨t, -, hprovider, hf', hd', ht', hheader, rfl⟩ := ht.exists_after_nodes hd hf hnodes
  rw [← hprovider] at hp hsize
  obtain ⟨hclose, hread⟩ := hd'.readAll_of_sound ht'.sound ht'.torn hheader hp hsize (hf' _)
  refine ⟨_, _, by rw [Request.run_nodes]; exact hclose, hread, rfl, ?_⟩
  rw [← Describes.flatten_blocks ht'.sound]
  exact Chunk.merge_ofList_perm t.blocks

/-! ## 3. Both -/

open Request in
/--
Every node of a chunk that is read keeps to the contract of the version that the bytes name, and
no header that is read has a blank id.  So of what is read of an archive, a writer takes the header
and every node, in any order, but for those that are too large; if there are none, the same is read
again.  The header and the nodes must be short enough to have a length, as all are that fit into
memory.
-/
theorem contents_renewable :
    (∀ (verifyType : Bool) (s s' : ByteStream) (bytes : Bytes) (c : Chunk), s.Holds bytes →
      readChunk verifyType s = .ok (c, s') →
        ∃ p body, Registry.builtin.provider p.version = .ok p ∧
          bytes = unreadType verifyType .chunk ++ (encodeInt16 p.version ++ body) ∧
          ∀ n ∈ c, p.encoding.validate n = .ok () ∧ p.supports n.kind = true) ∧
    (∀ (verifyType : Bool) (s s' : ByteStream) (h : Header),
      readHeader verifyType s = .ok (h, s') → Text.isBlank h.id = false) ∧
    (∀ (entries : List Entry) (v : VersionedHeader),
      (Source.findHeader (.ofEntries entries)).1 = .ok v → Text.isBlank v.header.id = false) ∧
    ∀ (entries : List Entry) (c : Contents) (config : WriterConfig) (nodes : List Node),
      Source.readAll (.ofEntries entries) = .ok c →
      config.validate = .ok () → config.version = Layout.version2 →
      nodes.Perm c.nodes.toList →
      (Encoding.enveloped.encodeHeader c.header).length < UInt64.size →
      Short (nodes.map Encoding.enveloped.nodeBody) →
        ∃ w₀ w₁ : Writer MemorySink,
          Writer.ofSink ({} : MemorySink) config = .ok w₀ ∧
          Writer.writeHeader c.header w₀ = (.ok (), w₁) ∧
          results w₁ (nodes.map .node) = (nodes.map fun n =>
            if (Encoding.enveloped.nodeBody n).length + Layout.messageOverhead
                < config.maxChunkSize then .ok ()
            else .error (.messageTooLarge (Encoding.enveloped.nodeBody n).length
              config.maxChunkSize)) ∧
          ((∀ result ∈ results w₁ (nodes.map .node), result = .ok ()) →
            ∃ entries' c', (run w₁ (nodes.map .node)).close = .ok entries' ∧
              Source.readAll (.ofEntries entries') = .ok c' ∧ c'.header = c.header ∧
              c'.nodes.toList.Perm c.nodes.toList) := by
  refine ⟨fun verifyType s s' bytes c hs hread => ?_, fun verifyType s s' h hread => ?_,
    fun entries v hfound => ?_, fun entries c config nodes hread hconfig hversion hperm hheader
      hshort => ?_⟩
  · obtain ⟨p, body, hp, hbytes, hvalid⟩ := of_readChunk_eq_ok hs hread
    exact ⟨p, body, hp, hbytes, fun n hn =>
      ⟨hvalid n hn, decide_eq_true (Encoding.kind_mem_of_validate (hvalid n hn))⟩⟩
  · obtain ⟨v, hv, rfl⟩ := map_eq_ok_iff.1 hread
    exact Header.isBlank_of_validate (validate_of_readVersionedHeader hv)
  · exact Header.isBlank_of_validate (Source.validate_of_findHeader hfound)
  · obtain ⟨hvalid, hnodes⟩ := Source.validate_of_readAll hread
    have hp : Registry.builtin.provider config.version = .ok ⟨Layout.version2, .enveloped⟩ := by
      rw [hversion]
      rfl
    obtain ⟨w₀, w₁, hopen, hwrite, hprovider, hceiling, hf, hd, ht⟩ :=
      exists_headed hconfig hp hvalid
    have hencoding : w₁.provider.encoding = .enveloped := congrArg Provider.encoding hprovider
    have hvalids : ∀ n ∈ nodes, Encoding.enveloped.validate n = .ok () := fun n hn =>
      hnodes n (hperm.mem_iff.1 hn)
    have hresults := Tidy.results_nodes hd hf hd.headed (hencoding ▸ hvalids) (hencoding ▸ hshort)
    rw [hencoding, hceiling, Int.toNat_natCast] at hresults
    norm_cast at hresults
    refine ⟨w₀, w₁, hopen, hwrite, hresults, fun hall => ?_⟩
    -- where nothing is refused, everything fits
    have hfits : ∀ n ∈ nodes, w₁.provider.encoding.validate n = .ok () ∧
        ((w₁.provider.encoding.nodeBody n).length + Layout.messageOverhead : Int)
          < w₁.budget.ceiling := by
      intro n hn
      rw [hencoding, hceiling]
      refine ⟨hvalids n hn, ?_⟩
      by_contra hlarge
      norm_cast at hlarge
      rw [hresults] at hall
      have hresult := hall _ (List.mem_map_of_mem hn)
      rw [if_neg hlarge] at hresult
      cases hresult
    have hregistered : Registry.builtin.provider w₁.provider.version = .ok w₁.provider := by
      rw [hprovider]
      rfl
    obtain ⟨entries', c', hclose, hagain, hsame, hmembers⟩ :=
      exists_readAll_run hd ht hf hregistered (hencoding ▸ hheader) hfits
    have hnodup : nodes.Nodup := hperm.nodup_iff.2 c.nodes.nodup
    rw [hnodup.dedup] at hmembers
    exact ⟨entries', c', hclose, hagain, hsame, hmembers.trans hperm⟩

open Request in
/-- Two remarks that are read are written in the other order, and read again. -/
theorem remarks_renewed :
    ∃ (entries : List Entry) (c : Contents) (w₀ w₁ : Writer MemorySink),
      Source.readAll (.ofEntries entries) = .ok c ∧
      c.nodes.toList.Perm [.remark "a", .remark "b"] ∧
      Writer.ofSink ({} : MemorySink) {} = .ok w₀ ∧
      Writer.writeHeader c.header w₀ = (.ok (), w₁) ∧
      results w₁ [.node (.remark "b"), .node (.remark "a")] = [.ok (), .ok ()] ∧
      ∃ entries' c', (run w₁ [.node (.remark "b"), .node (.remark "a")]).close = .ok entries' ∧
        Source.readAll (.ofEntries entries') = .ok c' ∧ c'.header = c.header ∧
        c'.nodes.toList.Perm c.nodes.toList := by
  have hsizes : (Encoding.enveloped.encodeHeader { id := "abc" }).length < UInt64.size ∧
      (Encoding.enveloped.nodeBody (.remark "b")).length + Layout.messageOverhead
        < Layout.maxChunkSize ∧
      (Encoding.enveloped.nodeBody (.remark "a")).length + Layout.messageOverhead
        < Layout.maxChunkSize := by cbv
  have hnodes : (Chunk.merge [Chunk.ofList [.remark "a", .remark "b"]]).toList.Perm
      [.remark "a", .remark "b"] := Chunk.merge_ofList_perm [[.remark "a", .remark "b"]]
  have hswapped : [Node.remark "b", .remark "a"].Perm
      (Chunk.merge [Chunk.ofList [.remark "a", .remark "b"]]).toList :=
    (List.Perm.swap _ _ []).trans hnodes.symm
  have hshort : Short ([Node.remark "b", .remark "a"].map Encoding.enveloped.nodeBody) := by
    have hread := short_of_readable readable_remarks
    exact fun body hbody => hread body (((List.Perm.swap _ _ []).map _).mem_iff.1 hbody)
  obtain ⟨-, -, -, hrenew⟩ := contents_renewable
  obtain ⟨w₀, w₁, hopen, hheader, hresults, hread⟩ := hrenew _ _ {} [.remark "b", .remark "a"]
    readAll_remarks (by decide) rfl hswapped hsizes.1 hshort
  have hok : results w₁ [.node (.remark "b"), .node (.remark "a")] = [.ok (), .ok ()] := by
    simp only [List.map_cons, List.map_nil] at hresults
    rw [if_pos hsizes.2.1, if_pos hsizes.2.2] at hresults
    exact hresults
  refine ⟨_, _, w₀, w₁, readAll_remarks, hnodes, hopen, hheader, hok, hread ?_⟩
  intro result hresult
  change result ∈ results w₁ [.node (.remark "b"), .node (.remark "a")] at hresult
  rw [hok] at hresult
  simpa using hresult

end ScanArchive
