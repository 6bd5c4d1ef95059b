import ScanArchive.Container.Basic
import ScanArchive.Proofs.Archive.EntrySize
import ScanArchive.Proofs.Archive.Twin

/-!
# Reading containers back

A container that is written with a short header has no entry that is longer than what is read, and
neither opening it nor reading any of its entries fails for such a length.
-/

namespace ScanArchive

/-! ## 1. Names -/

namespace Layout

theorem isPlain_headerName : ZipSink.IsPlain headerName := by
  have hascii : ∀ c ∈ headerName.toList, c.toNat ≠ 0 ∧ c.toNat < 128 :=
    List.all_iff_forall_prop.1 (by decide)
  have hplain := ZipSink.isPlain_ofList (show headerName.toList.length ≤ Zip.maxCount by decide)
    (show 5 ≤ headerName.toList.length by decide) hascii
  rwa [String.ofList_toList] at hplain

theorem toList_chunkName (index : Nat) :
    (chunkName index).toList = "bdio-entry-".toList
      ++ ((if index < 10 then "0" else "").toList ++ (Nat.toDigits 10 index ++ ".pb".toList)) := by
  simp only [chunkName, String.toList_append, Nat.toString_eq_ofList_toDigits, String.toList_ofList,
    List.append_assoc]

theorem mem_chunkName {index : Nat} {c : Char} (hc : c ∈ (chunkName index).toList) :
    c ∈ "bdio-entry.p".toList ∨ '0'.toNat ≤ c.toNat ∧ c.toNat ≤ '9'.toNat := by
  have hfront : ∀ c ∈ "bdio-entry-".toList, c ∈ "bdio-entry.p".toList :=
    List.all_iff_forall_prop.1 (by decide)
  have hback : ∀ c ∈ ".pb".toList, c ∈ "bdio-entry.p".toList :=
    List.all_iff_forall_prop.1 (by decide)
  rw [toList_chunkName] at hc
  simp only [List.mem_append] at hc
  rcases hc with hc | hc | hc | hc
  · exact .inl (hfront c hc)
  · split at hc
    · rw [List.mem_singleton.1 hc]
      exact .inr (by decide)
    · cases hc
  · exact .inr (Char.isDigit_iff_toNat.1
      (Nat.isDigit_of_mem_toDigits (by decide) (by decide) hc))
  · exact .inl (hback c hc)

theorem ascii_chunkName (index : Nat) :
    ∀ c ∈ (chunkName index).toList, c.toNat ≠ 0 ∧ c.toNat < 128 := by
  have hletters : ∀ c ∈ "bdio-entry.p".toList, c.toNat ≠ 0 ∧ c.toNat < 128 :=
    List.all_iff_forall_prop.1 (by decide)
  intro c hc
  rcases mem_chunkName hc with hletter | hdigit
  · exact hletters c hletter
  · have hnine : '9'.toNat = 57 := rfl
    have hnought : '0'.toNat = 48 := rfl
    omega

theorem length_chunkName {index : Nat} (h : index < UInt64.size) :
    14 ≤ (chunkName index).toList.length ∧ (chunkName index).toList.length ≤ 35 := by
  have hdigits : (Nat.toDigits 10 index).length ≤ 20 :=
    (Nat.length_toDigits_le_iff (by decide) (by decide)).2 (h.trans (by decide))
  have hzero : (if index < 10 then "0" else "").toList.length ≤ 1 := by
    split <;> decide
  have hfront : "bdio-entry-".toList.length = 11 := by decide
  have hback : ".pb".toList.length = 3 := by decide
  have hlength := congrArg List.length (toList_chunkName index)
  simp only [List.length_append] at hlength
  omega

theorem isPlain_chunkName {index : Nat} (h : index < UInt64.size) :
    ZipSink.IsPlain (chunkName index) := by
  obtain ⟨hlong, hshort⟩ := length_chunkName h
  have hplain := ZipSink.isPlain_ofList (hshort.trans (by decide)) (by omega)
    (ascii_chunkName index)
  rwa [String.ofList_toList] at hplain

end Layout

theorem Provider.isPlain_archive (p : Provider) (h : Header) {blocks : List (List Node)}
    (hcount : (p.archive h blocks).length ≤ UInt64.size) :
    ∀ e ∈ p.archive h blocks, ZipSink.IsPlain e.name := by
  rw [length_archive] at hcount
  rw [archive, List.forall_mem_cons]
  refine ⟨Layout.isPlain_headerName, fun e he => ?_⟩
  obtain ⟨i, hi, rfl⟩ := List.mem_mapIdx.1 he
  exact Layout.isPlain_chunkName (by omega)

/-! ## 2. Runs over containers -/

theorem Writer.doneHeaders_nodes (w : Writer MemorySink) (nodes : List Node) :
    w.doneHeaders (nodes.map .node) = [] := by
  induction nodes generalizing w with
  | nil => rfl
  | cons n nodes ih =>
    rw [List.map_cons, doneHeaders_cons, ih]
    rfl

theorem Request.acceptedHeaders_eq {w w' : Writer MemorySink} {h : Header}
    (hheader : Writer.writeHeader h w = (.ok (), w')) (nodes : List Node) :
    acceptedHeaders w [.header h, .nodes nodes] = [h] := by
  have hok : (Writer.writeHeader h w).1 = .ok () := congrArg Prod.fst hheader
  show w.doneHeaders (.header h :: ((tried _ nodes).map .node ++ [])) = [h]
  rw [List.append_nil, Writer.doneHeaders_cons, Writer.doneHeaders_nodes, Write.doneHeader,
    if_pos hok]
  rfl

namespace Writer

variable {config : WriterConfig} {w₀ w₁ w₂ : Writer ContainerSink} {h : Header}
  {nodes : List Node}

theorem ofSink_of_create (hcreate : create config = .ok w₀) :
    ofSink (ContainerSink.ofFormat config.container) config = .ok w₀ := by
  unfold create at hcreate
  cases hvalid : config.validate with
  | error e => rw [hvalid] at hcreate; cases hcreate
  | ok _ => rw [hvalid] at hcreate; exact hcreate

/-- What a container has is the archive of a run over a sink in memory. -/
theorem kept_container (hcreate : create config = .ok w₀)
    (hheader : writeHeader h w₀ = (.ok (), w₁)) (hnodes : writeNodes nodes w₁ = (.ok (), w₂)) :
    ∃ (all : List OpenEntry) (blocks : List (List Node)),
      ContainerSink.Kept config.container w₂.sink all ∧
      (all.map (·.toEntry)).reverse = w₀.provider.archive h blocks ∧
      ∀ block ∈ blocks, w₀.provider.encoding.charge block < Layout.maxChunkSize := by
  have hkeeps := ContainerSink.keeps config.container
  have hopen := ofSink_of_create hcreate
  obtain ⟨v₀, hopen', ht₀⟩ := Twin.of_ofSink (ContainerSink.kept_ofFormat config.container) hopen
  obtain ⟨v₁, hheader', ht₁⟩ := ht₀.writeHeader hkeeps hheader
  obtain ⟨v₂, hnodes', ht₂⟩ := Twin.writeNodes hkeeps ht₁ hnodes
  -- the twin is the end of a run
  obtain ⟨t, hd, ht, -, -, hheaders, hc⟩ :=
    Request.exists_tidy hopen' [.header h, .nodes nodes]
  have hrun : Request.run v₀ [.header h, .nodes nodes] = v₂ := by
    show (writeNodes nodes (writeHeader h v₀).2).2 = v₂
    rw [hheader', hnodes']
  rw [hrun] at hd ht hc
  rw [Request.acceptedHeaders_eq hheader'] at hheaders
  have hsome : t.header = some h := by
    cases hheader : t.header with
    | none => rw [hheader] at hheaders; cases hheaders
    | some h' => rw [hheader] at hheaders; rw [(List.cons.inj hheaders).1]
  have hprovider : v₂.provider = w₀.provider := by
    rw [hc.provider, ht₀.eq]
  have hlimit := (config.maxChunkSize_of_validate (New.of_ofSink hopen').valid).2
  refine ⟨v₂.sink.written, t.blocks, ht₂.kept, ?_, fun block hblock => ?_⟩
  · rw [← hprovider]
    exact hd.entries_eq_archive ht.sound ht.torn hsome
  · rw [← hprovider]
    exact (ht.charge_lt hopen' hc hblock).trans_le hlimit

theorem eq_of_failsWith_container (hcreate : create config = .ok w₀)
    (hheader : writeHeader h w₀ = (.ok (), w₁)) (hnodes : writeNodes nodes w₁ = (.ok (), w₂))
    {file : Bytes} (hclose : w₂.close = .ok file) (hfile : file.length < UInt64.size)
    (hshort : (w₀.provider.encoding.encodeHeader h).length ≤ Layout.maxChunkSize) {e : Error}
    (he : Source.FailsWith (config.container.source Layout.maxEntrySize file) e) :
    ∃ reason, e = .archive (.other reason) := by
  obtain ⟨all, blocks, hkept, hentries, hblocks⟩ := kept_container hcreate hheader hnodes
  have hfinish : Sink.finish w₂.sink = .ok file := by
    unfold close at hclose
    split at hclose
    · exact hclose
    · cases hclose
  -- there are no more entries than bytes, so all of them have plain names
  have hcount := ContainerSink.length_le_of_finish hkept hfinish
  have hlength : (w₀.provider.archive h blocks).length = all.length := by
    rw [← hentries, List.length_reverse, List.length_map]
  have hentry : ∀ e ∈ all, e.toEntry ∈ w₀.provider.archive h blocks := fun e he => by
    rw [← hentries, List.mem_reverse]
    exact List.mem_map_of_mem he
  refine ContainerSink.eq_of_failsWith_source hkept hfinish hfile (fun e he => ?_)
    (fun e he => ?_) he
  · exact (w₀.provider.archive_le_iff hblocks).2 hshort _ (hentry e he)
  · exact w₀.provider.isPlain_archive h (by omega) _ (hentry e he)

end Writer

open Request in
/--
The entries of a run are short enough exactly when the header that was accepted is.  Then neither
opening a container that was closed nor reading it fails for the length of an entry.  A file must
be short enough to have a length, as every file is that fits into memory.
-/
theorem short_header_reads_back (config : WriterConfig) :
    (∀ (w : Writer MemorySink) (requests : List Request),
      Writer.ofSink ({} : MemorySink) config = .ok w →
        ((∀ e ∈ (run w requests).sink.entries, e.data.length ≤ Layout.maxEntrySize) ↔
          ∀ h ∈ acceptedHeaders w requests,
            (w.provider.encoding.encodeHeader h).length ≤ Layout.maxChunkSize)) ∧
    (∀ (w₀ w₁ w₂ : Writer ContainerSink) (h : Header) (nodes : List Node) (file : Bytes),
      Writer.create config = .ok w₀ →
      Writer.writeHeader h w₀ = (.ok (), w₁) →
      Writer.writeNodes nodes w₁ = (.ok (), w₂) →
      w₂.close = .ok file →
      file.length < UInt64.size →
      (w₀.provider.encoding.encodeHeader h).length ≤ Layout.maxChunkSize →
        ∀ e, Source.FailsWith (config.container.source Layout.maxEntrySize file) e →
          ¬ ∃ name limit, e = .archive (.entryTooLarge name limit)) := by
  constructor
  · intro w requests hopen
    exact entries_le_iff hopen requests
  · intro w₀ w₁ w₂ h nodes file hcreate hheader hnodes hclose hfile hshort e he
    obtain ⟨reason, rfl⟩ :=
      Writer.eq_of_failsWith_container hcreate hheader hnodes hclose hfile hshort he
    rintro ⟨name, limit, hlarge⟩
    cases hlarge

open Request in
theorem remarks_read_back :
    ∃ (w₀ w₁ w₂ : Writer ContainerSink) (file : Bytes),
      Writer.create { maxChunkSize := 200 } = .ok w₀ ∧
      Writer.writeHeader { id := "abc" } w₀ = (.ok (), w₁) ∧
      Writer.writeNodes [.remark "a", .remark "b", .remark "c"] w₁ = (.ok (), w₂) ∧
      w₂.close = .ok file ∧
      (∀ e ∈ (run .narrow [.header { id := "abc" },
        .nodes [.remark "a", .remark "b", .remark "c"]]).sink.entries,
          e.data.length ≤ Layout.maxEntrySize) ∧
      ∀ e, Source.FailsWith (ContainerFormat.zip.source Layout.maxEntrySize file) e →
        ¬ ∃ name limit, e = .archive (.entryTooLarge name limit) := by
  let w₀ : Writer ContainerSink :=
    { sink := .ofFormat .zip, provider := ⟨Layout.version2, .enveloped⟩, budget := .ofSize 200 }
  have hheader : (Writer.writeHeader { id := "abc" } w₀).1 = .ok () := by cbv
  have hnodes : (Writer.writeNodes [.remark "a", .remark "b", .remark "c"]
      (Writer.writeHeader { id := "abc" } w₀).2).1 = .ok () := by cbv
  -- the file is laid out and its bytes are counted
  have hfile : (Writer.writeNodes [.remark "a", .remark "b", .remark "c"]
      (Writer.writeHeader { id := "abc" } w₀).2).2.close.toOption.any
        (fun file => decide (file.length < UInt64.size)) = true := by decide +kernel
  cases hclose : (Writer.writeNodes [.remark "a", .remark "b", .remark "c"]
      (Writer.writeHeader { id := "abc" } w₀).2).2.close with
  | error e => rw [hclose] at hfile; cases hfile
  | ok file =>
    rw [hclose] at hfile
    have hshort : (Encoding.enveloped.encodeHeader { id := "abc" }).length
        ≤ Layout.maxChunkSize := by
      cbv
    have haccepted : acceptedHeaders .narrow [.header { id := "abc" },
        .nodes [.remark "a", .remark "b", .remark "c"]] = [{ id := "abc" }] := by cbv
    obtain ⟨hentries, hread⟩ := short_header_reads_back { maxChunkSize := 200 }
    refine ⟨w₀, _, _, file, rfl, Prod.ext hheader rfl, Prod.ext hnodes rfl, hclose, ?_, ?_⟩
    · refine (hentries .narrow _ Writer.ofSink_narrow).2 ?_
      rw [haccepted]
      exact List.forall_mem_singleton.2 hshort
    · exact hread w₀ _ _ _ _ file rfl (Prod.ext hheader rfl) (Prod.ext hnodes rfl) hclose
        (of_decide_eq_true hfile) hshort

end ScanArchive
