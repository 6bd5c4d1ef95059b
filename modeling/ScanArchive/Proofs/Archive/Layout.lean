import Mathlib
import ScanArchive.Proofs.Archive.Entries

/-!
# The layout of an archive

An archive is a header entry followed by numbered chunk entries, and it is read back as laid
out: `readAll_archive`.  The names of its entries are pairwise distinct.
-/

namespace ScanArchive

/-! ## 1. Names of entries -/

namespace Layout

theorem chunkName_injective {i j : Nat} (h : chunkName i = chunkName j) : i = j := by
  -- a zero in front does not change the number that is spelled
  have hdigits : ∀ k : Nat,
      Nat.ofDigitChars 10 ((if k < 10 then "0" else "").toList ++ (toString k).toList) 0 = k := by
    intro k
    rw [Nat.toString_eq_ofList_toDigits, String.toList_ofList, Nat.ofDigitChars_append]
    split
    · exact Nat.ofDigitChars_ten_toDigits
    · exact Nat.ofDigitChars_ten_toDigits
  have hlist := congrArg String.toList h
  simp only [chunkName, String.toList_append, List.append_assoc] at hlist
  have hnumber := List.append_cancel_left hlist
  rw [← List.append_assoc, ← List.append_assoc] at hnumber
  have hnumber := List.append_cancel_right hnumber
  rw [← hdigits i, hnumber, hdigits j]

theorem chunkName_ne_headerName (i : Nat) : chunkName i ≠ headerName := by
  intro h
  have hlist := congrArg (fun name : String => name.toList.take 6) h
  have hchunk : (chunkName i).toList.take 6 = "bdio-e".toList := by
    simp only [chunkName, String.toList_append, List.append_assoc]
    rw [List.take_append_of_le_length (by decide)]
    decide
  have hheader : headerName.toList.take 6 = "bdio-h".toList := by decide
  rw [hchunk, hheader] at hlist
  exact absurd hlist (by decide)

end Layout

/-! ## 2. Entries -/

def Node.remark (text : String) : Node := Node.annotation { id := text, comment := text }

namespace Provider

def headerEntry (p : Provider) (h : Header) : Entry :=
  ⟨Layout.headerName, Framing.encodePrefix .header p.version ++ p.encoding.encodeHeader h⟩

def chunkEntry (p : Provider) (index : Nat) (nodes : List Node) : Entry :=
  ⟨Layout.chunkName index, Framing.encodePrefix .chunk p.version ++ p.encoding.messages nodes⟩

/-- A header entry, then a chunk entry for each block of nodes. -/
def archive (p : Provider) (h : Header) (blocks : List (List Node)) : List Entry :=
  p.headerEntry h :: blocks.mapIdx p.chunkEntry

variable {p : Provider} {h : Header} {blocks : List (List Node)}

theorem length_archive : (p.archive h blocks).length = blocks.length + 1 := by
  rw [archive, List.length_cons, List.length_mapIdx]

theorem nodup_names_archive (p : Provider) (h : Header) (blocks : List (List Node)) :
    ((p.archive h blocks).map (·.name)).Nodup := by
  have hnames : (p.archive h blocks).map (·.name)
      = Layout.headerName :: (List.range blocks.length).map Layout.chunkName := by
    rw [archive, List.map_cons]
    congr 1
    apply List.ext_getElem
    · simp
    · intro i _ _
      simp [chunkEntry]
  rw [hnames, List.nodup_cons]
  constructor
  · intro hmem
    obtain ⟨i, -, hi⟩ := List.mem_map.1 hmem
    exact Layout.chunkName_ne_headerName i hi
  · exact List.nodup_range.map fun _ _ => Layout.chunkName_injective

end Provider

/-! ## 3. Sets of nodes -/

namespace Chunk

variable {n : Node}

theorem mem_foldl_insert {c : Chunk} {nodes : List Node} :
    n ∈ nodes.foldl insert c ↔ n ∈ nodes ∨ n ∈ c := by
  induction nodes generalizing c with
  | nil => simp
  | cons m nodes ih => rw [List.foldl_cons, ih, mem_insert, List.mem_cons, or_left_comm, or_assoc]

theorem notMem_empty : n ∉ Chunk.empty := List.not_mem_nil

theorem mem_ofList {nodes : List Node} : n ∈ ofList nodes ↔ n ∈ nodes := by
  rw [ofList, mem_foldl_insert]
  exact or_iff_left notMem_empty

theorem mem_foldl_union {c : Chunk} {chunks : List Chunk} :
    n ∈ chunks.foldl union c ↔ (∃ chunk ∈ chunks, n ∈ chunk) ∨ n ∈ c := by
  induction chunks generalizing c with
  | nil => simp
  | cons chunk chunks ih =>
    have hunion : n ∈ c.union chunk ↔ n ∈ chunk ∨ n ∈ c := mem_foldl_insert
    rw [List.foldl_cons, ih, hunion, List.exists_mem_cons_iff, or_left_comm, or_assoc]

theorem mem_merge {chunks : List Chunk} : n ∈ merge chunks ↔ ∃ chunk ∈ chunks, n ∈ chunk := by
  rw [merge, mem_foldl_union]
  exact or_iff_left notMem_empty

theorem mem_merge_ofList {blocks : List (List Node)} {n : Node} :
    n ∈ merge (blocks.map ofList) ↔ ∃ block ∈ blocks, n ∈ block := by
  rw [mem_merge]
  simp only [List.mem_map, exists_exists_and_eq_and, mem_ofList]

theorem merge_ofList_perm (blocks : List (List Node)) :
    (merge (blocks.map ofList)).toList.Perm blocks.flatten.dedup := by
  refine (List.perm_ext_iff_of_nodup (merge _).nodup (List.nodup_dedup _)).2 fun n => ?_
  rw [List.mem_dedup, List.mem_flatten]
  exact mem_merge_ofList

end Chunk

/-! ## 4. Reading -/

open Framing

variable {p : Provider} {h : Header}

theorem Framing.gives_readHeaderBody_encodeHeader
    (hp : Registry.builtin.provider p.version = .ok p) (hvalid : h.validate = .ok ())
    (hsize : (p.encoding.encodeHeader h).length < UInt64.size) :
    Gives (readHeaderBody p.version) (p.encoding.encodeHeader h) (.ok (h, [])) := by
  have hbody := gives_readHeaderBody hp (p.encoding.encodeHeader h)
  rw [Encoding.decodeHeader_encodeHeader hsize] at hbody
  simpa only [Except.bind, hvalid, Except.mapError, Except.map] using hbody

theorem Entry.decode_headerEntry (hp : Registry.builtin.provider p.version = .ok p)
    (hvalid : h.validate = .ok ()) (hsize : (p.encoding.encodeHeader h).length < UInt64.size) :
    (p.headerEntry h).decode = .ok
      { name := Layout.headerName, size := (p.headerEntry h).data.length, version := p.version,
        contents := .header h } :=
  decode_of_gives (gives_readContents_header (gives_readHeaderBody_encodeHeader hp hvalid hsize))
    Layout.headerName

theorem Entry.decode_chunkEntry (hp : Registry.builtin.provider p.version = .ok p) (index : Nat)
    {nodes : List Node} (hnodes : Readable p.encoding nodes) :
    (p.chunkEntry index nodes).decode = .ok
      { name := Layout.chunkName index, size := (p.chunkEntry index nodes).data.length,
        version := p.version, contents := .chunk (Chunk.ofList nodes) } :=
  decode_of_gives (gives_readContents_chunk (gives_readChunkBody hp hnodes))
    (Layout.chunkName index)

theorem exists_decodes_blocks {blocks : List (List Node)} {entry : Nat → List Node → Entry}
    (hentry : ∀ i, ∀ block ∈ blocks, ∃ d, (entry i block).Decodes d ∧
      d.contents = .chunk (Chunk.ofList block)) :
    ∃ decoded, List.Forall₂ Entry.Decodes (blocks.mapIdx entry) decoded ∧
      decoded.filterMap (·.header?) = [] ∧
      decoded.filterMap (·.chunk?) = blocks.map Chunk.ofList := by
  -- on the blocks that are left; the number of the first one is in `entry`
  induction blocks generalizing entry with
  | nil => exact ⟨[], .nil, rfl, rfl⟩
  | cons block blocks ih =>
    obtain ⟨d, hd, hcontents⟩ := hentry 0 block List.mem_cons_self
    obtain ⟨rest, hrest, hheaders, hchunks⟩ :=
      ih fun i b hb => hentry (i + 1) b (List.mem_cons_of_mem _ hb)
    refine ⟨d :: rest, ?_, ?_, ?_⟩
    · rw [List.mapIdx_cons]
      exact .cons hd hrest
    · simp only [List.filterMap_cons, DecodedEntry.header?, hcontents]
      exact hheaders
    · simp only [List.filterMap_cons, DecodedEntry.chunk?, hcontents, List.map_cons]
      exact congrArg _ hchunks

/-- An archive is read back as it is laid out. -/
theorem Source.readAll_archive (hp : Registry.builtin.provider p.version = .ok p)
    (hvalid : h.validate = .ok ()) (hsize : (p.encoding.encodeHeader h).length < UInt64.size)
    {blocks : List (List Node)} (hblocks : ∀ block ∈ blocks, Readable p.encoding block) :
    readAll (.ofEntries (p.archive h blocks))
      = .ok { version := p.version, header := h, chunks := blocks.map Chunk.ofList } := by
  obtain ⟨decoded, hdecoded, hheaders, hchunks⟩ := exists_decodes_blocks fun i block hblock =>
    ⟨_, Entry.decode_chunkEntry hp i (hblocks block hblock), rfl⟩
  refine readAll_eq_ok_iff.2 ⟨_, .cons (Entry.decode_headerEntry hp hvalid hsize) hdecoded, ?_, ?_⟩
  · simp only [List.filterMap_cons, DecodedEntry.header?]
    exact congrArg _ hheaders
  · simp only [List.filterMap_cons, DecodedEntry.chunk?]
    exact hchunks

theorem readable_remarks : Readable .enveloped [.remark "a", .remark "b"] := by
  have hremarks : (Encoding.enveloped.validate (.remark "a") = .ok () ∧
      (Encoding.enveloped.nodeBody (.remark "a")).length < UInt64.size) ∧
      Encoding.enveloped.validate (.remark "b") = .ok () ∧
      (Encoding.enveloped.nodeBody (.remark "b")).length < UInt64.size := by cbv
  exact List.forall_mem_cons.2 ⟨hremarks.1, List.forall_mem_singleton.2 hremarks.2⟩

theorem readAll_remarks :
    Source.readAll (.ofEntries (Provider.archive ⟨Layout.version2, .enveloped⟩ { id := "abc" }
        [[.remark "a", .remark "b"]]))
      = .ok { version := Layout.version2, header := { id := "abc" },
              chunks := [Chunk.ofList [.remark "a", .remark "b"]] } := by
  have hvalid : Header.validate { id := "abc" } = .ok () ∧
      (Encoding.enveloped.encodeHeader { id := "abc" }).length < UInt64.size := by cbv
  exact Source.readAll_archive (p := ⟨Layout.version2, .enveloped⟩) (by decide) hvalid.1 hvalid.2
    (List.forall_mem_singleton.2 readable_remarks)

end ScanArchive
