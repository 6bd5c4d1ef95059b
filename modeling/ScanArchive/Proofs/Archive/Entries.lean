import Mathlib
import ScanArchive.Archive.Contents
import ScanArchive.Proofs.Framing.Accepted

/-!
# Entries that are read

Reading a whole archive decodes its entries one by one, and asks that exactly one of them holds a
header: `readAll_eq_ok_iff`.
-/

namespace ScanArchive

/-! ## 1. What an entry holds -/

namespace DecodedEntry

def header? (d : DecodedEntry) : Option VersionedHeader :=
  match d.contents with
  | .header h => some ⟨d.version, h⟩
  | .chunk _ => none

def chunk? (d : DecodedEntry) : Option Chunk :=
  match d.contents with
  | .header _ => none
  | .chunk c => some c

variable {d : DecodedEntry}

theorem header?_eq_some_iff {v : VersionedHeader} :
    d.header? = some v ↔ d.version = v.version ∧ d.contents = .header v.header := by
  cases v
  cases hd : d.contents <;> simp [header?, hd]

theorem chunk?_eq_some_iff {c : Chunk} : d.chunk? = some c ↔ d.contents = .chunk c := by
  cases hd : d.contents <;> simp [chunk?, hd]

end DecodedEntry

/-! ## 2. Single entries -/

open Framing

def Framing.readContents (type : EntryType) (version : Int16) : Reading EntryContents :=
  match type with
  | .header => .header <$> readHeaderBody version
  | .chunk => .chunk <$> readChunkBody version

section

variable {version : Int16} {body : Bytes}

theorem Framing.gives_readContents_header {result : Except Error (Header × Bytes)}
    (h : Gives (readHeaderBody version) body result) :
    Gives (readContents .header version) body
      (result.map fun found => (.header found.1, found.2)) :=
  h.map EntryContents.header

theorem Framing.gives_readContents_chunk {result : Except Error (Chunk × Bytes)}
    (h : Gives (readChunkBody version) body result) :
    Gives (readContents .chunk version) body
      (result.map fun found => (.chunk found.1, found.2)) :=
  h.map EntryContents.chunk

end

namespace Entry

theorem decode_eq (e : Entry) : e.decode = (readPrefix (.ofBytes e.data)).bind fun found =>
    (readContents found.1.1 found.1.2 found.2).map fun contents =>
      { name := e.name, size := e.data.length, version := found.1.2, contents := contents.1 } := by
  simp only [decode, bind, Except.bind]
  cases readPrefix (.ofBytes e.data) with
  | error fault => rfl
  | ok found =>
    obtain ⟨⟨type, version⟩, s⟩ := found
    cases type with
    | header =>
      simp only [readContents, ← bind_pure_comp, bind, StateT.bind, Except.bind]
      cases readHeaderBody version s <;> rfl
    | chunk =>
      simp only [readContents, ← bind_pure_comp, bind, StateT.bind, Except.bind]
      cases readChunkBody version s <;> rfl

theorem decode_of_gives {type : EntryType} {version : Int16} {body : Bytes}
    {result : Except Error (EntryContents × Bytes)}
    (h : Gives (readContents type version) body result) (name : String) :
    (⟨name, encodePrefix type version ++ body⟩ : Entry).decode
      = result.map fun found =>
          { name, size := (encodePrefix type version ++ body).length, version,
            contents := found.1 } := by
  obtain ⟨s, hlead, hs⟩ := gives_readPrefix type version body _ (ByteStream.holds_ofBytes _)
  rw [decode_eq, hlead]
  show Except.map _ (readContents type version s) = _
  cases result with
  | error fault =>
    rw [show readContents type version s = .error fault from h s hs]
    rfl
  | ok found =>
    obtain ⟨s', hread, -⟩ := h s hs
    rw [hread]
    rfl

theorem of_decode_eq_ok {e : Entry} {d : DecodedEntry} (h : e.decode = .ok d) :
    d.name = e.name ∧ ∃ body s s', e.data = encodePrefix d.type d.version ++ body ∧ s.Holds body ∧
      readContents d.type d.version s = .ok (d.contents, s') := by
  rw [decode_eq] at h
  cases hlead : readPrefix (.ofBytes e.data) with
  | error fault => rw [hlead] at h; cases h
  | ok found =>
    obtain ⟨⟨type, version⟩, s⟩ := found
    obtain ⟨body, hdata, hs⟩ := of_readPrefix_eq_ok (ByteStream.holds_ofBytes _) hlead
    rw [hlead] at h
    change Except.map _ (readContents type version s) = _ at h
    cases hread : readContents type version s with
    | error fault => rw [hread] at h; cases h
    | ok found =>
      obtain ⟨contents, s'⟩ := found
      rw [hread] at h
      cases h
      -- what was read is of the type that the prefix names
      cases type with
      | header =>
        obtain ⟨header, -, rfl⟩ := map_eq_ok_iff.1 hread
        exact ⟨rfl, body, s, s', hdata, hs, hread⟩
      | chunk =>
        obtain ⟨chunk, -, rfl⟩ := map_eq_ok_iff.1 hread
        exact ⟨rfl, body, s, s', hdata, hs, hread⟩

theorem isHeader_ofBytes_of_lt {bytes : Bytes} (h : bytes.length < 2) :
    isHeader (.ofBytes bytes) = .error (.framing .truncatedType) := by
  have hread : Gives isHeader bytes _ := (gives_readInt16_of_lt .truncatedType h).bind_error
  exact hread _ (ByteStream.holds_ofBytes bytes)

theorem encodeInt16_eq_zeros_iff {v : Int16} :
    encodeInt16 v = [0, 0] ↔ v = EntryType.header.code := by
  constructor
  · intro h
    rw [← decodeInt16_encodeInt16 v, h]
    rfl
  · rintro rfl
    rfl

/-- An entry is marked as a header by two zero bytes in front. -/
theorem markedHeader?_eq (e : Entry) :
    e.markedHeader? = if e.data.take 2 = [0, 0] then
        some ((readVersionedHeader false (.ofBytes (e.data.drop 2))).map (·.1))
      else none := by
  by_cases hlong : 2 ≤ e.data.length
  · obtain ⟨code, hdata⟩ := exists_encodeInt16 hlong
    have hfront : e.data.take 2 = encodeInt16 code := by
      rw [hdata, List.take_left' (length_encodeInt16 code)]
    obtain ⟨s, hmark, hs⟩ :=
      gives_isHeader code (e.data.drop 2) _ (ByteStream.holds_ofBytes _)
    rw [← hdata] at hmark
    rw [markedHeader?, hmark, hfront]
    simp only [encodeInt16_eq_zeros_iff]
    by_cases hcode : code = EntryType.header.code
    · rw [if_pos hcode, decide_eq_true hcode]
      show some _ = some _
      rw [(robust_readVersionedHeader false).steady.value_eq hs (ByteStream.holds_ofBytes _)]
    · rw [if_neg hcode, decide_eq_false hcode]
  · have hfront : e.data.take 2 ≠ [0, 0] := by
      intro h
      have hlength := congrArg List.length h
      rw [List.length_take, List.length_cons, List.length_singleton] at hlength
      omega
    rw [if_neg hfront, markedHeader?, isHeader_ofBytes_of_lt (by omega)]

theorem markedHeader?_of_gives {version : Int16} {body : Bytes}
    {result : Except Error (Header × Bytes)} (h : Gives (readHeaderBody version) body result)
    (name : String) :
    (⟨name, encodePrefix .header version ++ body⟩ : Entry).markedHeader?
      = some (result.map fun found => ⟨version, found.1⟩) := by
  have hfront : (encodePrefix .header version ++ body).take 2 = [0, 0] := rfl
  have hread := (gives_readVersionedHeader h false).value (ByteStream.holds_ofBytes _)
  rw [markedHeader?_eq, if_pos hfront]
  show some (Except.map _ (readVersionedHeader false (.ofBytes
    (unreadType false .header ++ (encodeInt16 version ++ body))))) = _
  rw [hread]
  cases result <;> rfl

theorem markedHeader?_of_decode_eq_ok {e : Entry} {d : DecodedEntry} (h : e.decode = .ok d) :
    e.markedHeader? = d.header?.map .ok := by
  obtain ⟨-, body, s, s', hdata, hs, hread⟩ := of_decode_eq_ok h
  cases hcontents : d.contents with
  | header header =>
    have htype : d.type = .header := by rw [DecodedEntry.type, hcontents]
    rw [htype] at hdata hread
    rw [hcontents] at hread
    obtain ⟨header', hbody, heq⟩ := map_eq_ok_iff.1 hread
    cases heq
    obtain ⟨left, hgives⟩ := (robust_readHeaderBody d.version).steady.gives_of_eq_ok hs hbody
    have hfound := markedHeader?_of_gives hgives e.name
    rw [← hdata] at hfound
    rw [DecodedEntry.header?, hcontents]
    exact hfound
  | chunk chunk =>
    have htype : d.type = .chunk := by rw [DecodedEntry.type, hcontents]
    rw [htype] at hdata
    have hfront : e.data.take 2 = [0, 1] := by rw [hdata]; rfl
    rw [markedHeader?_eq, hfront, if_neg (by decide), DecodedEntry.header?, hcontents]
    rfl

end Entry

theorem Source.findHeader_cons_of_marked {e : Entry} (h : e.data.take 2 = [0, 0])
    (rest : Source) : findHeader (.ok e :: rest)
      = ((readVersionedHeader false (.ofBytes (e.data.drop 2))).map (·.1), rest) := by
  have hmark := e.markedHeader?_eq
  rw [if_pos h] at hmark
  simp only [findHeader, hmark]

theorem Source.findHeader_cons_of_not_marked {e : Entry} (h : ¬ e.data.take 2 = [0, 0])
    (rest : Source) : findHeader (.ok e :: rest) = findHeader rest := by
  have hmark := e.markedHeader?_eq
  rw [if_neg h] at hmark
  simp only [findHeader, hmark]

/-! ## 3. All entries -/

abbrev Entry.Decodes (e : Entry) (d : DecodedEntry) : Prop := e.decode = .ok d

theorem exists_decodes_cons {entry : Entry} {entries : List Entry} {d : DecodedEntry}
    (h : entry.Decodes d) {p : List DecodedEntry → Prop} :
    (∃ decoded, List.Forall₂ Entry.Decodes (entry :: entries) decoded ∧ p decoded) ↔
      ∃ rest, List.Forall₂ Entry.Decodes entries rest ∧ p (d :: rest) := by
  constructor
  · rintro ⟨_, hall, hp⟩
    obtain ⟨d', rest, hd', hrest, rfl⟩ := List.forall₂_cons_left_iff.1 hall
    obtain rfl : d = d' := Except.ok.inj (h.symm.trans hd')
    exact ⟨rest, hrest, hp⟩
  · rintro ⟨rest, hrest, hp⟩
    exact ⟨d :: rest, .cons h hrest, hp⟩

theorem exists_decodes_of_mem {entries : List Entry} {decoded : List DecodedEntry}
    (h : List.Forall₂ Entry.Decodes entries decoded) {d : DecodedEntry} (hd : d ∈ decoded) :
    ∃ e ∈ entries, e.Decodes d := by
  induction h with
  | nil => cases hd
  | cons hfirst _ ih =>
    rcases List.mem_cons.1 hd with rfl | hd
    · exact ⟨_, List.mem_cons_self, hfirst⟩
    · obtain ⟨e, he, hdecodes⟩ := ih hd
      exact ⟨e, List.mem_cons_of_mem _ he, hdecodes⟩

theorem names_of_decodes {entries : List Entry} {decoded : List DecodedEntry}
    (h : List.Forall₂ Entry.Decodes entries decoded) :
    decoded.map (·.name) = entries.map (·.name) := by
  induction h with
  | nil => rfl
  | cons hd _ ih => rw [List.map_cons, List.map_cons, (Entry.of_decode_eq_ok hd).1, ih]

namespace Source

theorem readRest_eq_ok_iff {entries : List Entry} {found? : Option VersionedHeader}
    {chunks : List Chunk} {contents : Contents} :
    readRest (.ofEntries entries) found? chunks = .ok contents ↔
      ∃ decoded, List.Forall₂ Entry.Decodes entries decoded ∧
        found?.toList ++ decoded.filterMap (·.header?) = [⟨contents.version, contents.header⟩] ∧
        contents.chunks = chunks.reverse ++ decoded.filterMap (·.chunk?) := by
  -- over the entries that are left, for any header and chunks found before them
  induction entries generalizing found? chunks with
  | nil =>
    simp only [List.forall₂_nil_left_iff, exists_eq_left, List.filterMap_nil, List.append_nil]
    cases found? with
    | none => simp [ofEntries, readRest]
    | some found =>
      obtain ⟨version, header⟩ := found
      obtain ⟨version', header', chunks'⟩ := contents
      simp [ofEntries, readRest, eq_comm, and_assoc]
  | cons entry entries ih =>
    show readRest (.ok entry :: Source.ofEntries entries) found? chunks = _ ↔ _
    cases hdecode : entry.decode with
    | error e => simp [readRest, hdecode, List.forall₂_cons_left_iff]
    | ok d =>
      rw [exists_decodes_cons hdecode]
      cases hcontents : d.contents with
      | chunk c =>
        have hheader : d.header? = none := by rw [DecodedEntry.header?, hcontents]
        have hchunk : d.chunk? = some c := by rw [DecodedEntry.chunk?, hcontents]
        simp only [readRest, hdecode, hcontents, ih, List.filterMap_cons, hheader, hchunk,
          List.reverse_cons, List.append_assoc, List.singleton_append]
      | header h =>
        have hheader : d.header? = some ⟨d.version, h⟩ := by rw [DecodedEntry.header?, hcontents]
        have hchunk : d.chunk? = none := by rw [DecodedEntry.chunk?, hcontents]
        cases found? with
        | none =>
          simp only [readRest, hdecode, hcontents, ih, List.filterMap_cons, hheader, hchunk,
            Option.toList_none, Option.toList_some, List.singleton_append, List.nil_append]
        | some found =>
          -- a second header is refused, and two headers are not one
          simp [readRest, hdecode, hcontents, List.filterMap_cons, hheader]

/-- Reading all asks that every entry is decoded and that one of them holds a header. -/
theorem readAll_eq_ok_iff {entries : List Entry} {contents : Contents} :
    readAll (.ofEntries entries) = .ok contents ↔
      ∃ decoded, List.Forall₂ Entry.Decodes entries decoded ∧
        decoded.filterMap (·.header?) = [⟨contents.version, contents.header⟩] ∧
        decoded.filterMap (·.chunk?) = contents.chunks := by
  rw [readAll, readRest_eq_ok_iff]
  simp only [Option.toList_none, List.nil_append, List.reverse_nil, eq_comm]

theorem length_chunks_of_readAll {entries : List Entry} {contents : Contents}
    (h : readAll (.ofEntries entries) = .ok contents) :
    contents.chunks.length + 1 = entries.length := by
  obtain ⟨decoded, hdecoded, hheaders, hchunks⟩ := readAll_eq_ok_iff.1 h
  have hparts : ∀ ds : List DecodedEntry,
      (ds.filterMap (·.header?)).length + (ds.filterMap (·.chunk?)).length = ds.length := by
    intro ds
    induction ds with
    | nil => rfl
    | cons d ds ih =>
      cases hd : d.contents <;>
        simp [DecodedEntry.header?, DecodedEntry.chunk?, hd] at ih ⊢ <;> omega
  have hlength := hparts decoded
  rw [hheaders, hchunks, List.length_singleton] at hlength
  rw [hdecoded.length_eq]
  omega

end Source
end ScanArchive
