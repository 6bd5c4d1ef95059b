import ScanArchive.Proofs.Archive.Layout

/-!
# Ways to read an archive

The header can be searched for, entries can be read one after another, and all can be read at
once: `readings_agree`.
-/

namespace ScanArchive.Source

open Framing

/-! ## 1. One entry after another -/

/-- What successive reads give, up to the first that finds no further entry; none of them fails. -/
inductive Yields : Source → List DecodedEntry → Prop
  | done {source rest : Source} (h : source.nextDecoded = (.ok none, rest)) : Yields source []
  | read {source rest : Source} {d : DecodedEntry} {decoded : List DecodedEntry}
      (h : source.nextDecoded = (.ok (some d), rest)) (hrest : Yields rest decoded) :
      Yields source (d :: decoded)

theorem yields_ofEntries_iff {entries : List Entry} {decoded : List DecodedEntry} :
    Yields (.ofEntries entries) decoded ↔ List.Forall₂ Entry.Decodes entries decoded := by
  induction entries generalizing decoded with
  | nil =>
    rw [List.forall₂_nil_left_iff]
    constructor
    · intro h
      cases h with
      | done h => rfl
      | read h _ => cases h
    · rintro rfl
      exact .done rfl
  | cons entry entries ih =>
    -- a read takes one entry off, and fails exactly if that entry is not decoded
    have hnext : nextDecoded (.ofEntries (entry :: entries))
        = (entry.decode.map some, .ofEntries entries) := rfl
    rw [List.forall₂_cons_left_iff]
    constructor
    · intro h
      cases h with
      | done h =>
        rw [hnext] at h
        cases hdecode : entry.decode <;> rw [hdecode] at h <;> cases h
      | read h hrest =>
        rw [hnext] at h
        cases hdecode : entry.decode with
        | error e => rw [hdecode] at h; cases h
        | ok d =>
          rw [hdecode] at h
          cases h
          exact ⟨_, _, hdecode, ih.1 hrest, rfl⟩
    · rintro ⟨d, rest, hd, hrest, rfl⟩
      refine .read ?_ (ih.2 hrest)
      rw [hnext, show entry.decode = .ok d from hd]
      rfl

/-! ## 2. The header that is found -/

/-- Entries without the mark of a header are passed over, the first one with it counts. -/
theorem findHeader_ofEntries (entries : List Entry) :
    (findHeader (.ofEntries entries)).1
      = match entries.find? (fun e => e.data.take 2 = [0, 0]) with
        | none => .error .headerNotPresent
        | some e => (readVersionedHeader false (.ofBytes (e.data.drop 2))).map (·.1) := by
  induction entries with
  | nil => rfl
  | cons entry entries ih =>
    show (findHeader (.ok entry :: Source.ofEntries entries)).1 = _
    rw [List.find?_cons]
    by_cases hfront : entry.data.take 2 = [0, 0]
    · rw [findHeader_cons_of_marked hfront, decide_eq_true hfront]
    · rw [findHeader_cons_of_not_marked hfront, decide_eq_false hfront]
      exact ih

theorem findHeader_of_decodes {entries : List Entry} {decoded : List DecodedEntry}
    (h : List.Forall₂ Entry.Decodes entries decoded) {v : VersionedHeader}
    {others : List VersionedHeader} (hheaders : decoded.filterMap (·.header?) = v :: others) :
    (findHeader (.ofEntries entries)).1 = .ok v := by
  induction h with
  | nil => cases hheaders
  | @cons entry d entries decoded hd hrest ih =>
    have hmark := Entry.markedHeader?_of_decode_eq_ok hd
    show (findHeader (.ok entry :: Source.ofEntries entries)).1 = _
    rw [findHeader]
    cases hheader : d.header? with
    | none =>
      rw [List.filterMap_cons_none hheader] at hheaders
      rw [hmark, hheader]
      exact ih hheaders
    | some found =>
      rw [List.filterMap_cons_some hheader] at hheaders
      rw [hmark, hheader, (List.cons.inj hheaders).1]
      rfl

/-! ## 3. All three -/

/--
What is read at once is what is found and what is read one after another.  Reading all at once
succeeds when reading one after another does and meets one header, and fails when no header is
found.  The header is found in the first entry that is marked, whatever the others hold.
-/
theorem readings_agree (entries : List Entry) :
    (∀ c, readAll (.ofEntries entries) = .ok c →
      (findHeader (.ofEntries entries)).1 = .ok ⟨c.version, c.header⟩ ∧
      (readHeader (.ofEntries entries)).1 = .ok c.header ∧
      ∃ decoded, Yields (.ofEntries entries) decoded ∧
        decoded.map (·.name) = entries.map (·.name) ∧
        decoded.filterMap (·.header?) = [⟨c.version, c.header⟩] ∧
        decoded.filterMap (·.chunk?) = c.chunks) ∧
    (∀ decoded v, Yields (.ofEntries entries) decoded → decoded.filterMap (·.header?) = [v] →
      readAll (.ofEntries entries) = .ok
        { version := v.version, header := v.header, chunks := decoded.filterMap (·.chunk?) }) ∧
    ((findHeader (.ofEntries entries)).1 = .error .headerNotPresent →
      ∃ e, readAll (.ofEntries entries) = .error e) ∧
    (findHeader (.ofEntries entries)).1
      = match entries.find? (fun e => e.data.take 2 = [0, 0]) with
        | none => .error .headerNotPresent
        | some e => (readVersionedHeader false (.ofBytes (e.data.drop 2))).map (·.1) := by
  have hfound : ∀ c, readAll (.ofEntries entries) = .ok c →
      (findHeader (.ofEntries entries)).1 = .ok ⟨c.version, c.header⟩ := by
    intro c hread
    obtain ⟨decoded, hdecoded, hheaders, -⟩ := readAll_eq_ok_iff.1 hread
    exact findHeader_of_decodes hdecoded hheaders
  refine ⟨fun c hread => ?_, fun decoded v hyields hheaders => ?_, fun hnone => ?_,
    findHeader_ofEntries entries⟩
  · obtain ⟨decoded, hdecoded, hheaders, hchunks⟩ := readAll_eq_ok_iff.1 hread
    refine ⟨hfound c hread, ?_, decoded, yields_ofEntries_iff.2 hdecoded, ?_, hheaders, hchunks⟩
    · rw [readHeader, hfound c hread]
      rfl
    · exact names_of_decodes hdecoded
  · exact readAll_eq_ok_iff.2 ⟨decoded, yields_ofEntries_iff.1 hyields, hheaders, rfl⟩
  · cases hread : readAll (.ofEntries entries) with
    | error e => exact ⟨e, rfl⟩
    | ok c =>
      rw [hfound c hread] at hnone
      cases hnone

/-- A header is found behind an entry without a mark; where there is none, reading all fails. -/
theorem remarks_readings_agree :
    ∃ (entries : List Entry) (c : Contents) (decoded : List DecodedEntry),
      readAll (.ofEntries entries) = .ok c ∧
      c.nodes.toList.Perm [.remark "a", .remark "b"] ∧
      (findHeader (.ofEntries entries)).1 = .ok ⟨c.version, c.header⟩ ∧
      Yields (.ofEntries entries) decoded ∧
      decoded.filterMap (·.chunk?) = c.chunks ∧
      (findHeader (.ofEntries (⟨"readme", [1]⟩ :: entries))).1 = .ok ⟨c.version, c.header⟩ ∧
      ∃ e, readAll (.ofEntries [⟨"readme", [1]⟩]) = .error e := by
  obtain ⟨hall, -, -, hscan⟩ := readings_agree
    (Provider.archive ⟨Layout.version2, .enveloped⟩ { id := "abc" } [[.remark "a", .remark "b"]])
  obtain ⟨hfound, -, decoded, hyields, -, -, hchunks⟩ := hall _ readAll_remarks
  obtain ⟨-, -, -, hbehind⟩ := readings_agree (⟨"readme", [1]⟩ ::
    Provider.archive ⟨Layout.version2, .enveloped⟩ { id := "abc" } [[.remark "a", .remark "b"]])
  obtain ⟨-, -, hnone, hempty⟩ := readings_agree [⟨"readme", [1]⟩]
  refine ⟨_, _, decoded, readAll_remarks, Chunk.merge_ofList_perm [[.remark "a", .remark "b"]],
    hfound, hyields, hchunks, ?_, hnone hempty⟩
  rw [hbehind, List.find?_cons_of_neg (by decide), ← hscan, hfound]

end ScanArchive.Source
