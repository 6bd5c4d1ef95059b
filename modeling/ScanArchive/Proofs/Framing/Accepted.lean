import ScanArchive.Proofs.Framing.Messages

/-!
# What readings accept

The other direction of reading what was written: from a reading that succeeds, the bytes that it
was given.  Main statements: `of_readChunk_eq_ok`, every node of a chunk that is read keeps to the
contract of the version that its bytes name, and `validate_of_readVersionedHeader` for headers.
-/

namespace ScanArchive.Framing

/-! ## 1. Types and versions -/

theorem encodeInt16_decodeInt16 (a b : UInt8) : encodeInt16 (decodeInt16 [a, b]) = [a, b] := by
  have ha := a.toNat_lt
  have hb := b.toNat_lt
  have hvalue : Bytes.bigEndian [a, b] = a.toNat * 256 + b.toNat := by simp [Bytes.bigEndian]
  have hword : (decodeInt16 [a, b]).toUInt16.toNat = a.toNat * 256 + b.toNat := by
    rw [decodeInt16, hvalue]
    show (UInt16.ofNat _).toNat = _
    rw [UInt16.toNat_ofNat']
    omega
  rw [encodeInt16, hword]
  show [UInt8.ofNat ((a.toNat * 256 + b.toNat) / 256), UInt8.ofNat (a.toNat * 256 + b.toNat)] = _
  have hhigh : UInt8.ofNat ((a.toNat * 256 + b.toNat) / 256) = a := by
    rw [show (a.toNat * 256 + b.toNat) / 256 = a.toNat by omega, UInt8.ofNat_toNat]
  have hlow : UInt8.ofNat (a.toNat * 256 + b.toNat) = b := by
    apply UInt8.toNat.inj
    rw [UInt8.toNat_ofNat']
    omega
  rw [hhigh, hlow]

theorem exists_encodeInt16 {bytes : Bytes} (h : 2 ≤ bytes.length) :
    ∃ v, bytes = encodeInt16 v ++ bytes.drop 2 := by
  match bytes, h with
  | a :: b :: rest, _ => exact ⟨decodeInt16 [a, b], by rw [encodeInt16_decodeInt16]; rfl⟩

variable {s s' : ByteStream} {bytes : Bytes}

theorem exists_prefix (h : Layout.prefixLength ≤ bytes.length) :
    ∃ code version body, bytes = encodeInt16 code ++ (encodeInt16 version ++ body) := by
  change 4 ≤ bytes.length at h
  obtain ⟨code, hcode⟩ := exists_encodeInt16 (Nat.le_trans (by decide) h)
  have hrest : 2 ≤ (bytes.drop 2).length := by
    rw [List.length_drop]
    omega
  obtain ⟨version, hversion⟩ := exists_encodeInt16 hrest
  exact ⟨code, version, _, by rw [← hversion, ← hcode]⟩

theorem of_readInt16_eq_ok {fault : FramingFault} {v : Int16} (hs : s.Holds bytes)
    (h : readInt16 fault s = .ok (v, s')) :
    ∃ rest, bytes = encodeInt16 v ++ rest ∧ s'.Holds rest := by
  by_cases hlong : 2 ≤ bytes.length
  · obtain ⟨v', hbytes⟩ := exists_encodeInt16 hlong
    rw [hbytes] at hs
    obtain ⟨s₁, hread, hs₁⟩ := gives_readInt16 fault v' (bytes.drop 2) s hs
    rw [h] at hread
    cases hread
    exact ⟨_, hbytes, hs₁⟩
  · have hread : readInt16 fault s = _ := gives_readInt16_of_lt fault (by omega) s hs
    cases hread.symm.trans h

theorem code_of_decodeType {code : Int16} {type : EntryType} (h : decodeType code = .ok type) :
    code = type.code := by
  rw [decodeType, EntryType.ofCode?] at h
  by_cases hheader : code = 0
  · rw [if_pos hheader] at h
    cases h
    exact hheader
  · rw [if_neg hheader] at h
    by_cases hchunk : code = 1
    · rw [if_pos hchunk] at h
      cases h
      exact hchunk
    · rw [if_neg hchunk] at h
      cases h

theorem of_readUnreadType_eq_ok {verifyType : Bool} {type : EntryType} (hs : s.Holds bytes)
    (h : readUnreadType verifyType type s = .ok ((), s')) :
    ∃ rest, bytes = unreadType verifyType type ++ rest ∧ s'.Holds rest := by
  cases verifyType with
  | false =>
    obtain ⟨-, rfl⟩ := pure_eq_ok_iff.1 h
    exact ⟨bytes, rfl, hs⟩
  | true =>
    obtain ⟨actual, s₁, htype, h⟩ := bind_eq_ok_iff.1 h
    obtain ⟨code, s₂, hread, hlookup⟩ := bind_eq_ok_iff.1 htype
    obtain ⟨rest, hbytes, hs₂⟩ := of_readInt16_eq_ok hs hread
    obtain ⟨hcode, rfl⟩ := lift_eq_ok_iff.1 hlookup
    by_cases hsame : actual = type
    · rw [if_pos hsame] at h
      obtain ⟨-, rfl⟩ := pure_eq_ok_iff.1 h
      refine ⟨rest, ?_, hs₂⟩
      rw [hbytes, code_of_decodeType hcode, hsame]
      rfl
    · rw [if_neg hsame] at h
      exact absurd h throw_ne_ok

theorem of_readPrefix_eq_ok {type : EntryType} {version : Int16} (hs : s.Holds bytes)
    (h : readPrefix s = .ok ((type, version), s')) :
    ∃ body, bytes = encodePrefix type version ++ body ∧ s'.Holds body := by
  by_cases hlong : Layout.prefixLength ≤ bytes.length
  · obtain ⟨code, v, body, rfl⟩ := exists_prefix hlong
    have hread := gives_readPrefix_of_code code v body
    cases htype : decodeType code with
    | error e =>
      rw [htype] at hread
      rw [show readPrefix s = .error e from hread s hs] at h
      cases h
    | ok t =>
      rw [htype] at hread
      obtain ⟨s₁, hread, hs₁⟩ := hread s hs
      rw [h] at hread
      cases hread
      refine ⟨_, ?_, hs₁⟩
      rw [encodePrefix, ← code_of_decodeType htype, List.append_assoc]
  · -- too few bytes are refused
    obtain ⟨front, s₁, htake, h⟩ := bind_eq_ok_iff.1 h
    obtain ⟨s₂, hfill, -⟩ := gives_take Layout.prefixLength bytes s hs
    rw [htake] at hfill
    cases hfill
    rw [if_pos (by rw [List.length_take]; omega)] at h
    obtain ⟨_, _, hthrow, -⟩ := bind_eq_ok_iff.1 h
    exact absurd hthrow throw_ne_ok

/-! ## 2. Headers and chunks -/

variable {version : Int16}

theorem of_readHeaderBody_eq_ok {h : Header} (hread : readHeaderBody version s = .ok (h, s')) :
    ∃ p, Registry.builtin.provider version = .ok p ∧ h.validate = .ok () := by
  obtain ⟨p, s₁, hp, hread⟩ := bind_eq_ok_iff.1 hread
  obtain ⟨payload, s₂, -, hread⟩ := bind_eq_ok_iff.1 hread
  obtain ⟨decoded, s₃, -, hread⟩ := bind_eq_ok_iff.1 hread
  obtain ⟨_, s₄, hvalid, hread⟩ := bind_eq_ok_iff.1 hread
  obtain ⟨rfl, -⟩ := pure_eq_ok_iff.1 hread
  refine ⟨p, (lift_eq_ok_iff.1 hp).1, ?_⟩
  have hvalid := (lift_eq_ok_iff.1 hvalid).1
  cases hdecoded : decoded.validate with
  | error e =>
    rw [hdecoded] at hvalid
    cases hvalid
  | ok _ => rfl

/-- Every node that is added to a chunk was checked. -/
theorem validate_of_readNodes {encoding : Encoding} {chunk c : Chunk} {n : Node}
    (hread : readNodes encoding chunk s = .ok (c, s')) (hn : n ∈ c) :
    n ∈ chunk ∨ encoding.validate n = .ok () := by
  -- node by node; the first is valid or reading ends with an error
  fun_induction readNodes encoding chunk s with
  | case1 chunk s e h => cases hread
  | case2 chunk s s₁ h =>
    cases hread
    exact .inl hn
  | case3 chunk s m s₁ h e hinvalid => cases hread
  | case4 chunk s m s₁ h hvalid _ ih =>
    rcases ih hread with hchunk | hvalid'
    · rcases Chunk.mem_insert.1 hchunk with rfl | hchunk
      · exact .inr hvalid
      · exact .inl hchunk
    · exact .inr hvalid'

theorem of_readChunkBody_eq_ok {c : Chunk} (hread : readChunkBody version s = .ok (c, s')) :
    ∃ p, Registry.builtin.provider version = .ok p ∧
      ∀ n ∈ c, p.encoding.validate n = .ok () := by
  obtain ⟨p, s₁, hp, hread⟩ := bind_eq_ok_iff.1 hread
  exact ⟨p, (lift_eq_ok_iff.1 hp).1, fun n hn =>
    (validate_of_readNodes hread hn).resolve_left List.not_mem_nil⟩

/-- A chunk entry that is read names a known version, to whose contract all of its nodes keep. -/
theorem of_readChunk_eq_ok {verifyType : Bool} {c : Chunk} (hs : s.Holds bytes)
    (hread : readChunk verifyType s = .ok (c, s')) :
    ∃ p body, Registry.builtin.provider p.version = .ok p ∧
      bytes = unreadType verifyType .chunk ++ (encodeInt16 p.version ++ body) ∧
      ∀ n ∈ c, p.encoding.validate n = .ok () := by
  rw [readChunk_eq] at hread
  obtain ⟨_, s₁, htype, hread⟩ := bind_eq_ok_iff.1 hread
  obtain ⟨version, s₂, hversion, hread⟩ := bind_eq_ok_iff.1 hread
  obtain ⟨rest, rfl, hs₁⟩ := of_readUnreadType_eq_ok hs htype
  obtain ⟨body, rfl, -⟩ := of_readInt16_eq_ok hs₁ hversion
  obtain ⟨p, hp, hnodes⟩ := of_readChunkBody_eq_ok hread
  obtain ⟨hsame, hregistered⟩ := Registry.provider_of_provider hp
  exact ⟨p, body, hregistered, by rw [hsame], hnodes⟩

theorem validate_of_readVersionedHeader {verifyType : Bool} {v : VersionedHeader}
    (hread : readVersionedHeader verifyType s = .ok (v, s')) : v.header.validate = .ok () := by
  rw [readVersionedHeader_eq] at hread
  obtain ⟨_, s₁, -, hread⟩ := bind_eq_ok_iff.1 hread
  obtain ⟨version, s₂, -, hread⟩ := bind_eq_ok_iff.1 hread
  obtain ⟨h, hbody, rfl⟩ := map_eq_ok_iff.1 hread
  obtain ⟨-, -, hvalid⟩ := of_readHeaderBody_eq_ok hbody
  exact hvalid

end ScanArchive.Framing
