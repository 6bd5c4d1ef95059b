import ScanArchive.Proofs.Archive.Layout
import ScanArchive.Proofs.Framing.Delivery

/-!
# Ways to read an entry

An entry is decoded by its prefix, all of it at once; a header or a chunk is read off a stream by
its type and then its version; and the type can be looked at first, the rest read after it.  Main
statement: `routes_agree`.
-/

namespace ScanArchive

open Framing

namespace Framing

variable {α β : Type} {bytes : Bytes} {code version : Int16}

/-! ## 1. Types before versions -/

/-- Reads a type, checks it, and only then reads a version and what follows it. -/
def readChecked (check : Int16 → Except Error α) (body : α → Int16 → Reading β) : Reading β := do
  let code ← readInt16 .truncatedType
  let a ← check code
  let version ← readVersion
  body a version

def checkType (type : EntryType) (code : Int16) : Except Error Unit := do
  let actual ← decodeType code
  if actual = type then return ()
  else throw (.unexpectedEntryType type actual)

def readMarked (r : Reading α) : Reading (Bool × α) := do
  let mark ← isHeader
  let a ← r
  return (mark, a)

theorem expectType_eq (type : EntryType) :
    expectType type = readInt16 .truncatedType >>= fun code => liftM (checkType type code) := by
  rw [expectType, readType, bind_assoc]
  refine congrArg (readInt16 .truncatedType >>= ·) (funext fun code => ?_)
  rw [checkType]
  cases decodeType code with
  | error e => rfl
  | ok actual =>
    show (if actual = type then pure () else throw (.unexpectedEntryType type actual))
      = (liftM (if actual = type then .ok () else .error (.unexpectedEntryType type actual) :
          Except Error Unit) : Reading Unit)
    by_cases hsame : actual = type
    · rw [if_pos hsame, if_pos hsame]
      rfl
    · rw [if_neg hsame, if_neg hsame]
      rfl

theorem readVersionedHeader_true_eq : readVersionedHeader true =
    readChecked (checkType .header) fun _ version =>
      (fun header => ⟨version, header⟩) <$> readHeaderBody version := by
  rw [readVersionedHeader_eq, readUnreadType, if_pos rfl, expectType_eq, bind_assoc]
  rfl

theorem readVersionedHeader_false_eq : readVersionedHeader false =
    (readVersion >>= fun version =>
      (fun header => ⟨version, header⟩) <$> readHeaderBody version) := rfl

theorem readChunk_true_eq : readChunk true =
    readChecked (checkType .chunk) fun _ version => readChunkBody version := by
  rw [readChunk_eq, readUnreadType, if_pos rfl, expectType_eq, bind_assoc]
  rfl

theorem readChunk_false_eq : readChunk false = (readVersion >>= readChunkBody) := rfl

theorem readMarked_eq (body : Int16 → Reading α) : readMarked (readVersion >>= body) =
    readChecked (fun code => .ok (decide (code = EntryType.header.code)))
      fun mark version => (fun a => (mark, a)) <$> body version := by
  rw [readMarked, isHeader, bind_assoc]
  refine congrArg (readInt16 .truncatedType >>= ·) (funext fun code => ?_)
  rw [pure_bind, bind_assoc]
  simp only [bind_pure_comp]
  rfl

theorem gives_readChecked_error {check : Int16 → Except Error α} {e : Error}
    (hcheck : check code = .error e) (body : α → Int16 → Reading β) (bytes : Bytes) :
    Gives (readChecked check body) (encodeInt16 code ++ bytes) (.error e) :=
  (gives_readInt16 .truncatedType code bytes).bind (gives_lift_error hcheck bytes).bind_error

theorem gives_readChecked_of_short (check : Int16 → Except Error α)
    (body : α → Int16 → Reading β) (hshort : bytes.length < Layout.prefixLength) :
    ∃ e, Gives (readChecked check body) bytes (.error e) := by
  by_cases htype : bytes.length < 2
  · exact ⟨_, (gives_readInt16_of_lt .truncatedType htype).bind_error⟩
  · -- the code may be refused already; if not, there is no version behind it
    obtain ⟨code, hbytes⟩ := exists_encodeInt16 (Nat.le_of_not_lt htype)
    have hrest : (bytes.drop 2).length < 2 := by
      change bytes.length < 4 at hshort
      rw [List.length_drop]
      omega
    rw [hbytes]
    cases hcheck : check code with
    | error e => exact ⟨e, gives_readChecked_error hcheck body _⟩
    | ok a =>
      exact ⟨_, (gives_readInt16 .truncatedType code _).bind
        ((gives_lift hcheck _).bind (gives_readInt16_of_lt .truncatedVersion hrest).bind_error)⟩

theorem gives_readMarked {r : Reading α} {result : Except Error (α × Bytes)}
    (h : Gives r bytes result) (code : Int16) :
    Gives (readMarked r) (encodeInt16 code ++ bytes)
      (result.map fun found => ((decide (code = EntryType.header.code), found.1), found.2)) := by
  refine (gives_isHeader code bytes).bind ?_
  rw [bind_pure_comp]
  exact h.map _

/-! ## 2. Types -/

theorem checkType_of_error {e : Error} (h : decodeType code = .error e) (type : EntryType) :
    checkType type code = .error e := by
  rw [checkType, h]
  rfl

theorem checkType_of_ne {type actual : EntryType} (h : actual ≠ type) :
    checkType type actual.code = .error (.unexpectedEntryType type actual) := by
  rw [checkType, decodeType_code]
  exact if_neg h

theorem decodeType_of_ne (hheader : code ≠ EntryType.header.code)
    (hchunk : code ≠ EntryType.chunk.code) :
    decodeType code = .error (.unknownEntryType code) := by
  rw [decodeType]
  cases htype : EntryType.ofCode? code with
  | none => rfl
  | some type =>
    have hcode : code = type.code := code_of_decodeType (by rw [decodeType, htype])
    cases type with
    | header => exact absurd hcode hheader
    | chunk => exact absurd hcode hchunk

end Framing

/-! ## 3. Whole entries -/

variable {s : ByteStream} {version : Int16} {body : Bytes} (name : String) (rest : Source)

theorem Source.nextDecoded_cons (e : Entry) :
    nextDecoded (.ok e :: rest) = (e.decode.map some, rest) := rfl

theorem Entry.decode_of_unknown {code : Int16} {e : Error} (h : decodeType code = .error e) :
    (⟨name, encodeInt16 code ++ (encodeInt16 version ++ body)⟩ : Entry).decode = .error e := by
  have hlead := gives_readPrefix_of_code code version body
  rw [h] at hlead
  rw [decode_eq, show readPrefix _ = .error e from hlead _ (ByteStream.holds_ofBytes _)]
  rfl

theorem Entry.exists_decode_of_short {bytes : Bytes} (h : bytes.length < Layout.prefixLength) :
    ∃ e, (⟨name, bytes⟩ : Entry).decode = .error e := by
  cases hdecode : (⟨name, bytes⟩ : Entry).decode with
  | error e => exact ⟨e, rfl⟩
  | ok d =>
    obtain ⟨-, body, -, -, hdata, -⟩ := of_decode_eq_ok hdecode
    -- what is decoded has a whole prefix
    have hlength : bytes.length = _ := congrArg List.length hdata
    rw [List.length_append, length_encodePrefix] at hlength
    omega

/-- An entry is decoded as it is read, whether or not its type is looked at first. -/
theorem routes_of_gives {α : Type} {type : EntryType} {r : Bool → Reading α}
    {result : Except Error (α × Bytes)} (whole : α → DecodedEntry)
    (hread : ∀ verifyType,
      Gives (r verifyType) (unreadType verifyType type ++ (encodeInt16 version ++ body)) result)
    (hdecode : (⟨name, encodePrefix type version ++ body⟩ : Entry).decode
      = result.map fun found => whole found.1)
    (hs : s.Holds (encodePrefix type version ++ body)) :
    Source.nextDecoded (.ok ⟨name, encodePrefix type version ++ body⟩ :: rest)
      = ((r true s).map fun found => some (whole found.1), rest) ∧
    (readMarked (r false) s).map (·.1)
      = (r true s).map fun found => (decide (type.code = EntryType.header.code), found.1) := by
  have hmarked := gives_readMarked (hread false) type.code
  rw [Source.nextDecoded_cons, hdecode]
  rw [encodePrefix, List.append_assoc] at hs
  constructor
  · rw [(hread true).map_value hs fun a => some (whole a)]
    cases result <;> rfl
  · rw [hmarked.value hs, (hread true).map_value hs fun a =>
      (decide (type.code = EntryType.header.code), a)]
    cases result <;> rfl

/--
All ways to read an entry come to the same.  Where it begins with the type of a header, decoding
it gives what reading a header off a stream of its bytes gives, the value or the error, and so does
reading the header after its type has been looked at; reading it as a chunk is refused.  The same
holds of chunks.  Every other type is refused as unknown, and fewer bytes than a prefix takes are
refused in every way.
-/
theorem routes_agree {b : Bytes} (hs : s.Holds b) :
    (Layout.prefixLength ≤ b.length →
      (decodeInt16 (b.take 2) = EntryType.header.code →
        Source.nextDecoded (.ok ⟨name, b⟩ :: rest)
          = ((readVersionedHeader true s).map fun found => some
              { name, size := b.length, version := found.1.version,
                contents := .header found.1.header }, rest) ∧
        (readMarked (readVersionedHeader false) s).map (·.1)
          = (readVersionedHeader true s).map (fun found => (true, found.1)) ∧
        readChunk true s = .error (.unexpectedEntryType .chunk .header)) ∧
      (decodeInt16 (b.take 2) = EntryType.chunk.code →
        Source.nextDecoded (.ok ⟨name, b⟩ :: rest)
          = ((readChunk true s).map fun found => some
              { name, size := b.length, version := decodeInt16 ((b.drop 2).take 2),
                contents := .chunk found.1 }, rest) ∧
        (readMarked (readChunk false) s).map (·.1)
          = (readChunk true s).map (fun found => (false, found.1)) ∧
        readVersionedHeader true s = .error (.unexpectedEntryType .header .chunk)) ∧
      (decodeInt16 (b.take 2) ≠ EntryType.header.code →
        decodeInt16 (b.take 2) ≠ EntryType.chunk.code →
        Source.nextDecoded (.ok ⟨name, b⟩ :: rest)
          = (.error (.unknownEntryType (decodeInt16 (b.take 2))), rest) ∧
        readVersionedHeader true s = .error (.unknownEntryType (decodeInt16 (b.take 2))) ∧
        readChunk true s = .error (.unknownEntryType (decodeInt16 (b.take 2))))) ∧
    (b.length < Layout.prefixLength →
      (∃ e, Source.nextDecoded (.ok ⟨name, b⟩ :: rest) = (.error e, rest)) ∧
      (∃ e, readVersionedHeader true s = .error e) ∧ (∃ e, readChunk true s = .error e) ∧
      (∃ e, readMarked (readVersionedHeader false) s = .error e) ∧
      ∃ e, readMarked (readChunk false) s = .error e) := by
  constructor
  · intro hlong
    obtain ⟨code, version, body, rfl⟩ := exists_prefix hlong
    rw [decodeInt16_take, List.drop_left' (length_encodeInt16 code), decodeInt16_take]
    refine ⟨?_, ?_, fun hheader hchunk => ?_⟩
    · rintro rfl
      -- whatever the body comes to, it comes to it on all routes
      obtain ⟨result, hbody⟩ := (robust_readHeaderBody version).steady body
      have hdecode := Entry.decode_of_gives (gives_readContents_header hbody) name
      have hroutes := routes_of_gives name rest
        (fun v => { name, size := (encodePrefix .header version ++ body).length,
                    version := v.version, contents := .header v.header })
        (gives_readVersionedHeader hbody) (hdecode.trans (by cases result <;> rfl))
        (by rwa [encodePrefix, List.append_assoc])
      rw [encodePrefix, List.append_assoc] at hroutes
      refine ⟨hroutes.1, hroutes.2, ?_⟩
      rw [readChunk_true_eq]
      exact gives_readChecked_error (checkType_of_ne (by decide)) _ _ s hs
    · rintro rfl
      obtain ⟨result, hbody⟩ := (robust_readChunkBody version).steady body
      have hdecode := Entry.decode_of_gives (gives_readContents_chunk hbody) name
      have hroutes := routes_of_gives name rest
        (fun c => { name, size := (encodePrefix .chunk version ++ body).length, version,
                    contents := .chunk c })
        (gives_readChunk hbody) (hdecode.trans (by cases result <;> rfl))
        (by rwa [encodePrefix, List.append_assoc])
      rw [encodePrefix, List.append_assoc] at hroutes
      refine ⟨hroutes.1, hroutes.2, ?_⟩
      rw [readVersionedHeader_true_eq]
      exact gives_readChecked_error (checkType_of_ne (by decide)) _ _ s hs
    · have hunknown := decodeType_of_ne hheader hchunk
      rw [Source.nextDecoded_cons, Entry.decode_of_unknown name hunknown,
        readVersionedHeader_true_eq, readChunk_true_eq]
      exact ⟨rfl, gives_readChecked_error (checkType_of_error hunknown .header) _ _ s hs,
        gives_readChecked_error (checkType_of_error hunknown .chunk) _ _ s hs⟩
  · intro hshort
    -- all readings here take the type off first, and none gets behind the version
    have herror : ∀ {α β : Type} (check : Int16 → Except Error α) (body : α → Int16 → Reading β),
        ∃ e, readChecked check body s = .error e := fun check body => by
      obtain ⟨e, hread⟩ := gives_readChecked_of_short check body hshort
      exact ⟨e, hread s hs⟩
    obtain ⟨e, hdecode⟩ := Entry.exists_decode_of_short name hshort
    rw [Source.nextDecoded_cons, hdecode, readVersionedHeader_true_eq, readChunk_true_eq,
      readVersionedHeader_false_eq, readChunk_false_eq, readMarked_eq, readMarked_eq]
    exact ⟨⟨e, rfl⟩, herror _ _, herror _ _, herror _ _, herror _ _⟩

/-- A header and a chunk of two remarks, an entry of an unknown type and one that is cut short. -/
theorem remarks_routes_agree :
    let p : Provider := ⟨Layout.version2, .enveloped⟩
    let header := p.headerEntry { id := "abc" }
    let chunk := p.chunkEntry 0 [.remark "a", .remark "b"]
    (readVersionedHeader true (.ofBytes header.data)).map (·.1) = .ok ⟨2, { id := "abc" }⟩ ∧
    (readMarked (readVersionedHeader false) (.ofBytes header.data)).map (·.1)
      = .ok (true, ⟨2, { id := "abc" }⟩) ∧
    readChunk true (.ofBytes header.data) = .error (.unexpectedEntryType .chunk .header) ∧
    (readChunk true (.ofBytes chunk.data)).map (·.1)
      = .ok (Chunk.ofList [.remark "a", .remark "b"]) ∧
    (readMarked (readChunk false) (.ofBytes chunk.data)).map (·.1)
      = .ok (false, Chunk.ofList [.remark "a", .remark "b"]) ∧
    Source.nextDecoded [.ok ⟨"x", [0, 7, 0, 2]⟩] = (.error (.unknownEntryType 7), []) ∧
    ∃ e, readMarked (readVersionedHeader false) (.ofBytes [0, 0, 0]) = .error e := by
  intro p header chunk
  have hp : Registry.builtin.provider p.version = .ok p := by decide
  have hvalid : Header.validate { id := "abc" } = .ok () ∧
      (p.encoding.encodeHeader { id := "abc" }).length < UInt64.size := by cbv
  have hs := ByteStream.holds_ofBytes header.data
  have hs' := ByteStream.holds_ofBytes chunk.data
  obtain ⟨hheader, -⟩ := routes_agree "x" [] hs
  obtain ⟨hchunk, -⟩ := routes_agree "x" [] hs'
  obtain ⟨hunknown, -⟩ := routes_agree "x" [] (ByteStream.holds_ofBytes [0, 7, 0, 2])
  obtain ⟨-, hshort⟩ := routes_agree "x" [] (ByteStream.holds_ofBytes [0, 0, 0])
  obtain ⟨-, hmarked, hrefused⟩ := (hheader (by cbv)).1 (by cbv)
  obtain ⟨-, hmarked', -⟩ := (hchunk (by cbv)).2.1 (by cbv)
  have hread : Gives (readVersionedHeader true) header.data (.ok (⟨2, { id := "abc" }⟩, [])) := by
    show Gives _ (encodePrefix .header p.version ++ _) _
    rw [encodePrefix, List.append_assoc]
    exact gives_readVersionedHeader
      (gives_readHeaderBody_encodeHeader hp hvalid.1 hvalid.2) true
  have hread' : Gives (readChunk true) chunk.data
      (.ok (Chunk.ofList [.remark "a", .remark "b"], [])) := by
    show Gives _ (encodePrefix .chunk p.version ++ _) _
    rw [encodePrefix, List.append_assoc]
    exact gives_readChunk (gives_readChunkBody hp readable_remarks) true
  exact ⟨hread.value hs, hmarked.trans (hread.map_value hs fun v => (true, v)), hrefused,
    hread'.value hs', hmarked'.trans (hread'.map_value hs' fun c => (false, c)),
    ((hunknown (by decide)).2.2 (by decide) (by decide)).1, (hshort (by decide)).2.2.2.1⟩

end ScanArchive
