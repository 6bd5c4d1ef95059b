import ScanArchive.Archive.Reader
import ScanArchive.Proofs.Encoding
import ScanArchive.Proofs.Framing.Reading

/-!
# Messages of a chunk read back

The reader spells lengths out by itself, byte for byte, and agrees with the spelling of the
writer; so a chunk gives exactly the nodes whose messages stand in it.
-/

namespace ScanArchive

open Wire

def Encoding.messages (encoding : Encoding) (nodes : List Node) : Bytes :=
  nodes.flatMap fun n => delimited (encoding.nodeBody n)

namespace Encoding

variable (encoding : Encoding)

@[simp] theorem messages_nil : encoding.messages [] = [] := rfl

@[simp] theorem messages_cons (n : Node) (nodes : List Node) :
    encoding.messages (n :: nodes) = delimited (encoding.nodeBody n) ++ encoding.messages nodes :=
  rfl

@[simp] theorem messages_append (as bs : List Node) :
    encoding.messages (as ++ bs) = encoding.messages as ++ encoding.messages bs :=
  List.flatMap_append

/-- The node that a message in a chunk stands for, if it is one that the encoding accepts. -/
def accept (body : Bytes) : Except Error Node :=
  match encoding.decodeNode body with
  | .error e => .error e
  | .ok n =>
    match encoding.validate n with
    | .error e => .error (.validation e)
    | .ok () => .ok n

end Encoding

namespace Framing

/-! ## 1. Lengths -/

theorem gives_readLength_of_lt {more n : Nat} (hlt : n < 128) {byte : UInt8} {tail : Bytes}
    (hspelled : Varint.encode n = byte :: tail) (rest : Bytes) :
    Gives (readLength more byte) (tail ++ rest) (.ok (n, rest)) := by
  rw [Varint.encode_of_lt hlt, List.cons.injEq] at hspelled
  obtain ⟨rfl, rfl⟩ := hspelled
  have hbyte : (UInt8.ofNat n).toNat = n := by simp; omega
  unfold readLength
  rw [hbyte, if_pos hlt]
  exact gives_pure n rest

theorem gives_readLength {more n : Nat} (hn : n < Nat.pow 128 (more + 1)) {byte : UInt8}
    {tail : Bytes} (hspelled : Varint.encode n = byte :: tail) (rest : Bytes) :
    Gives (readLength more byte) (tail ++ rest) (.ok (n, rest)) := by
  -- on the number of bytes that may follow; each spells the next seven bits
  induction more generalizing n byte tail with
  | zero => exact gives_readLength_of_lt hn hspelled rest
  | succ more ih =>
    by_cases hlt : n < 128
    · exact gives_readLength_of_lt hlt hspelled rest
    · rw [Varint.encode_of_le (Nat.le_of_not_lt hlt), List.cons.injEq] at hspelled
      obtain ⟨rfl, rfl⟩ := hspelled
      have hbyte : (UInt8.ofNat (n % 128 + 128)).toNat = n % 128 + 128 := by simp; omega
      have hhigh : n / 128 < Nat.pow 128 (more + 1) := by
        have hpow : Nat.pow 128 (more + 1 + 1) = Nat.pow 128 (more + 1) * 128 := rfl
        omega
      obtain ⟨next, tail, hnext⟩ := List.exists_cons_of_ne_nil (Varint.encode_ne_nil (n / 128))
      rw [readLength, hbyte, if_neg (by omega), hnext]
      have hnextRead : Gives (take 1) ((next :: tail) ++ rest) (.ok ([next], tail ++ rest)) :=
        gives_take_append (show [next].length = 1 from rfl) (tail ++ rest)
      refine hnextRead.bind ?_
      refine (ih hhigh hnext).bind ?_
      rw [show (n % 128 + 128) % 128 + 128 * (n / 128) = n by omega]
      exact gives_pure n rest

theorem gives_readBody (body rest : Bytes) :
    Gives (readBody body.length) (body ++ rest) (.ok (body, rest)) := by
  refine (gives_take_append rfl rest).bind ?_
  rw [if_pos rfl]
  exact gives_pure body rest

theorem gives_readDelimited {body : Bytes} (hsize : body.length < UInt64.size) (rest : Bytes) :
    Gives readDelimited (delimited body ++ rest) (.ok (some body, rest)) := by
  obtain ⟨byte, tail, hspelled⟩ :=
    List.exists_cons_of_ne_nil (Varint.encode_ne_nil body.length)
  have hbytes : delimited body ++ rest = [byte] ++ (tail ++ (body ++ rest)) := by
    rw [delimited, hspelled]
    simp only [List.cons_append, List.append_assoc, List.nil_append]
  have hfit : body.length < Nat.pow 128 (Varint.maxLength - 1 + 1) :=
    Nat.lt_of_lt_of_le hsize (by decide)
  rw [hbytes]
  refine (gives_take_append (show [byte].length = 1 from rfl) _).bind ?_
  refine (gives_readLength hfit hspelled (body ++ rest)).bind ?_
  rw [Nat.mod_eq_of_lt hsize]
  exact (gives_readBody body rest).bind (gives_pure (some body) rest)

theorem gives_readDelimited_nil : Gives readDelimited [] (.ok (none, [])) :=
  (gives_take 1 []).bind (gives_pure none [])

/-! ## 2. Nodes -/

/-- Messages that the reader accepts: valid nodes, short enough to have a length. -/
def Readable (encoding : Encoding) (nodes : List Node) : Prop :=
  ∀ n ∈ nodes, encoding.validate n = .ok () ∧ (encoding.nodeBody n).length < UInt64.size

/-- Short enough to have a length, as all messages are that fit into memory. -/
def Short (bodies : List Bytes) : Prop := ∀ body ∈ bodies, body.length < UInt64.size

theorem short_of_readable {encoding : Encoding} {nodes : List Node}
    (hnodes : Readable encoding nodes) : Short (nodes.map encoding.nodeBody) := by
  intro body hbody
  obtain ⟨n, hn, rfl⟩ := List.mem_map.1 hbody
  exact (hnodes n hn).2

theorem mapM_accept {encoding : Encoding} {nodes : List Node} (hnodes : Readable encoding nodes) :
    (nodes.map encoding.nodeBody).mapM encoding.accept = .ok nodes := by
  induction nodes with
  | nil => rfl
  | cons n nodes ih =>
    obtain ⟨hn, hsize⟩ := hnodes n List.mem_cons_self
    have hfirst : encoding.accept (encoding.nodeBody n) = .ok n := by
      have hdecode := Encoding.decodeNode_nodeBody (Encoding.kind_mem_of_validate hn) hsize
      simp only [Encoding.accept, hdecode, hn]
    rw [List.map_cons, List.mapM_cons, hfirst, ih fun m hm => hnodes m (List.mem_cons_of_mem _ hm)]
    rfl

theorem gives_readNode {body : Bytes} (hsize : body.length < UInt64.size)
    (encoding : Encoding) (rest : Bytes) :
    Gives (readNode encoding) (delimited body ++ rest)
      ((encoding.decodeNode body).map fun n => (some n, rest)) := by
  refine (gives_readDelimited hsize rest).bind ?_
  cases hdecode : encoding.decodeNode body with
  | error e => exact (gives_lift_error hdecode rest).map some
  | ok n => exact (gives_lift hdecode rest).map some

theorem gives_readNode_nil (encoding : Encoding) :
    Gives (readNode encoding) [] (.ok (none, [])) :=
  gives_readDelimited_nil.bind (gives_pure none [])

theorem readNodes_eq (encoding : Encoding) (chunk : Chunk) :
    readNodes encoding chunk = readNode encoding >>= fun n? => match n? with
      | none => pure chunk
      | some n => liftM ((encoding.validate n).mapError Error.validation) >>= fun _ =>
        readNodes encoding (chunk.insert n) := by
  funext s
  rw [readNodes]
  simp only [bind, StateT.bind, Except.bind]
  split
  next e h => rw [h]
  next s₁ h => rw [h]; rfl
  next n s₁ h =>
    rw [h]
    cases hvalid : encoding.validate n with
    | error e => simp only [hvalid]; rfl
    | ok _ => simp only [hvalid]; rfl

theorem gives_readNodes_cons {encoding : Encoding} {chunk : Chunk} {n : Node} {body rest : Bytes}
    {result : Except Error (Chunk × Bytes)} (hsize : body.length < UInt64.size)
    (hdecode : encoding.decodeNode body = .ok n) (hvalid : encoding.validate n = .ok ())
    (hrest : Gives (readNodes encoding (chunk.insert n)) rest result) :
    Gives (readNodes encoding chunk) (delimited body ++ rest) result := by
  have hbody := gives_readNode hsize encoding rest
  rw [hdecode] at hbody
  have hcheck : (encoding.validate n).mapError Error.validation = .ok () := by
    rw [hvalid]
    rfl
  rw [readNodes_eq]
  exact hbody.bind ((gives_lift hcheck rest).bind hrest)

/-- The messages of a chunk are accepted one after another, up to the first that is not. -/
theorem gives_readNodes_bodies {bodies : List Bytes}
    (hshort : Short bodies) (encoding : Encoding) (chunk : Chunk) :
    Gives (readNodes encoding chunk) (bodies.flatMap delimited)
      ((bodies.mapM encoding.accept).map fun nodes => (nodes.foldl Chunk.insert chunk, [])) := by
  -- on the messages that are left; the nodes before them are in the chunk
  induction bodies generalizing chunk with
  | nil =>
    rw [readNodes_eq]
    exact (gives_readNode_nil encoding).bind (gives_pure chunk [])
  | cons body bodies ih =>
    have hbody := gives_readNode (hshort body List.mem_cons_self) encoding
      (bodies.flatMap delimited)
    have hrest := fun n => ih (fun b hb => hshort b (List.mem_cons_of_mem _ hb)) (chunk.insert n)
    rw [List.flatMap_cons, List.mapM_cons]
    cases hdecode : encoding.decodeNode body with
    | error e =>
      rw [hdecode] at hbody
      rw [readNodes_eq, show encoding.accept body = .error e by
        simp only [Encoding.accept, hdecode]]
      exact hbody.bind_error
    | ok n =>
      rw [hdecode] at hbody
      cases hvalid : encoding.validate n with
      | error e =>
        have hcheck : (encoding.validate n).mapError Error.validation
            = .error (.validation e) := by rw [hvalid]; rfl
        rw [readNodes_eq, show encoding.accept body = .error (.validation e) by
          simp only [Encoding.accept, hdecode, hvalid]]
        exact hbody.bind (gives_lift_error hcheck _).bind_error
      | ok _ =>
        have hgives :=
          gives_readNodes_cons (hshort body List.mem_cons_self) hdecode hvalid (hrest n)
        rw [show encoding.accept body = .ok n by simp only [Encoding.accept, hdecode, hvalid]]
        show Gives _ _ (((bodies.mapM encoding.accept).map (n :: ·)).map _)
        cases hbodies : bodies.mapM encoding.accept with
        | error e => rwa [hbodies] at hgives
        | ok nodes => rwa [hbodies] at hgives

theorem gives_readNodes {encoding : Encoding} {nodes : List Node}
    (hnodes : Readable encoding nodes) (chunk : Chunk) :
    Gives (readNodes encoding chunk) (encoding.messages nodes)
      (.ok (nodes.foldl Chunk.insert chunk, [])) := by
  have hread := gives_readNodes_bodies (short_of_readable hnodes) encoding chunk
  rwa [List.flatMap_map, mapM_accept hnodes] at hread

/-! ## 3. Bodies of entries -/

variable {version : Int16} {p : Provider}

theorem gives_readHeaderBody (hp : Registry.builtin.provider version = .ok p) (body : Bytes) :
    Gives (readHeaderBody version) body
      ((p.encoding.decodeHeader body).bind fun h =>
        (h.validate.mapError Error.validation).map fun _ => (h, [])) := by
  refine (gives_lift hp body).bind ((gives_takeAll body).bind ?_)
  cases hdecode : p.encoding.decodeHeader body with
  | error e => exact (gives_lift_error rfl []).bind_error
  | ok h =>
    refine (gives_lift rfl []).bind ?_
    show Gives _ [] ((h.validate.mapError Error.validation).map fun _ => (h, []))
    cases hvalid : h.validate.mapError Error.validation with
    | error e => exact (gives_lift_error rfl []).bind_error
    | ok _ => exact (gives_lift rfl []).bind (gives_pure h [])

theorem gives_readChunkBody_bodies (hp : Registry.builtin.provider version = .ok p)
    {bodies : List Bytes} (hshort : Short bodies) :
    Gives (readChunkBody version) (bodies.flatMap delimited)
      ((bodies.mapM p.encoding.accept).map fun nodes => (Chunk.ofList nodes, [])) :=
  (gives_lift hp _).bind (gives_readNodes_bodies hshort p.encoding .empty)

theorem gives_readChunkBody (hp : Registry.builtin.provider version = .ok p) {nodes : List Node}
    (hnodes : Readable p.encoding nodes) :
    Gives (readChunkBody version) (p.encoding.messages nodes)
      (.ok (Chunk.ofList nodes, [])) :=
  (gives_lift hp _).bind (gives_readNodes hnodes .empty)

theorem robust_readHeaderBody (version : Int16) : Robust 0 (readHeaderBody version) :=
  (robust_lift _).bind fun _ => robust_takeAll.bind fun _ =>
    (robust_lift _).bind fun h => (robust_lift _).bind fun _ => robust_pure h

theorem gives_readChunkBody_of_unknown {e : Error}
    (hp : Registry.builtin.provider version = .error e) (body : Bytes) :
    Gives (readChunkBody version) body (.error e) :=
  (gives_lift_error hp body).bind_error

/-! ## 4. Entries -/

def unreadType (verifyType : Bool) (type : EntryType) : Bytes :=
  if verifyType then encodeInt16 type.code else []

def readUnreadType (verifyType : Bool) (type : EntryType) : Reading Unit :=
  if verifyType then expectType type else pure ()

theorem readVersionedHeader_eq (verifyType : Bool) : readVersionedHeader verifyType =
    (readUnreadType verifyType .header >>= fun _ => readVersion >>= fun version =>
      (fun header => ⟨version, header⟩) <$> readHeaderBody version) := by
  cases verifyType <;> rfl

theorem readChunk_eq (verifyType : Bool) : readChunk verifyType =
    (readUnreadType verifyType .chunk >>= fun _ => readVersion >>= readChunkBody) := by
  cases verifyType <;> rfl

theorem exists_givesOrFails_readType (bytes : Bytes) :
    ∃ result, GivesOrFails 2 readType bytes result ∧
      ∀ type left, result = .ok (type, left) → bytes.length = left.length + 2 := by
  by_cases hshort : bytes.length < 2
  · have hread := givesOrFails_takeExact_of_lt .truncatedType hshort
    exact ⟨_, hread.bind_error.bind_error, nofun⟩
  · have henough := Nat.not_lt.1 hshort
    have hread : GivesOrFails 2 (readInt16 .truncatedType) bytes
        (.ok (decodeInt16 (bytes.take 2), bytes.drop 2)) :=
      (givesOrFails_takeExact .truncatedType henough).bind (givesOrFails_pure _ _)
    cases htype : decodeType (decodeInt16 (bytes.take 2)) with
    | error e => exact ⟨_, hread.bind (givesOrFails_lift_error htype _), nofun⟩
    | ok type =>
      refine ⟨_, hread.bind (givesOrFails_lift htype _), ?_⟩
      rintro _ _ ⟨⟩
      rw [List.length_drop]
      omega

/-- How many of the first bytes of an entry are read as numbers. -/
def reach (verifyType : Bool) : Nat := if verifyType then 4 else 2

/-- The number that follows the type stands farther behind if the type is read as well. -/
theorem robust_behindType {α : Type} (verifyType : Bool) (type : EntryType) {r : Reading α}
    (hr : Robust 2 r) :
    Robust (reach verifyType) (readUnreadType verifyType type >>= fun _ => r) := by
  cases verifyType with
  | false => exact hr
  | true =>
    intro bytes
    obtain ⟨result, htype, hlength⟩ := exists_givesOrFails_readType bytes
    have htype := htype.mono (show 2 ≤ reach true by decide)
    cases result with
    | error e => exact ⟨_, htype.bind_error.bind_error⟩
    | ok found =>
      obtain ⟨actual, left⟩ := found
      by_cases hsame : actual = type
      · obtain ⟨result, hrest⟩ := hr left
        have hchecked : GivesOrFails (reach true) (readUnreadType true type) bytes
            (.ok ((), left)) := by
          refine htype.bind ?_
          rw [if_pos hsame]
          exact givesOrFails_pure () left
        refine ⟨result, hchecked.bind_behind hrest fun _ => ?_⟩
        -- two bytes for the type and two for the number behind it
        rw [hlength actual left rfl, Nat.add_sub_cancel_left]
        decide
      · have hrefused : GivesOrFails (reach true) (readUnreadType true type) bytes
            (.error (.unexpectedEntryType type actual)) := by
          refine htype.bind ?_
          rw [if_neg hsame]
          exact givesOrFails_throw _ left
        exact ⟨_, hrefused.bind_error⟩

theorem robust_readVersionedHeader (verifyType : Bool) :
    Robust (reach verifyType) (readVersionedHeader verifyType) := by
  rw [readVersionedHeader_eq]
  refine robust_behindType verifyType .header ?_
  exact (robust_readInt16 .truncatedVersion).bind
    fun version => (robust_readHeaderBody version).map _

theorem gives_readUnreadType (verifyType : Bool) (type : EntryType) (rest : Bytes) :
    Gives (readUnreadType verifyType type) (unreadType verifyType type ++ rest)
      (.ok ((), rest)) := by
  cases verifyType with
  | false => exact gives_pure () rest
  | true =>
    have htype : Gives readType (encodeInt16 type.code ++ rest) (.ok (type, rest)) :=
      (gives_readInt16 .truncatedType type.code rest).bind (gives_lift (decodeType_code type) rest)
    refine htype.bind ?_
    rw [if_pos rfl]
    exact gives_pure () rest

theorem gives_readVersionedHeader {body : Bytes} {result : Except Error (Header × Bytes)}
    (hbody : Gives (readHeaderBody version) body result) (verifyType : Bool) :
    Gives (readVersionedHeader verifyType)
      (unreadType verifyType .header ++ (encodeInt16 version ++ body))
      (result.map fun found => (⟨version, found.1⟩, found.2)) := by
  rw [readVersionedHeader_eq]
  exact (gives_readUnreadType verifyType .header _).bind
    ((gives_readInt16 .truncatedVersion version body).bind (hbody.map _))

theorem gives_readChunk {body : Bytes} {result : Except Error (Chunk × Bytes)}
    (hbody : Gives (readChunkBody version) body result) (verifyType : Bool) :
    Gives (readChunk verifyType)
      (unreadType verifyType .chunk ++ (encodeInt16 version ++ body)) result := by
  rw [readChunk_eq]
  exact (gives_readUnreadType verifyType .chunk _).bind
    ((gives_readInt16 .truncatedVersion version body).bind hbody)

end Framing
end ScanArchive
