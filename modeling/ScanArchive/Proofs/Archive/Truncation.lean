import ScanArchive.Proofs.Archive.Layout
import ScanArchive.Proofs.Framing.Grammar

/-!
# Chunk entries cut short

No message behind its length begins another one, so an entry that is cut off inside a message is
told from one that ends where the next message would begin.  Main statement:
`truncation_detected`.
-/

namespace ScanArchive.Framing

open Wire

/-! ## 1. Messages cut short -/

variable {bytes body rest : Bytes}

theorem splitDelimited_append (h : splitDelimited bytes = .ok (some body, rest)) (more : Bytes) :
    splitDelimited (bytes ++ more) = .ok (some body, rest ++ more) := by
  obtain ⟨front, hdivides, hlength⟩ := splitDelimited_eq_some_iff.1 h
  refine splitDelimited_eq_some_iff.2 ⟨front, ⟨hdivides.ended, hdivides.short, ?_⟩, hlength⟩
  rw [hdivides.eq, List.append_assoc, List.append_assoc]

theorem splitDelimited_torn (hsize : body.length < UInt64.size) {front back : Bytes}
    (hcut : delimited body = front ++ back) (hfront : front ≠ []) (hback : back ≠ []) :
    ∃ fault, splitDelimited front = .error fault := by
  cases hsplit : splitDelimited front with
  | error fault => exact ⟨fault, rfl⟩
  | ok found =>
    obtain ⟨body?, rest⟩ := found
    cases body? with
    | none => exact absurd (splitDelimited_eq_none_iff.1 hsplit).1 hfront
    | some body' =>
      -- it would be the message of the whole, behind which nothing is left
      have hwhole := gives_readDelimited_ok_iff.1 (gives_readDelimited hsize [])
      rw [List.append_nil, hcut, splitDelimited_append hsplit back] at hwhole
      obtain ⟨-, hrest⟩ := Prod.mk.inj (Except.ok.inj hwhole)
      exact absurd (List.append_eq_nil_iff.1 hrest).2 hback

theorem gives_readNode_torn (hsize : body.length < UInt64.size) {front back : Bytes}
    (hcut : delimited body = front ++ back) (hfront : front ≠ []) (hback : back ≠ [])
    (encoding : Encoding) :
    ∃ fault, Gives (readNode encoding) front (.error (.framing fault)) := by
  obtain ⟨fault, hsplit⟩ := splitDelimited_torn hsize hcut hfront hback
  have hread := gives_readDelimited_eq front
  rw [hsplit] at hread
  exact ⟨fault, hread.bind_error⟩

/-! ## 2. Nodes cut short -/

variable {encoding : Encoding} {nodes : List Node}

theorem Readable.take (hnodes : Readable encoding nodes) (j : Nat) :
    Readable encoding (nodes.take j) :=
  fun n hn => hnodes n (List.mem_of_mem_take hn)

/-- Messages that are cut off inside one of them are refused, whatever was read before. -/
theorem gives_readNodes_torn (hnodes : Readable encoding nodes) {front : Bytes}
    (hfront : front <+: encoding.messages nodes)
    (hinside : ∀ j, front.length ≠ (encoding.messages (nodes.take j)).length) (chunk : Chunk) :
    ∃ fault, Gives (readNodes encoding chunk) front (.error (.framing fault)) := by
  -- on the nodes; every whole message takes its node into the chunk
  induction nodes generalizing front chunk with
  | nil => exact absurd (congrArg List.length (List.prefix_nil.1 hfront)) (hinside 0)
  | cons n nodes ih =>
    obtain ⟨⟨hn, hsize⟩, hrest⟩ := List.forall_mem_cons.1 hnodes
    obtain ⟨back, hback⟩ := hfront
    rcases List.append_eq_append_iff.1 (hback.trans (Encoding.messages_cons encoding n nodes)) with
      ⟨torn, hfirst, -⟩ | ⟨left, rfl, hleft⟩
    · -- the first message is torn, and not between two messages
      have hbegun : front ≠ [] := by
        rintro rfl
        exact hinside 0 rfl
      have htorn : torn ≠ [] := by
        rintro rfl
        apply hinside 1
        rw [List.append_nil] at hfirst
        simp [hfirst]
      obtain ⟨fault, hread⟩ := gives_readNode_torn hsize hfirst hbegun htorn encoding
      rw [readNodes_eq]
      exact ⟨fault, hread.bind_error⟩
    · -- the first message is whole, so the cut is inside one of the others
      have hlater : ∀ j, left.length ≠ (encoding.messages (nodes.take j)).length := by
        intro j hj
        apply hinside (j + 1)
        simp [hj]
      obtain ⟨fault, hread⟩ := ih hrest ⟨back, hleft.symm⟩ hlater (chunk.insert n)
      have hdecode := Encoding.decodeNode_nodeBody (Encoding.kind_mem_of_validate hn) hsize
      exact ⟨fault, gives_readNodes_cons hsize hdecode hn hread⟩

/-! ## 3. Entries cut short -/

theorem gives_readChunk_of_short (version : Int16) (body : Bytes) {k : Nat}
    (hk : k < Layout.prefixLength) :
    ∃ fault, Gives (readChunk true) ((encodePrefix .chunk version ++ body).take k)
      (.error (.framing fault)) := by
  have htype : (encodeInt16 EntryType.chunk.code).length = 2 := length_encodeInt16 _
  rw [readChunk_eq]
  by_cases hshort : k < 2
  · -- `bind_error` through the number, the type and the version
    refine ⟨.truncatedType, ?_⟩
    have htorn : ((encodePrefix .chunk version ++ body).take k).length < 2 := by
      rw [List.length_take]
      omega
    exact (gives_readInt16_of_lt .truncatedType htorn).bind_error.bind_error.bind_error
  · -- the type is whole
    refine ⟨.truncatedVersion, ?_⟩
    rw [encodePrefix, List.append_assoc, List.take_append, htype,
      List.take_of_length_le (by omega)]
    refine (gives_readUnreadType true .chunk _).bind ?_
    refine (gives_readInt16_of_lt .truncatedVersion ?_).bind_error
    change k < 4 at hk
    rw [List.length_take]
    omega

theorem gives_readChunk_of_nodes {p : Provider} (hp : Registry.builtin.provider p.version = .ok p)
    {body : Bytes} {result : Except Error (Chunk × Bytes)}
    (hbody : Gives (readNodes p.encoding .empty) body result) :
    Gives (readChunk true) (encodePrefix .chunk p.version ++ body) result := by
  have hread := gives_readChunk ((gives_lift hp body).bind hbody) true
  rwa [← List.append_assoc] at hread

variable {p : Provider} {k : Nat}

/-- An entry that is cut off between two messages is that of the nodes before the cut. -/
theorem take_chunkEntry {j : Nat}
    (hk : k = Layout.prefixLength + (p.encoding.messages (nodes.take j)).length) (index : Nat) :
    (p.chunkEntry index nodes).data.take k = (p.chunkEntry index (nodes.take j)).data := by
  have hlength : k = (p.chunkEntry index (nodes.take j)).data.length := by
    rw [hk, Provider.chunkEntry, List.length_append, length_encodePrefix]
  have hentry : (p.chunkEntry index nodes).data
      = (p.chunkEntry index (nodes.take j)).data ++ p.encoding.messages (nodes.drop j) := by
    rw [Provider.chunkEntry, Provider.chunkEntry, List.append_assoc, ← Encoding.messages_append,
      List.take_append_drop]
  rw [hentry, List.take_left' hlength.symm]

theorem gives_readChunk_torn (hp : Registry.builtin.provider p.version = .ok p)
    (hnodes : Readable p.encoding nodes) {index : Nat}
    (hk : k ≤ (p.chunkEntry index nodes).data.length)
    (hinside : ∀ j, k ≠ Layout.prefixLength + (p.encoding.messages (nodes.take j)).length) :
    ∃ fault, Gives (readChunk true) ((p.chunkEntry index nodes).data.take k)
      (.error (.framing fault)) := by
  have hprefix := length_encodePrefix .chunk p.version
  by_cases hshort : k < Layout.prefixLength
  · exact gives_readChunk_of_short p.version _ hshort
  · rw [Provider.chunkEntry, List.length_append, hprefix] at hk
    have hlength : ((p.encoding.messages nodes).take (k - Layout.prefixLength)).length
        = k - Layout.prefixLength := List.length_take_of_le (by omega)
    have htorn : ∀ j, ((p.encoding.messages nodes).take (k - Layout.prefixLength)).length
        ≠ (p.encoding.messages (nodes.take j)).length := by
      intro j hj
      exact hinside j (by omega)
    obtain ⟨fault, hread⟩ := gives_readNodes_torn hnodes (List.take_prefix _ _) htorn .empty
    -- the prefix is whole, and the cut goes through the messages
    rw [Provider.chunkEntry, List.take_append, hprefix, List.take_of_length_le (by omega)]
    exact ⟨fault, gives_readChunk_of_nodes hp hread⟩

/--
Reading the first `k` bytes of a chunk entry.  Where they end between two messages, the chunk of
the nodes before the cut is read, and all of the bytes; everywhere else reading fails with a
framing error.
-/
theorem truncation_detected (hp : Registry.builtin.provider p.version = .ok p)
    (hnodes : Readable p.encoding nodes) {index : Nat}
    (hk : k ≤ (p.chunkEntry index nodes).data.length) :
    (∀ chunk left,
      Gives (readChunk true) ((p.chunkEntry index nodes).data.take k) (.ok (chunk, left)) ↔
        left = [] ∧ ∃ j, k = Layout.prefixLength + (p.encoding.messages (nodes.take j)).length ∧
          chunk = Chunk.ofList (nodes.take j)) ∧
    ((∃ fault,
      Gives (readChunk true) ((p.chunkEntry index nodes).data.take k) (.error (.framing fault))) ↔
        ∀ j, k ≠ Layout.prefixLength + (p.encoding.messages (nodes.take j)).length) := by
  have hbetween : ∀ j, k = Layout.prefixLength + (p.encoding.messages (nodes.take j)).length →
      Gives (readChunk true) ((p.chunkEntry index nodes).data.take k)
        (.ok (Chunk.ofList (nodes.take j), [])) := by
    intro j hj
    rw [take_chunkEntry hj]
    exact gives_readChunk_of_nodes hp (gives_readNodes (hnodes.take j) .empty)
  have hinside := gives_readChunk_torn hp hnodes hk
  -- on the same bytes there is one result only
  refine ⟨fun chunk left => ⟨fun hread => ?_, ?_⟩, ⟨fun ⟨fault, hread⟩ j hj => ?_, hinside⟩⟩
  · by_cases hj : ∃ j, k = Layout.prefixLength + (p.encoding.messages (nodes.take j)).length
    · obtain ⟨j, hj⟩ := hj
      obtain ⟨rfl, rfl⟩ := Prod.mk.inj (Except.ok.inj (hread.unique (hbetween j hj)))
      exact ⟨rfl, j, hj, rfl⟩
    · obtain ⟨fault, herror⟩ := hinside fun j h => hj ⟨j, h⟩
      cases hread.unique herror
  · rintro ⟨rfl, j, hj, rfl⟩
    exact hbetween j hj
  · cases hread.unique (hbetween j hj)

/-- Two remarks, cut off behind the first one and one byte later. -/
theorem remarks_cut_short :
    let p : Provider := ⟨Layout.version2, .enveloped⟩
    let entry := p.chunkEntry 0 [.remark "a", .remark "b"]
    Registry.builtin.provider p.version = .ok p ∧
    Readable p.encoding [.remark "a", .remark "b"] ∧ 95 ≤ entry.data.length ∧
    Gives (readChunk true) (entry.data.take 94) (.ok (Chunk.ofList [.remark "a"], [])) ∧
    ∃ fault, Gives (readChunk true) (entry.data.take 95) (.error (.framing fault)) := by
  intro p entry
  have hp : Registry.builtin.provider p.version = .ok p := by decide
  have hfirst : (p.encoding.messages [.remark "a"]).length = 90 := by cbv
  have hboth : (p.encoding.messages [.remark "a", .remark "b"]).length = 180 := by cbv
  have hlength : 95 ≤ entry.data.length := by
    show 95 ≤ (encodePrefix .chunk p.version ++ _).length
    rw [List.length_append, length_encodePrefix, hboth]
    decide
  have hinside : ∀ j, 95 ≠ Layout.prefixLength +
      (p.encoding.messages (List.take j [.remark "a", .remark "b"])).length := by
    intro j
    rcases j with _ | _ | j
    · decide
    · rw [zero_add, List.take_succ_cons, List.take_zero, hfirst]
      decide
    · rw [List.take_of_length_le (by simp), hboth]
      decide
  exact ⟨hp, readable_remarks, hlength,
    ((truncation_detected hp readable_remarks (Nat.le_of_succ_le hlength)).1 _ _).2
      ⟨rfl, 1, by rw [List.take_succ_cons, List.take_zero, hfirst]; rfl, rfl⟩,
    (truncation_detected hp readable_remarks hlength).2.2 hinside⟩

end ScanArchive.Framing
