import ScanArchive.Proofs.Chunk

/-!
# Archives arranged in other ways

The order of the entries, the order of the messages and how they are distributed over entries do
not show in what is read: `arrangement_invisible`.
-/

namespace ScanArchive

/-- Two outcomes of the same kind; the values, if there are any, are related. -/
inductive Alike {α : Type} (related : α → α → Prop) : Except Error α → Except Error α → Prop
  | ok {a b : α} (h : related a b) : Alike related (.ok a) (.ok b)
  | error (e e' : Error) : Alike related (.error e) (.error e')

theorem Alike.of_imp {α : Type} {related : α → α → Prop} {x y : Except Error α}
    (hxy : ∀ a, x = .ok a → ∃ b, y = .ok b ∧ related a b)
    (hyx : ∀ b, y = .ok b → ∃ a, x = .ok a ∧ related b a) : Alike related x y := by
  cases x with
  | ok a =>
    obtain ⟨b, rfl, hab⟩ := hxy a rfl
    exact .ok hab
  | error e =>
    cases y with
    | ok b =>
      obtain ⟨a, ha, -⟩ := hyx b rfl
      cases ha
    | error e' => exact .error e e'

theorem Alike.exists_of_ok {α : Type} {related : α → α → Prop} {x y : Except Error α} {a : α}
    (h : Alike related x y) (hx : x = .ok a) : ∃ b, y = .ok b ∧ related a b := by
  subst hx
  cases h with
  | ok hab => exact ⟨_, rfl, hab⟩

/-! ## 1. Entries in another order -/

theorem Chunk.merge_perm {chunks chunks' : List Chunk} (h : chunks.Perm chunks') :
    (merge chunks).toList.Perm (merge chunks').toList := by
  refine perm_iff.2 fun n => ?_
  rw [mem_merge, mem_merge]
  simp only [h.mem_iff]

theorem Source.exists_readAll_of_perm {entries entries' : List Entry} (h : entries.Perm entries')
    {c : Contents} (hread : readAll (.ofEntries entries) = .ok c) :
    ∃ c', readAll (.ofEntries entries') = .ok c' ∧
      c.version = c'.version ∧ c.header = c'.header ∧ c.chunks.Perm c'.chunks := by
  obtain ⟨decoded, hdecoded, hheaders, hchunks⟩ := readAll_eq_ok_iff.1 hread
  obtain ⟨decoded', hdecoded', hperm⟩ := List.perm_comp_forall₂ h.symm hdecoded
  have hone := hperm.filterMap DecodedEntry.header?
  rw [hheaders, List.perm_singleton] at hone
  refine ⟨⟨c.version, c.header, decoded'.filterMap (·.chunk?)⟩, ?_, rfl, rfl, ?_⟩
  · exact readAll_eq_ok_iff.2 ⟨decoded', hdecoded', hone, rfl⟩
  · rw [← hchunks]
    exact (hperm.filterMap _).symm

/-! ## 2. Messages in another order and in other entries -/

namespace Encoding

variable {encoding : Encoding} {bodies : List Bytes} {nodes : List Node}

theorem mapM_accept_cons_eq_ok_iff {body : Bytes} :
    (body :: bodies).mapM encoding.accept = .ok nodes ↔
      ∃ n rest, encoding.accept body = .ok n ∧ bodies.mapM encoding.accept = .ok rest ∧
        nodes = n :: rest := by
  rw [List.mapM_cons]
  simp only [bind, Except.bind, pure, Except.pure]
  cases encoding.accept body with
  | error e => simp
  | ok n => cases bodies.mapM encoding.accept <;> simp [eq_comm]

theorem exists_mapM_accept (h : ∀ body ∈ bodies, ∃ n, encoding.accept body = .ok n) :
    ∃ nodes, bodies.mapM encoding.accept = .ok nodes := by
  induction bodies with
  | nil => exact ⟨[], rfl⟩
  | cons body bodies ih =>
    obtain ⟨n, hn⟩ := h body List.mem_cons_self
    obtain ⟨rest, hrest⟩ := ih fun b hb => h b (List.mem_cons_of_mem _ hb)
    exact ⟨n :: rest, mapM_accept_cons_eq_ok_iff.2 ⟨n, rest, hn, hrest, rfl⟩⟩

theorem accept_of_mapM_accept (h : bodies.mapM encoding.accept = .ok nodes) :
    ∀ body ∈ bodies, ∃ n, encoding.accept body = .ok n := by
  induction bodies generalizing nodes with
  | nil => exact fun body hbody => nomatch hbody
  | cons body bodies ih =>
    obtain ⟨n, rest, hn, hrest, -⟩ := mapM_accept_cons_eq_ok_iff.1 h
    exact List.forall_mem_cons.2 ⟨⟨n, hn⟩, ih hrest⟩

theorem mem_of_mapM_accept (h : bodies.mapM encoding.accept = .ok nodes) {n : Node} :
    n ∈ nodes ↔ ∃ body ∈ bodies, encoding.accept body = .ok n := by
  induction bodies generalizing nodes with
  | nil =>
    cases h
    simp
  | cons body bodies ih =>
    obtain ⟨m, rest, hm, hrest, rfl⟩ := mapM_accept_cons_eq_ok_iff.1 h
    rw [List.mem_cons, List.exists_mem_cons_iff, ih hrest, hm, Except.ok.injEq, eq_comm]

end Encoding

/-- A chunk entry that holds some messages, well-formed or not. -/
def Entry.ofBodies (version : Int16) (part : String × List Bytes) : Entry :=
  ⟨part.1, Framing.encodePrefix .chunk version ++ part.2.flatMap Wire.delimited⟩

open Framing

section

variable {version : Int16} {p : Provider} {parts parts' : List (String × List Bytes)}

theorem Entry.decode_ofBodies (hp : Registry.builtin.provider version = .ok p) (name : String)
    {bodies : List Bytes} (hshort : Short bodies) :
    (ofBodies version (name, bodies)).decode
      = (bodies.mapM p.encoding.accept).map fun nodes =>
          { name, size := (ofBodies version (name, bodies)).data.length, version,
            contents := .chunk (Chunk.ofList nodes) } := by
  have hdecode := decode_of_gives
    (gives_readContents_chunk (gives_readChunkBody_bodies hp hshort)) name
  rw [ofBodies, hdecode]
  cases bodies.mapM p.encoding.accept <;> rfl

theorem exists_provider_of_decodes (hparts : parts ≠ []) {decoded : List DecodedEntry}
    (h : List.Forall₂ Entry.Decodes (parts.map (Entry.ofBodies version)) decoded) :
    ∃ p, Registry.builtin.provider version = .ok p := by
  obtain ⟨part, parts, rfl⟩ := List.exists_cons_of_ne_nil hparts
  obtain ⟨d, _, hd, -⟩ := List.forall₂_cons_left_iff.1 h
  cases hp : Registry.builtin.provider version with
  | ok p => exact ⟨p, rfl⟩
  | error e =>
    have hdecode := Entry.decode_of_gives
      (gives_readContents_chunk (gives_readChunkBody_of_unknown hp (part.2.flatMap Wire.delimited)))
      part.1
    cases hdecode.symm.trans hd

theorem of_decodes_ofBodies (hp : Registry.builtin.provider version = .ok p)
    (hshort : Short (parts.flatMap (·.2))) {decoded : List DecodedEntry}
    (h : List.Forall₂ Entry.Decodes (parts.map (Entry.ofBodies version)) decoded) :
    (∀ body ∈ parts.flatMap (·.2), ∃ n, p.encoding.accept body = .ok n) ∧
      decoded.filterMap (·.header?) = [] ∧
      ∀ n, (∃ chunk ∈ decoded.filterMap (·.chunk?), n ∈ chunk) ↔
        ∃ body ∈ parts.flatMap (·.2), p.encoding.accept body = .ok n := by
  -- entry by entry; the messages of each are a part of all messages
  induction parts generalizing decoded with
  | nil =>
    cases h
    simp
  | cons part parts ih =>
    obtain ⟨name, bodies⟩ := part
    rw [List.flatMap_cons] at hshort ⊢
    obtain ⟨hbodies, hothers⟩ := List.forall_mem_append.1 hshort
    obtain ⟨d, rest, hd, hrest, rfl⟩ := List.forall₂_cons_left_iff.1 h
    obtain ⟨haccept, hheaders, hchunks⟩ := ih hothers hrest
    rw [Entry.Decodes, Entry.decode_ofBodies hp name hbodies] at hd
    cases hnodes : bodies.mapM p.encoding.accept with
    | error e => rw [hnodes] at hd; cases hd
    | ok nodes =>
      rw [hnodes] at hd
      cases hd
      refine ⟨?_, hheaders, fun n => ?_⟩
      · exact List.forall_mem_append.2 ⟨Encoding.accept_of_mapM_accept hnodes, haccept⟩
      · simp only [List.filterMap_cons, DecodedEntry.chunk?, List.exists_mem_cons_iff,
          Chunk.mem_ofList, Encoding.mem_of_mapM_accept hnodes, List.mem_append, or_and_right,
          exists_or]
        exact or_congr_right (hchunks n)

theorem exists_decodes_ofBodies (hp : Registry.builtin.provider version = .ok p)
    (hshort : Short (parts.flatMap (·.2)))
    (haccept : ∀ body ∈ parts.flatMap (·.2), ∃ n, p.encoding.accept body = .ok n) :
    ∃ decoded, List.Forall₂ Entry.Decodes (parts.map (Entry.ofBodies version)) decoded := by
  induction parts with
  | nil => exact ⟨[], .nil⟩
  | cons part parts ih =>
    obtain ⟨name, bodies⟩ := part
    rw [List.flatMap_cons] at hshort haccept
    obtain ⟨hbodies, hothers⟩ := List.forall_mem_append.1 hshort
    obtain ⟨hfirst, hrest⟩ := List.forall_mem_append.1 haccept
    obtain ⟨nodes, hnodes⟩ := Encoding.exists_mapM_accept hfirst
    obtain ⟨decoded, hdecoded⟩ := ih hothers hrest
    have hdecode := Entry.decode_ofBodies hp name hbodies
    rw [hnodes] at hdecode
    exact ⟨_, .cons hdecode hdecoded⟩

theorem Source.exists_readAll_of_same_bodies (fixed : List Entry) (hparts : parts ≠ [])
    (hsame : ∀ body, body ∈ parts.flatMap (·.2) ↔ body ∈ parts'.flatMap (·.2))
    (hshort : Short (parts.flatMap (·.2))) {c : Contents}
    (hread : readAll (.ofEntries (fixed ++ parts.map (Entry.ofBodies version))) = .ok c) :
    ∃ c', readAll (.ofEntries (fixed ++ parts'.map (Entry.ofBodies version))) = .ok c' ∧
      c.version = c'.version ∧ c.header = c'.header ∧ c.nodes.toList.Perm c'.nodes.toList := by
  obtain ⟨decoded, hdecoded, hheaders, hchunks⟩ := readAll_eq_ok_iff.1 hread
  obtain ⟨front, back, hfront, hback, rfl⟩ : ∃ front back,
      List.Forall₂ Entry.Decodes fixed front ∧
      List.Forall₂ Entry.Decodes (parts.map (Entry.ofBodies version)) back ∧
      decoded = front ++ back :=
    ⟨_, _, (List.forall₂_take_append _ _ _ hdecoded.flip).flip,
      (List.forall₂_drop_append _ _ _ hdecoded.flip).flip, (List.take_append_drop _ _).symm⟩
  obtain ⟨p, hp⟩ := exists_provider_of_decodes hparts hback
  obtain ⟨haccept, hnone, hnodes⟩ := of_decodes_ofBodies hp hshort hback
  -- the same messages are accepted wherever they are
  have hshort' : Short (parts'.flatMap (·.2)) := fun body hbody =>
    hshort body ((hsame body).2 hbody)
  obtain ⟨back', hback'⟩ := exists_decodes_ofBodies hp hshort'
    fun body hbody => haccept body ((hsame body).2 hbody)
  obtain ⟨-, hnone', hnodes'⟩ := of_decodes_ofBodies hp hshort' hback'
  rw [List.filterMap_append, hnone, List.append_nil] at hheaders
  refine ⟨⟨c.version, c.header, (front ++ back').filterMap (·.chunk?)⟩, ?_, rfl, rfl, ?_⟩
  · refine readAll_eq_ok_iff.2 ⟨_, List.rel_append hfront hback', ?_, rfl⟩
    rw [List.filterMap_append, hnone', List.append_nil]
    exact hheaders
  · refine Chunk.perm_iff.2 fun n => ?_
    have hback_iff : (∃ chunk ∈ back.filterMap (·.chunk?), n ∈ chunk) ↔
        ∃ chunk ∈ back'.filterMap (·.chunk?), n ∈ chunk := by
      rw [hnodes, hnodes']
      simp only [hsame]
    rw [Contents.nodes, Contents.nodes, ← hchunks, Chunk.mem_merge, Chunk.mem_merge]
    simp only [List.filterMap_append, List.mem_append, or_and_right, exists_or, hback_iff]

end

/-! ## 3. Both -/

/--
Of the same entries in another order, the same is read.  Of the same messages in another order, as
often as they are and in whichever entries of their version, the same nodes are read.  Messages
must be short enough to have a length, as all are that fit into memory.
-/
theorem arrangement_invisible :
    (∀ entries entries' : List Entry, entries.Perm entries' →
      Alike (fun c c' : Contents => c.version = c'.version ∧ c.header = c'.header ∧
          c.chunks.Perm c'.chunks ∧ c.nodes.toList.Perm c'.nodes.toList)
        (Source.readAll (.ofEntries entries)) (Source.readAll (.ofEntries entries'))) ∧
    (∀ (header : Entry) (version : Int16) (parts parts' : List (String × List Bytes)),
      parts ≠ [] → parts' ≠ [] →
      (∀ body, body ∈ parts.flatMap (·.2) ↔ body ∈ parts'.flatMap (·.2)) →
      Short (parts.flatMap (·.2)) →
        Alike (fun c c' : Contents => c.version = c'.version ∧ c.header = c'.header ∧
            c.nodes.toList.Perm c'.nodes.toList)
          (Source.readAll (.ofEntries (header :: parts.map (Entry.ofBodies version))))
          (Source.readAll (.ofEntries (header :: parts'.map (Entry.ofBodies version))))) := by
  constructor
  · have hread : ∀ entries entries' : List Entry, entries.Perm entries' →
        ∀ c, Source.readAll (.ofEntries entries) = .ok c →
          ∃ c', Source.readAll (.ofEntries entries') = .ok c' ∧
            c.version = c'.version ∧ c.header = c'.header ∧
            c.chunks.Perm c'.chunks ∧ c.nodes.toList.Perm c'.nodes.toList := by
      intro entries entries' hperm c hc
      obtain ⟨c', hc', hversion, hheader, hchunks⟩ := Source.exists_readAll_of_perm hperm hc
      exact ⟨c', hc', hversion, hheader, hchunks, Chunk.merge_perm hchunks⟩
    -- as either order may come first, a failure in one is a failure in the other
    intro entries entries' hperm
    exact .of_imp (hread _ _ hperm) (hread _ _ hperm.symm)
  · intro header version parts parts' hparts hparts' hsame hshort
    have hshort' : Short (parts'.flatMap (·.2)) := fun body hbody =>
      hshort body ((hsame body).2 hbody)
    refine .of_imp (fun c hc => ?_) (fun c hc => ?_)
    · exact Source.exists_readAll_of_same_bodies [header] hparts hsame hshort hc
    · exact Source.exists_readAll_of_same_bodies [header] hparts' (fun body => (hsame body).symm)
        hshort' hc

/-- Remarks are read from behind the header, from before it, and from entries that share them. -/
theorem remarks_rearranged :
    ∃ (header : Entry) (a b : Bytes) (c c' c'' : Contents),
      a = Encoding.enveloped.nodeBody (.remark "a") ∧
      b = Encoding.enveloped.nodeBody (.remark "b") ∧
      Source.readAll (.ofEntries
        [header, .ofBodies Layout.version2 (Layout.chunkName 0, [a, b])]) = .ok c ∧
      Source.readAll (.ofEntries
        [.ofBodies Layout.version2 (Layout.chunkName 0, [a, b]), header]) = .ok c' ∧
      Source.readAll (.ofEntries (header :: [("b", [b]), ("none", []), ("aba", [a, b, a])].map
        (.ofBodies Layout.version2))) = .ok c'' ∧
      c.nodes.toList.Perm [.remark "a", .remark "b"] ∧
      c.nodes.toList.Perm c'.nodes.toList ∧ c.nodes.toList.Perm c''.nodes.toList := by
  obtain ⟨c, hc, hnodes⟩ : ∃ c, Source.readAll (.ofEntries
      [Provider.headerEntry ⟨Layout.version2, .enveloped⟩ { id := "abc" },
        .ofBodies Layout.version2 (Layout.chunkName 0,
          [Encoding.enveloped.nodeBody (.remark "a"), Encoding.enveloped.nodeBody (.remark "b")])])
        = .ok c ∧ c.nodes.toList.Perm [.remark "a", .remark "b"] :=
    ⟨_, readAll_remarks, Chunk.merge_ofList_perm [[.remark "a", .remark "b"]]⟩
  have hshort : Short [Encoding.enveloped.nodeBody (.remark "a"),
      Encoding.enveloped.nodeBody (.remark "b")] :=
    short_of_readable readable_remarks
  obtain ⟨hperm, hsame⟩ := arrangement_invisible
  have hbodies : ∀ a b body : Bytes, body ∈ [(Layout.chunkName 0, [a, b])].flatMap (·.2) ↔
      body ∈ [("b", [b]), ("none", []), ("aba", [a, b, a])].flatMap (·.2) := by
    intro a b body
    simp only [List.flatMap_cons, List.flatMap_nil, List.append_nil, List.mem_append, List.mem_cons,
      List.not_mem_nil]
    tauto
  obtain ⟨c', hc', -, -, -, hnodes'⟩ := (hperm _ _ (.swap _ _ [])).exists_of_ok hc
  obtain ⟨c'', hc'', -, -, hnodes''⟩ := (hsame _ Layout.version2 _ _ (List.cons_ne_nil _ _)
    (List.cons_ne_nil _ _) (hbodies _ _) hshort).exists_of_ok hc
  exact ⟨_, _, _, c, c', c'', rfl, rfl, hc, hc', hc'', hnodes, hnodes', hnodes''⟩

end ScanArchive
