import Mathlib
import ScanArchive.Proofs.Encoding

/-!
# The types that envelopes are read as

An envelope is read as the message that its type URL names.  Main statements: `header_type_rule`,
whatever stands before the slash does not matter, for headers as little as for nodes; a URL that is
a bare name, without any slash, is one for nodes and is refused for headers.  `node_type_rule`, of
the kinds that are looked for only their set matters.
-/

namespace ScanArchive

open Wire

/-! ## 1. Type URLs -/

theorem Schema.typeName_eq_iff {url name : String} (h : '/' ∉ name.toList) :
    typeName url = name ↔ url = name ∨ ∃ host, url = host ++ "/" ++ name := by
  constructor
  · intro hname
    -- what stands before the name is nothing, or ends with a slash
    set behind := url.toList.reverse.takeWhile (· != '/') with hbehind
    have hname : name.toList = behind.reverse := by
      rw [← hname, typeName, String.toList_ofList]
    have hurl : url.toList
        = (url.toList.reverse.dropWhile (· != '/')).reverse ++ name.toList := by
      rw [hname, hbehind, ← List.reverse_append, List.takeWhile_append_dropWhile,
        List.reverse_reverse]
    cases hfront : url.toList.reverse.dropWhile (· != '/') with
    | nil =>
      rw [hfront] at hurl
      exact .inl (String.toList_injective hurl)
    | cons c front =>
      have hne : url.toList.reverse.dropWhile (· != '/') ≠ [] := by
        rw [hfront]
        exact List.cons_ne_nil c front
      have hslash := List.head_dropWhile_not (· != '/') hne
      simp only [hfront, List.head_cons, bne_eq_false_iff_eq] at hslash
      refine .inr ⟨String.ofList front.reverse, String.toList_injective ?_⟩
      rw [hurl, hfront, hslash]
      simp
  · rintro (rfl | ⟨host, rfl⟩)
    · have hall : ∀ c ∈ url.toList.reverse, (c != '/') = true := fun c hc =>
        bne_iff_ne.2 fun heq => h (heq ▸ List.mem_reverse.1 hc)
      rw [typeName, List.takeWhile_eq_self_iff.2 hall, List.reverse_reverse, String.ofList_toList]
    · exact typeName_append h

/-- The name stands behind the last slash of the URL, or is the whole URL if that has no slash. -/
def Schema.Names (url name : String) : Prop :=
  '/' ∉ name.toList ∧ (url = name ∨ ∃ host, url = host ++ "/" ++ name)

theorem Schema.slash_notMem_typeName (url : String) : '/' ∉ (typeName url).toList := by
  rw [typeName, String.toList_ofList, List.mem_reverse]
  intro hslash
  have hother := List.mem_takeWhile_imp hslash
  simp at hother

theorem Schema.names_iff {url name : String} : Names url name ↔ typeName url = name := by
  constructor
  · rintro ⟨hslash, hurl⟩
    exact (typeName_eq_iff hslash).2 hurl
  · intro hname
    have hslash : '/' ∉ name.toList := hname ▸ slash_notMem_typeName url
    exact ⟨hslash, (typeName_eq_iff hslash).1 hname⟩

/-! ## 2. Where decoding fails -/

namespace Wire

/-- An error outside of any field, or in a field of the named message. -/
def DecodeError.Within (message : String) (e : DecodeError) : Prop :=
  e.path = [] ∨ ∃ field, e.path.getLast? = some ⟨message, field⟩

theorem path_of_readVarint {bytes : Bytes} {e : DecodeError}
    (h : readVarint bytes = .error e) : e.path = [] := by
  unfold readVarint at h
  split at h <;> cases h
  rfl

theorem Key.path_of_read {bytes : Bytes} {e : DecodeError} (h : Key.read bytes = .error e) :
    e.path = [] := by
  unfold Key.read at h
  split at h
  · cases h
    exact path_of_readVarint ‹_›
  · repeat' split at h
    all_goals cases h
    all_goals rfl

theorem path_of_skipValue {wireType : WireType} {bytes : Bytes} {e : DecodeError}
    (h : skipValue wireType bytes = .error e) : e.path = [] := by
  cases wireType with
  | varint =>
    cases hv : readVarint bytes with
    | error e' =>
      simp only [skipValue, hv, Except.map, Except.error.injEq] at h
      exact h ▸ path_of_readVarint hv
    | ok found => simp [skipValue, hv, Except.map] at h
  | sixtyFourBit =>
    simp only [skipValue] at h
    split at h <;> cases h
    rfl
  | thirtyTwoBit =>
    simp only [skipValue] at h
    split at h <;> cases h
    rfl
  | lengthDelimited =>
    simp only [skipValue] at h
    split at h
    · cases h
      exact path_of_readVarint ‹_›
    · split at h <;> cases h
      rfl
  | startGroup =>
    cases h
    rfl
  | endGroup =>
    cases h
    rfl

theorem path_of_skipGroups {limit : Nat} {openTags : List Nat} {bytes : Bytes} {e : DecodeError} :
    skipGroups limit openTags bytes = .error e → e.path = [] := by
  -- key by key; what is passed over is in no field
  fun_induction skipGroups limit openTags bytes with
  | case1 => rintro ⟨⟩
  | case2 bytes tag outer e' hk =>
    rintro ⟨⟩
    exact Key.path_of_read hk
  | case3 bytes outer key tail hk _ _ ih => exact ih
  | case4 =>
    rintro ⟨⟩
    rfl
  | case5 bytes tag outer key tail hk _ _ hlim =>
    rw [if_pos hlim]
    rintro ⟨⟩
    rfl
  | case6 bytes tag outer key tail hk _ _ hstart hlim ih =>
    rw [if_neg hlim, if_pos hstart]
    exact ih
  | case7 bytes tag outer key tail hk _ _ hstart e' hs hlim =>
    rw [if_neg hlim, if_neg hstart]
    split <;> rename_i hs' <;> rw [hs] at hs' <;> cases hs'
    rintro ⟨⟩
    exact path_of_skipValue hs
  | case8 bytes tag outer key tail hk _ _ hstart tail' hs _ hlim ih =>
    rw [if_neg hlim, if_neg hstart]
    split <;> rename_i hs' <;> rw [hs] at hs' <;> cases hs'
    exact ih

theorem path_of_skipField {depth : Nat} {key : Key} {bytes : Bytes} {e : DecodeError}
    (h : skipField depth key bytes = .error e) : e.path = [] := by
  unfold skipField at h
  split at h
  · cases h
    rfl
  · split at h
    · exact path_of_skipGroups h
    · exact path_of_skipValue h

namespace Message

variable {σ : Type} {m : Message σ} {name : String} {e : DecodeError}

theorem within_of_mergeField (hname : m.name = some name) {depth : Nat} {s : σ} {bytes : Bytes}
    (h : m.mergeField depth s bytes = .error e) : e.Within name := by
  unfold mergeField at h
  split at h
  · cases h
    exact .inl (Key.path_of_read ‹_›)
  · rename_i key rest hk
    split at h
    · rename_i field hfield
      cases hm : field.merge depth key.wireType s rest with
      | ok found => simp [hm, Except.mapError] at h
      | error e' =>
        simp only [hm, Except.mapError, Except.error.injEq, locate, hname] at h
        exact .inr ⟨field.name, by rw [← h, DecodeError.within, List.getLast?_concat]⟩
    · cases hs : skipField depth key rest with
      | ok found => simp [hs, Except.map] at h
      | error e' =>
        simp only [hs, Except.map, Except.error.injEq] at h
        exact .inl (h ▸ path_of_skipField hs)

/-- Every error of decoding a named message lies outside of any field or in one of its fields. -/
theorem within_of_decode (hname : m.name = some name) {bytes : Bytes}
    (h : m.decode bytes = .error e) : e.Within name := by
  have hrun : ∀ s bytes, (m.step maxDepth).repeatUntil 0 s bytes = .error e → e.Within name := by
    intro s bytes
    fun_induction Step.repeatUntil (m.step maxDepth) 0 s bytes with
    | case1 => rintro ⟨⟩
    | case2 s bytes hne e' hstep =>
      rintro ⟨⟩
      exact within_of_mergeField hname hstep
    | case3 s bytes hne s' rest hstep hlt ih => exact ih
  refine hrun m.initial bytes ?_
  cases hr : (m.step maxDepth).repeatUntil 0 m.initial bytes with
  | ok found => simp [decode, hr, Except.map] at h
  | error e' =>
    simp only [decode, hr, Except.map, Except.error.injEq] at h
    rw [h]

end Message
end Wire

/-! ## 3. Headers and nodes by the names of their types -/

namespace Envelope

/-- The error with which a header is refused whose type URL is a bare name. -/
def bareNameError : DecodeError where
  fault := .wrongTypeUrl (Schema.typeUrl Header.messageName) (Schema.fullName Header.messageName)
  path := [⟨"unexpected type URL", "type_url"⟩]

theorem slash_notMem_headerName : '/' ∉ (Schema.fullName Header.messageName).toList := by decide

variable {e : Envelope}

theorem header_of_host {host : String}
    (hurl : e.typeUrl = host ++ "/" ++ Schema.fullName Header.messageName) :
    e.header = (Header.message.decode e.value).mapError .decode := by
  have hname : e.typeName = Schema.fullName Header.messageName := by
    rw [typeName, hurl, Schema.typeName_append slash_notMem_headerName]
  have hslash : e.typeUrl.toList.contains '/' = true := by
    rw [hurl, List.contains_iff_mem, String.toList_append, String.toList_append]
    simp
  rw [header, if_neg (fun hne => hne hname), if_pos hslash]

theorem header_of_name (hurl : e.typeUrl = Schema.fullName Header.messageName) :
    e.header = .error (.decode bareNameError) := by
  have hname : e.typeName = Schema.fullName Header.messageName := by
    rw [typeName, hurl]
    exact (Schema.typeName_eq_iff slash_notMem_headerName).2 (.inl rfl)
  have hslash : ¬ e.typeUrl.toList.contains '/' = true := by
    rw [hurl, List.contains_iff_mem]
    exact slash_notMem_headerName
  rw [header, if_neg (fun hne => hne hname), if_neg hslash, hurl, bareNameError]

theorem header_of_other (hurl : e.typeName ≠ Schema.fullName Header.messageName) :
    e.header = .error (.unknownHeaderType e.typeUrl) := if_pos hurl

/-- A header that fails to decode fails in another way than one with a bare name. -/
theorem decode_ne_bareNameError (bytes : Bytes) :
    Header.message.decode bytes ≠ .error bareNameError := by
  intro h
  have hname : Header.message.name = some Header.messageName := rfl
  rcases Message.within_of_decode hname h with hpath | ⟨field, hpath⟩
  · cases hpath
  · have hplace : "unexpected type URL" = Header.messageName :=
      congrArg Place.message (Option.some.inj hpath)
    exact absurd hplace (by decide)

/-- The header that a type URL asks for, if what stands before the name does not matter. -/
def headerByName (e : Envelope) : Except Error Header :=
  if e.typeName = Schema.fullName Header.messageName then
    (Header.message.decode e.value).mapError .decode
  else .error (.unknownHeaderType e.typeUrl)

/-- Headers are read by their names alone, except that the name must stand behind a slash. -/
theorem header_eq_headerByName_iff :
    e.header = e.headerByName ↔ e.typeUrl ≠ Schema.fullName Header.messageName := by
  by_cases hname : e.typeName = Schema.fullName Header.messageName
  · rw [headerByName, if_pos hname]
    rcases (Schema.typeName_eq_iff slash_notMem_headerName).1 hname with hurl | ⟨host, hurl⟩
    · refine iff_of_false (fun heq => ?_) (fun hne => hne hurl)
      rw [header_of_name hurl] at heq
      cases hdecode : Header.message.decode e.value with
      | ok h => simp [hdecode, Except.mapError] at heq
      | error fault =>
        simp only [hdecode, Except.mapError, Except.error.injEq, Error.decode.injEq] at heq
        exact decode_ne_bareNameError e.value (hdecode.trans (congrArg _ heq.symm))
    · refine iff_of_true (header_of_host hurl) fun hbare => ?_
      refine slash_notMem_headerName ?_
      rw [← hbare, hurl, String.toList_append, String.toList_append]
      simp
  · rw [headerByName, if_neg hname]
    refine iff_of_true (header_of_other hname) fun hbare => hname ?_
    rw [typeName, hbare]
    exact (Schema.typeName_eq_iff slash_notMem_headerName).2 (.inl rfl)

theorem node_of_typeName {kinds : List NodeKind} {kind : NodeKind} (hkind : kind ∈ kinds)
    (hname : e.typeName = kind.fullName) :
    e.node kinds = (kind.decode e.value).mapError .decode := by
  rw [node, hname, NodeKind.find?_fullName hkind]

end Envelope

namespace Encoding

variable {e : Envelope}

theorem decodeHeader_envelope (hsize : (Envelope.message.encode e).length < UInt64.size) :
    enveloped.decodeHeader (Envelope.message.encode e) = e.header := by
  rw [decodeHeader, Envelope.lossless.decode_encode hsize, mapError_ok_bind]

theorem decodeNode_envelope (hsize : (Envelope.message.encode e).length < UInt64.size) :
    enveloped.decodeNode (Envelope.message.encode e) = e.node (kinds .enveloped) := by
  rw [decodeNode, Envelope.lossless.decode_encode hsize, mapError_ok_bind]

/--
The header in any envelope: behind a slash, the name of the header message makes the value be
read, whatever stands before the slash; any other name is an unknown type.  The bare name is an
error of its own, although nodes are read by theirs; that is the only type URL for which headers
do not keep to the rule of nodes.
-/
theorem header_type_rule (hsize : (Envelope.message.encode e).length < UInt64.size) :
    (∀ host, e.typeUrl = host ++ "/" ++ Schema.fullName Header.messageName →
      enveloped.decodeHeader (Envelope.message.encode e)
        = (Header.message.decode e.value).mapError .decode) ∧
    (e.typeUrl = Schema.fullName Header.messageName →
      enveloped.decodeHeader (Envelope.message.encode e)
        = .error (.decode Envelope.bareNameError)) ∧
    (e.typeName ≠ Schema.fullName Header.messageName →
      enveloped.decodeHeader (Envelope.message.encode e)
        = .error (.unknownHeaderType e.typeUrl)) ∧
    (e.typeName = Schema.fullName Header.messageName ↔
      e.typeUrl = Schema.fullName Header.messageName ∨
        ∃ host, e.typeUrl = host ++ "/" ++ Schema.fullName Header.messageName) ∧
    (enveloped.decodeHeader (Envelope.message.encode e) = e.headerByName ↔
      e.typeUrl ≠ Schema.fullName Header.messageName) ∧
    (∀ kind ∈ kinds .enveloped, e.typeName = kind.fullName →
      enveloped.decodeNode (Envelope.message.encode e)
        = (kind.decode e.value).mapError .decode) := by
  rw [decodeHeader_envelope hsize, decodeNode_envelope hsize]
  exact ⟨fun _ => Envelope.header_of_host, Envelope.header_of_name, Envelope.header_of_other,
    Schema.typeName_eq_iff Envelope.slash_notMem_headerName,
    Envelope.header_eq_headerByName_iff, fun _ => Envelope.node_of_typeName⟩

theorem foreign_host_rule :
    let e : Envelope := ⟨"example.org/x/" ++ Schema.fullName Header.messageName,
      Header.message.encode { id := "abc" }⟩
    (Envelope.message.encode e).length < UInt64.size ∧
      enveloped.decodeHeader (Envelope.message.encode e)
        = (Header.message.decode e.value).mapError .decode ∧
      (enveloped.decodeHeader (Envelope.message.encode e) = e.headerByName ↔
        e.typeUrl ≠ Schema.fullName Header.messageName) := by
  intro e
  have hsize : (Envelope.message.encode e).length < UInt64.size := by decide +kernel
  have hrule := header_type_rule hsize
  exact ⟨hsize, hrule.1 "example.org/x" (by decide), hrule.2.2.2.2.1⟩

/-- A header whose type URL is the bare name is refused, and so treated otherwise than a node. -/
theorem bare_header_name_refused :
    let header : Envelope := ⟨Schema.fullName Header.messageName,
      Header.message.encode { id := "abc" }⟩
    let file : Envelope := ⟨NodeKind.file.fullName, []⟩
    header.typeName = Schema.fullName Header.messageName ∧
      Header.message.decode header.value = .ok { id := "abc" } ∧
      enveloped.decodeHeader (Envelope.message.encode header)
        = .error (.decode Envelope.bareNameError) ∧
      enveloped.decodeNode (Envelope.message.encode file) = .ok (.file {}) := by
  decide +kernel

end Encoding

/-! ## 4. Nodes of some kinds -/

namespace NodeKind

variable {kind other : NodeKind} {url : String}

theorem slash_notMem_fullName (kind : NodeKind) : '/' ∉ kind.fullName.toList :=
  Schema.slash_notMem_fullName kind.slash_notMem_messageName

theorem names_of_host (kind : NodeKind) (host : String) :
    Schema.Names (host ++ "/" ++ kind.fullName) kind.fullName :=
  ⟨kind.slash_notMem_fullName, .inr ⟨host, rfl⟩⟩

theorem eq_of_names (h : Schema.Names url kind.fullName)
    (hother : Schema.Names url other.fullName) : kind = other :=
  fullName_injective ((Schema.names_iff.1 h).symm.trans (Schema.names_iff.1 hother))

end NodeKind

namespace Envelope

variable {e : Envelope} {kinds : List NodeKind} {kind : NodeKind}

theorem node_of_names (hkind : kind ∈ kinds) (hname : Schema.Names e.typeUrl kind.fullName) :
    e.node kinds = (kind.decode e.value).mapError .decode :=
  node_of_typeName hkind (Schema.names_iff.1 hname)

theorem node_of_unnamed (h : ∀ kind ∈ kinds, ¬ Schema.Names e.typeUrl kind.fullName) :
    e.node kinds = .error (.unknownMessageType e.typeUrl) := by
  have hnone : kinds.find? (·.fullName = e.typeName) = none := by
    refine List.find?_eq_none.2 fun kind hkind hname => h kind hkind ?_
    exact Schema.names_iff.2 (of_decide_eq_true hname).symm
  rw [node, hnone]

theorem node_cases (e : Envelope) (kinds : List NodeKind) :
    (∃ kind ∈ kinds, Schema.Names e.typeUrl kind.fullName ∧
      e.node kinds = (kind.decode e.value).mapError .decode) ∨
    (∀ kind ∈ kinds, ¬ Schema.Names e.typeUrl kind.fullName) ∧
      e.node kinds = .error (.unknownMessageType e.typeUrl) := by
  by_cases h : ∃ kind ∈ kinds, Schema.Names e.typeUrl kind.fullName
  · obtain ⟨kind, hkind, hname⟩ := h
    exact .inl ⟨kind, hkind, hname, node_of_names hkind hname⟩
  · have hnone : ∀ kind ∈ kinds, ¬ Schema.Names e.typeUrl kind.fullName :=
      fun kind hkind hname => h ⟨kind, hkind, hname⟩
    exact .inr ⟨hnone, node_of_unnamed hnone⟩

theorem node_eq_iff {result : Except Error Node} : e.node kinds = result ↔
    (∃ kind ∈ kinds, Schema.Names e.typeUrl kind.fullName ∧
      (kind.decode e.value).mapError .decode = result) ∨
    (∀ kind ∈ kinds, ¬ Schema.Names e.typeUrl kind.fullName) ∧
      .error (.unknownMessageType e.typeUrl) = result := by
  constructor
  · rintro rfl
    rcases e.node_cases kinds with ⟨kind, hkind, hname, hnode⟩ | ⟨hnone, hnode⟩
    · exact .inl ⟨kind, hkind, hname, hnode.symm⟩
    · exact .inr ⟨hnone, hnode.symm⟩
  · rintro (⟨kind, hkind, hname, rfl⟩ | ⟨hnone, rfl⟩)
    · exact node_of_names hkind hname
    · exact node_of_unnamed hnone

variable {decoded : Except DecodeError Node}

theorem mapError_decode_eq_ok_iff {n : Node} :
    decoded.mapError Error.decode = .ok n ↔ decoded = .ok n := by
  cases decoded <;> simp [Except.mapError]

theorem mapError_decode_eq_error_iff {error : Error} :
    decoded.mapError Error.decode = .error error ↔
      ∃ fault, decoded = .error fault ∧ .decode fault = error := by
  cases decoded <;> simp [Except.mapError]

theorem node_eq_ok_iff {n : Node} : e.node kinds = .ok n ↔
    ∃ kind ∈ kinds, Schema.Names e.typeUrl kind.fullName ∧ kind.decode e.value = .ok n := by
  simp [node_eq_iff, mapError_decode_eq_ok_iff]

theorem node_eq_unknown_iff : e.node kinds = .error (.unknownMessageType e.typeUrl) ↔
    ∀ kind ∈ kinds, ¬ Schema.Names e.typeUrl kind.fullName := by
  simp [node_eq_iff, mapError_decode_eq_error_iff]

theorem node_eq_decode_error_iff {fault : DecodeError} : e.node kinds = .error (.decode fault) ↔
    ∃ kind ∈ kinds, Schema.Names e.typeUrl kind.fullName ∧ kind.decode e.value = .error fault := by
  simp [node_eq_iff, mapError_decode_eq_error_iff]

theorem node_congr {kinds' : List NodeKind} (h : ∀ kind, kind ∈ kinds' ↔ kind ∈ kinds) :
    e.node kinds' = e.node kinds := by
  rcases e.node_cases kinds with ⟨kind, hkind, hname, hnode⟩ | ⟨hnone, hnode⟩
  · rw [hnode, node_of_names ((h kind).2 hkind) hname]
  · rw [hnode, node_of_unnamed fun kind hkind => hnone kind ((h kind).1 hkind)]

theorem node_of_host {n : Node} (hsize : n.encode.length < UInt64.size) (host : String) :
    { ofNode n with typeUrl := host ++ "/" ++ n.kind.fullName }.node kinds
      = if n.kind ∈ kinds then .ok n
        else .error (.unknownMessageType (host ++ "/" ++ n.kind.fullName)) := by
  have hname := n.kind.names_of_host host
  by_cases hkind : n.kind ∈ kinds
  · rw [if_pos hkind, node_of_names hkind hname]
    show (n.kind.decode n.encode).mapError _ = _
    rw [Node.decode_encode hsize]
    rfl
  · rw [if_neg hkind]
    refine node_of_unnamed fun kind hlisted hother => hkind ?_
    rwa [NodeKind.eq_of_names hname hother]

/--
The node in any envelope, looked for among any kinds.  It is that of the one kind that the URL
names, with the error of decoding it if there is one; where no kind is named the type is unknown.
So the kinds matter as a set only, and of the URL what stands behind its last slash: a node that
is put into an envelope is found in it behind any host, just if its kind is looked for.
-/
theorem node_type_rule (e : Envelope) (kinds : List NodeKind) :
    (∀ n, e.node kinds = .ok n ↔
      ∃ kind ∈ kinds, Schema.Names e.typeUrl kind.fullName ∧ kind.decode e.value = .ok n) ∧
    (e.node kinds = .error (.unknownMessageType e.typeUrl) ↔
      ∀ kind ∈ kinds, ¬ Schema.Names e.typeUrl kind.fullName) ∧
    (∀ fault, e.node kinds = .error (.decode fault) ↔
      ∃ kind ∈ kinds, Schema.Names e.typeUrl kind.fullName ∧
        kind.decode e.value = .error fault) ∧
    (∀ kinds', (∀ kind, kind ∈ kinds' ↔ kind ∈ kinds) → e.node kinds' = e.node kinds) ∧
    (∀ n host, n.encode.length < UInt64.size →
      { ofNode n with typeUrl := host ++ "/" ++ n.kind.fullName }.node kinds
        = if n.kind ∈ kinds then .ok n
          else .error (.unknownMessageType (host ++ "/" ++ n.kind.fullName))) :=
  ⟨fun _ => node_eq_ok_iff, node_eq_unknown_iff, fun _ => node_eq_decode_error_iff,
    fun _ => node_congr, fun _ host hsize => node_of_host hsize host⟩

/-- The rule for a remark behind another host, looked for twice and then not at all. -/
theorem remark_behind_other_host :
    let n : Node := Node.annotation { id := "a", comment := "b" }
    let e : Envelope := { ofNode n with typeUrl := "example.org/x" ++ "/" ++ n.kind.fullName }
    n.encode.length < UInt64.size ∧
      (∀ kind, kind ∈ [NodeKind.annotation, .file, NodeKind.annotation] ↔
        kind ∈ [NodeKind.file, NodeKind.annotation]) ∧
      e.node [NodeKind.annotation, .file, NodeKind.annotation]
        = e.node [.file, NodeKind.annotation] ∧
      e.node [.file, NodeKind.annotation] = .ok n ∧
      e.node [.file] = .error (.unknownMessageType e.typeUrl) := by
  intro n e
  have hsize : n.encode.length < UInt64.size := by decide +kernel
  have hkinds : ∀ kind, kind ∈ [NodeKind.annotation, .file, NodeKind.annotation] ↔
      kind ∈ [NodeKind.file, NodeKind.annotation] := by
    intro kind
    cases kind <;> decide
  have hlisted := node_type_rule e [.file, NodeKind.annotation]
  have hunlisted := node_type_rule e [.file]
  exact ⟨hsize, hkinds, hlisted.2.2.2.1 _ hkinds, hlisted.2.2.2.2 n "example.org/x" hsize,
    hunlisted.2.2.2.2 n "example.org/x" hsize⟩

end Envelope
end ScanArchive
