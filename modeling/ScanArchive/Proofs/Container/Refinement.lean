import ScanArchive.Proofs.Archive.ReadBack
import ScanArchive.Proofs.Container.Zip.Opening

/-!
# What containers give back

Calls on a container write a list of entries.  Both sinks follow that list call by call, and what
they are finished to gives it back.
-/

namespace ScanArchive

/-! ## 1. Calls and the list that they write -/

inductive SinkCall where
  | startEntry (name : String)
  | writeBytes (bytes : Bytes)

def Entry.addToLast (bytes : Bytes) : List Entry → List Entry
  | [] => []
  | [e] => [⟨e.name, e.data ++ bytes⟩]
  | first :: second :: rest => first :: addToLast bytes (second :: rest)

namespace SinkCall

def extend (entries : List Entry) : SinkCall → List Entry
  | startEntry name => entries ++ [⟨name, []⟩]
  | writeBytes bytes => Entry.addToLast bytes entries

/-- The entries that calls write. -/
def written (calls : List SinkCall) : List Entry := calls.foldl extend []

section

variable {σ ω : Type} [Sink σ ω]

def make : SinkCall → Call σ Unit
  | startEntry name => Sink.startEntry name
  | writeBytes bytes => Sink.writeBytes bytes

def makeAll : List SinkCall → Call σ Unit
  | [] => return ()
  | call :: calls => do
    make call
    makeAll calls

def finishAll (calls : List SinkCall) (s : σ) : Except Error ω :=
  let (outcome, s) := (makeAll calls).run s
  outcome.bind fun () => Sink.finish s

end

theorem addToLast_concat (bytes : Bytes) (front : List Entry) (e : Entry) :
    Entry.addToLast bytes (front ++ [e]) = front ++ [⟨e.name, e.data ++ bytes⟩] := by
  induction front with
  | nil => rfl
  | cons first front ih =>
    cases front with
    | nil => rfl
    | cons second front => exact congrArg (first :: ·) ih

theorem names_addToLast (bytes : Bytes) (entries : List Entry) :
    (Entry.addToLast bytes entries).map (·.name) = entries.map (·.name) := by
  rcases List.eq_nil_or_concat entries with rfl | ⟨front, e, rfl⟩
  · rfl
  · rw [List.concat_eq_append, addToLast_concat, List.map_append, List.map_append]
    rfl

theorem extend_ne_nil {entries : List Entry} (hentries : entries ≠ []) (call : SinkCall) :
    extend entries call ≠ [] := by
  cases call with
  | startEntry name => exact List.append_ne_nil_of_left_ne_nil hentries _
  | writeBytes bytes =>
    intro hnil
    have hnames := names_addToLast bytes entries
    rw [show Entry.addToLast bytes entries = [] from hnil] at hnames
    exact hentries (List.map_eq_nil_iff.1 hnames.symm)

theorem foldl_extend_ne_nil {entries : List Entry} (hentries : entries ≠ [])
    (calls : List SinkCall) : calls.foldl extend entries ≠ [] := by
  induction calls generalizing entries with
  | nil => exact hentries
  | cons call calls ih => exact ih (extend_ne_nil hentries call)

theorem written_ne_nil (name : String) (calls : List SinkCall) :
    written (.startEntry name :: calls) ≠ [] :=
  foldl_extend_ne_nil (List.cons_ne_nil _ _) calls

end SinkCall

/--
Whether a sink follows the list of the entries written so far, as long as it is given names of
some kind and an entry is opened before bytes are written.
-/
structure Sink.Follows {σ ω : Type} [Sink σ ω] (allowed : String → Prop)
    (shows : σ → List Entry → Prop) : Prop where
  startEntry : ∀ {s : σ} {entries : List Entry} {name : String}, shows s entries → allowed name →
    ∃ s', Sink.startEntry name s = (.ok (), s') ∧ shows s' (entries ++ [⟨name, []⟩])
  writeBytes : ∀ {s : σ} {front : List Entry} {e : Entry} (bytes : Bytes), shows s (front ++ [e]) →
    ∃ s', Sink.writeBytes bytes s = (.ok (), s') ∧ shows s' (front ++ [⟨e.name, e.data ++ bytes⟩])

namespace Sink.Follows

open SinkCall

variable {σ ω : Type} [Sink σ ω] {allowed : String → Prop} {shows : σ → List Entry → Prop}
  (hfollows : Follows allowed shows)

include hfollows

theorem make {s : σ} {entries : List Entry} {call : SinkCall} (hs : shows s entries)
    (hentries : entries ≠ []) (hcall : ∀ name, call = .startEntry name → allowed name) :
    ∃ s', SinkCall.make call s = (.ok (), s') ∧ shows s' (extend entries call) := by
  cases call with
  | startEntry name => exact hfollows.startEntry hs (hcall name rfl)
  | writeBytes bytes =>
    rcases List.eq_nil_or_concat entries with rfl | ⟨front, e, rfl⟩
    · exact absurd rfl hentries
    · rw [List.concat_eq_append] at *
      obtain ⟨s', hmade, hs'⟩ := hfollows.writeBytes bytes hs
      rw [← addToLast_concat] at hs'
      exact ⟨s', hmade, hs'⟩

theorem makeAll {s : σ} {entries : List Entry} {calls : List SinkCall} (hs : shows s entries)
    (hentries : entries ≠ []) (hcalls : ∀ name, .startEntry name ∈ calls → allowed name) :
    ∃ s', SinkCall.makeAll calls s = (.ok (), s') ∧ shows s' (calls.foldl extend entries) := by
  -- an entry stays open from one call to the next, so that bytes have a place to go to
  induction calls generalizing s entries with
  | nil => exact ⟨s, rfl, hs⟩
  | cons call calls ih =>
    obtain ⟨s₁, hmade, hs₁⟩ := hfollows.make hs hentries fun name hname =>
      hcalls name (hname ▸ List.mem_cons_self)
    obtain ⟨s', hlater, hs'⟩ := ih hs₁ (extend_ne_nil hentries call) fun name hname =>
      hcalls name (List.mem_cons_of_mem call hname)
    exact ⟨s', (Call.bind_of_ok hmade).trans hlater, hs'⟩

/-- Calls that begin with an entry lead to what shows all that they write. -/
theorem finishAll {s : σ} {name : String} {calls : List SinkCall} (hs : shows s [])
    (hcalls : ∀ n, .startEntry n ∈ .startEntry name :: calls → allowed n) :
    ∃ s', shows s' (written (.startEntry name :: calls)) ∧
      SinkCall.finishAll (.startEntry name :: calls) s = Sink.finish s' := by
  obtain ⟨s₁, hstart, hs₁⟩ := hfollows.startEntry hs (hcalls name List.mem_cons_self)
  obtain ⟨s', hlater, hs'⟩ := hfollows.makeAll hs₁ (List.cons_ne_nil _ _) fun n hn =>
    hcalls n (List.mem_cons_of_mem _ hn)
  refine ⟨s', hs', ?_⟩
  have hmade : SinkCall.makeAll (.startEntry name :: calls) s = (.ok (), s') :=
    (Call.bind_of_ok hstart).trans hlater
  unfold SinkCall.finishAll ExceptT.run
  rw [hmade]
  rfl

end Sink.Follows

/-! ## 2. ZIP files -/

namespace ZipSink

def Shows (method : Zip.Method) (s : ZipSink) (entries : List Entry) : Prop :=
  s.method = method ∧ s.entries = entries

theorem follows (method : Zip.Method) (allowed : String → Prop) :
    Sink.Follows allowed (Shows method) where
  startEntry := by
    rintro ⟨_, written⟩ _ name ⟨rfl, rfl⟩ -
    refine ⟨_, rfl, rfl, ?_⟩
    show ((({ name } : OpenEntry) :: written).map (·.toEntry)).reverse = _
    rw [List.map_cons, List.reverse_cons]
    rfl
  writeBytes := by
    rintro ⟨_, written⟩ front e bytes ⟨rfl, hentries⟩
    change (written.map (·.toEntry)).reverse = front ++ [e] at hentries
    cases written with
    | nil => exact absurd hentries.symm (List.append_ne_nil_of_right_ne_nil _ (List.cons_ne_nil _ _))
    | cons last earlier =>
      rw [List.map_cons, List.reverse_cons] at hentries
      obtain ⟨rfl, hlast⟩ := List.append_inj' hentries rfl
      obtain rfl := (List.singleton_injective hlast).symm
      refine ⟨_, rfl, rfl, ?_⟩
      show ((last.add bytes :: earlier).map (·.toEntry)).reverse = _
      rw [List.map_cons, List.reverse_cons, OpenEntry.toEntry_add]
      rfl

theorem detect?_file (m : Zip.Member) (members : List Zip.Member) :
    ContainerFormat.detect? (Zip.file (m :: members)) = some .zip := rfl

theorem finishAll_eq (method : Zip.Method) (name : String) (later : List SinkCall) :
    SinkCall.finishAll (.startEntry name :: later) ({ method } : ZipSink)
      = .ok (Zip.file ((SinkCall.written (.startEntry name :: later)).map (.ofEntry method))) := by
  have hstart : Shows method { method } [] := ⟨rfl, rfl⟩
  have hnames : ∀ n, .startEntry n ∈ SinkCall.startEntry name :: later → True :=
    fun _ _ => trivial
  obtain ⟨s, ⟨hmethod, hentries⟩, hfinish⟩ :=
    (follows method fun _ => True).finishAll hstart hnames
  rw [hfinish, ← hmethod, ← hentries]
  rfl

end ZipSink

/-! ## 3. Tar files -/

namespace TarSink

def laid (e : Entry) : Tar.Member := ⟨Bytes.ofText e.name, e.data⟩

def Stores (name : String) : Prop := Tar.storedPath? name = some (Bytes.ofText name)

/-- Whether a tar file has these entries so far: the last one is open and all others laid out. -/
structure Shows (s : TarSink) (entries : List Entry) : Prop where
  stores : ∀ e ∈ entries, Stores e.name
  entries_eq : ∃ earlier, entries = earlier ++ (s.pending.map (·.toEntry)).toList ∧
    s.members = (earlier.map fun e => (laid e).bytes).reverse ∧ (s.pending = none → earlier = [])

theorem flush_of_shows {s : TarSink} {entries : List Entry} (hs : s.Shows entries) :
    flush s = (.ok (), ⟨(entries.map fun e => (laid e).bytes).reverse, none⟩) := by
  obtain ⟨members, pending⟩ := s
  obtain ⟨hstores, earlier, rfl, hmembers, hnone⟩ := hs
  obtain rfl : members = _ := hmembers
  cases pending with
  | none =>
    obtain rfl : earlier = [] := hnone rfl
    rfl
  | some e =>
    have hpath : Tar.storedPath? e.name = some (Bytes.ofText e.name) :=
      hstores e.toEntry (List.mem_append_right _ List.mem_cons_self)
    rw [flush_some, hpath]
    simp only [Option.map_some, Option.toList_some, List.map_append, List.map_singleton,
      List.reverse_append, List.reverse_singleton, List.singleton_append]
    rfl

theorem follows : Sink.Follows Stores Shows where
  startEntry := by
    intro s entries name hs hname
    refine ⟨_, Call.bind_of_ok (flush_of_shows hs), ?_, entries, rfl, rfl, nofun⟩
    exact List.forall_mem_append.2 ⟨hs.stores, List.forall_mem_singleton.2 hname⟩
  writeBytes := by
    rintro ⟨members, pending⟩ front e bytes ⟨hstores, earlier, hentries, hmembers, hnone⟩
    cases pending with
    | none =>
      obtain rfl : earlier = [] := hnone rfl
      exact absurd hentries (List.append_ne_nil_of_right_ne_nil _ (List.cons_ne_nil _ _))
    | some last =>
      obtain ⟨rfl, hlast⟩ := List.append_inj' hentries rfl
      obtain rfl := List.singleton_injective hlast
      refine ⟨_, rfl, ?_, front, ?_, hmembers, nofun⟩
      · have hname : Stores last.toEntry.name :=
          hstores last.toEntry (List.mem_append_right _ List.mem_cons_self)
        exact List.forall_mem_append.2
          ⟨(List.forall_mem_append.1 hstores).1, List.forall_mem_singleton.2 hname⟩
      · show front ++ [⟨last.toEntry.name, last.toEntry.data ++ bytes⟩]
          = front ++ [(last.add bytes).toEntry]
        rw [OpenEntry.toEntry_add]
        rfl

theorem finish_of_shows {s : TarSink} {entries : List Entry} (hs : s.Shows entries) :
    s.finish = .ok (Zstd.frame (Tar.layout (entries.map laid))) := by
  have hmembers : (entries.map laid).map (·.bytes) = entries.map fun e => (laid e).bytes :=
    List.map_map
  unfold finish finishTar ExceptT.run
  rw [flush_of_shows hs, ← hmembers]
  simp only [Except.map, List.reverse_reverse]
  rfl

theorem detect?_frame (bytes : Bytes) :
    ContainerFormat.detect? (Zstd.frame bytes) = some .tarZstd := rfl

theorem given_laid {e : Entry} (hname : IsRelative e.name) : (laid e).given = e := by
  unfold laid Tar.Member.given
  rw [Text.ofBytesLossy_ofText hname.ascii]

theorem stores_of_isRelative {name : String} (h : IsRelative name)
    (hzero : '\x00' ∉ name.toList) : Stores name := by
  rw [Stores, h.storedPath?_eq, if_neg hzero]

theorem finishAll_eq {name : String} {later : List SinkCall}
    (hstores : ∀ n, .startEntry n ∈ .startEntry name :: later → Stores n) :
    SinkCall.finishAll (.startEntry name :: later) ({} : TarSink) = .ok (Zstd.frame
      (Tar.layout ((SinkCall.written (.startEntry name :: later)).map laid))) := by
  obtain ⟨s, hs, hfinish⟩ := follows.finishAll (s := {})
    ⟨List.forall_mem_nil _, [], rfl, rfl, fun _ => rfl⟩ hstores
  rw [hfinish]
  exact finish_of_shows hs

theorem source_frame {entries : List Entry} (hstores : ∀ e ∈ entries, Stores e.name)
    (hnames : ∀ e ∈ entries, IsRelative e.name) {limit : Nat} (hlimit : limit < 8 ^ 11)
    (hshort : ∀ e ∈ entries, e.data.length ≤ limit)
    (hlength : (Zstd.frame (Tar.layout (entries.map laid))).length < UInt64.size) :
    tarZstdSource limit (Zstd.frame (Tar.layout (entries.map laid)))
      = .ok (.ofEntries entries) := by
  have hfits : ∀ m ∈ entries.map laid, m.Fits limit :=
    List.forall_mem_map.2 fun e he =>
      (show IsStored e (laid e) from ⟨hstores e he, rfl⟩).fits hlimit (hshort e he)
  have hgiven : (entries.map laid).map (·.given) = entries := by
    rw [List.map_map]
    exact (List.map_congr_left fun e he => given_laid (hnames e he)).trans (List.map_id _)
  rw [Tar.tarZstdSource_frame hfits hlength, hgiven]

end TarSink

/-! ## 4. Names of archives -/

namespace Layout

def IsName (name : String) : Prop :=
  name = headerName ∨ ∃ index < UInt64.size, name = chunkName index

theorem isRelative_headerName : IsRelative headerName :=
  isRelative_of_not_mem (by simp [headerName]) (by decide) (by decide) (by decide) (by decide)

theorem isRelative_chunkName {index : Nat} (h : index < UInt64.size) :
    IsRelative (chunkName index) := by
  have hascii : ∀ c ∈ (chunkName index).toList, c.toNat < 128 :=
    fun c hc => (ascii_chunkName index c hc).2
  obtain ⟨hlong, hshort⟩ := length_chunkName h
  have hne : ∀ text : List Char, text.length < 14 → (chunkName index).toList ≠ text := by
    rintro text htext rfl
    omega
  refine isRelative_of_not_mem hascii ?_ ?_
    ⟨hne [] (by decide), hne ['.'] (by decide), hne ['.', '.'] (by decide)⟩ ?_
  · rw [Text.ofText_eq hascii, List.length_map]
    exact hshort.trans (by decide)
  · exact fun hslash => absurd (mem_chunkName hslash) (by decide)
  · exact fun hbackslash => absurd (mem_chunkName hbackslash) (by decide)

theorem isRelative_of_isName {name : String} (h : IsName name) :
    IsRelative name ∧ '\x00' ∉ name.toList := by
  rcases h with rfl | ⟨index, hindex, rfl⟩
  · exact ⟨isRelative_headerName, by decide⟩
  · exact ⟨isRelative_chunkName hindex, fun hzero => (ascii_chunkName index _ hzero).1 rfl⟩

end Layout

/-! ## 5. Both formats -/

namespace SinkCall

/-- Calls that begin with an entry and whose entries have relative names and are not too long. -/
structure AreSound (calls : List SinkCall) : Prop where
  starts : ∃ name later, calls = .startEntry name :: later
  names : ∀ name, .startEntry name ∈ calls → IsRelative name
  short : ∀ e ∈ written calls, e.data.length ≤ Layout.maxEntrySize

theorem name_of_mem_foldl {calls : List SinkCall} {entries : List Entry} {e : Entry}
    (he : e ∈ calls.foldl extend entries) :
    e.name ∈ entries.map (·.name) ∨ .startEntry e.name ∈ calls := by
  induction calls generalizing entries with
  | nil => exact .inl (List.mem_map_of_mem he)
  | cons call calls ih =>
    rcases ih he with hbefore | hlater
    · cases call with
      | startEntry name =>
        rw [extend, List.map_append, List.mem_append] at hbefore
        refine hbefore.imp id fun hname => ?_
        rw [List.mem_singleton.1 hname]
        exact List.mem_cons_self
      | writeBytes bytes =>
        rw [extend, names_addToLast] at hbefore
        exact .inl hbefore
    · exact .inr (List.mem_cons_of_mem call hlater)

theorem name_of_mem_written {calls : List SinkCall} {e : Entry} (he : e ∈ written calls) :
    .startEntry e.name ∈ calls :=
  (name_of_mem_foldl he).resolve_left List.not_mem_nil

/--
Both sinks refine the list that the calls on them write: they take all of the calls, what they are
finished to is known as a file of their format, and it gives the list back.  A tar file has no
zeros in its names, and a ZIP file without a large end record is taken for what it is.  The names
of archives are such names.
-/
theorem containers_restore {calls : List SinkCall} (h : AreSound calls) :
    ((∀ name, .startEntry name ∈ calls → '\x00' ∉ name.toList) →
      ∃ file, finishAll calls ({} : TarSink) = .ok file ∧
        ContainerFormat.detect? file = some .tarZstd ∧
        (file.length < UInt64.size → ContainerFormat.tarZstd.source Layout.maxEntrySize file
          = .ok (.ofEntries (written calls)))) ∧
    (∀ method : Zip.Method, ∃ file, finishAll calls ({ method } : ZipSink) = .ok file ∧
      ContainerFormat.detect? file = some .zip ∧
      (file.length < UInt64.size → ¬ Zip.SeemsLarge ((written calls).map (.ofEntry method)) →
        ContainerFormat.zip.source Layout.maxEntrySize file
          = .ok (.ofEntries (written calls)))) ∧
    ∀ name, Layout.IsName name → IsRelative name ∧ '\x00' ∉ name.toList := by
  obtain ⟨⟨name, later, rfl⟩, hnames, hshort⟩ := h
  have hrelative : ∀ e ∈ written (.startEntry name :: later), IsRelative e.name :=
    fun e he => hnames e.name (name_of_mem_written he)
  refine ⟨fun hzero => ?_, fun method => ?_, fun _ => Layout.isRelative_of_isName⟩
  · have hstores : ∀ n, .startEntry n ∈ .startEntry name :: later → TarSink.Stores n :=
      fun n hn => TarSink.stores_of_isRelative (hnames n hn) (hzero n hn)
    exact ⟨_, TarSink.finishAll_eq hstores, TarSink.detect?_frame _, fun hlength =>
      TarSink.source_frame (fun e he => hstores e.name (name_of_mem_written he)) hrelative
        (by decide) hshort hlength⟩
  · refine ⟨_, ZipSink.finishAll_eq method name later, ?_, fun hlength hseems =>
      Zip.source_ofBytes_file hrelative (by decide) hshort hseems hlength⟩
    obtain ⟨e, entries, hcons⟩ := List.exists_cons_of_ne_nil (written_ne_nil name later)
    rw [hcons]
    exact ZipSink.detect?_file _ _

/-- Both formats on two entries, the second one in a directory and written in two pieces. -/
theorem two_entries_restored :
    ∃ tar zip, finishAll [.startEntry "a", .writeBytes [1], .startEntry "b/c", .writeBytes [2],
        .writeBytes [3]] ({} : TarSink) = .ok tar ∧
      finishAll [.startEntry "a", .writeBytes [1], .startEntry "b/c", .writeBytes [2],
        .writeBytes [3]] ({} : ZipSink) = .ok zip ∧
      ContainerFormat.detect? tar = some .tarZstd ∧ ContainerFormat.detect? zip = some .zip ∧
      ContainerFormat.tarZstd.source Layout.maxEntrySize tar
        = .ok (.ofEntries [⟨"a", [1]⟩, ⟨"b/c", [2, 3]⟩]) ∧
      ContainerFormat.zip.source Layout.maxEntrySize zip
        = .ok (.ofEntries [⟨"a", [1]⟩, ⟨"b/c", [2, 3]⟩]) := by
  have hnames : ∀ name, startEntry name ∈ [startEntry "a", writeBytes [1], startEntry "b/c",
      writeBytes [2], writeBytes [3]] → IsRelative name ∧ '\x00' ∉ name.toList := by
    intro name hname
    have hone : name = "a" ∨ name = "b/c" := by simpa using hname
    rcases hone with rfl | rfl
    · exact ⟨⟨by simp, by decide, by decide, by decide⟩, by decide⟩
    · exact ⟨⟨by simp, by decide, by decide, by decide⟩, by decide⟩
  obtain ⟨htar, hzip, -⟩ := containers_restore
    ⟨⟨_, _, rfl⟩, fun name hname => (hnames name hname).1, by decide⟩
  obtain ⟨tar, hfinishTar, hdetectTar, hsourceTar⟩ := htar fun name hname => (hnames name hname).2
  obtain ⟨zip, hfinishZip, hdetectZip, hsourceZip⟩ := hzip .deflated
  refine ⟨tar, zip, hfinishTar, hfinishZip, hdetectTar, hdetectZip, hsourceTar ?_,
    hsourceZip ?_ ?_⟩
  · have hfile := TarSink.finishAll_eq fun n hn =>
      TarSink.stores_of_isRelative (hnames n hn).1 (hnames n hn).2
    obtain rfl := Except.ok.inj (hfinishTar.symm.trans hfile)
    have hlayout : (Tar.layout ((written [.startEntry "a", .writeBytes [1], .startEntry "b/c",
        .writeBytes [2], .writeBytes [3]]).map TarSink.laid)).length = 3072 := by
      decide +kernel
    refine (Zstd.length_frame_le _).trans_lt ?_
    rw [hlayout]
    decide
  · obtain rfl := Except.ok.inj (hfinishZip.symm.trans (ZipSink.finishAll_eq .deflated "a" _))
    decide +kernel
  · exact Zip.not_seemsLarge (by decide +kernel) (by decide +kernel)

/-- A tar file cannot hold a name with a zero in it. -/
theorem name_with_zero_lost :
    AreSound [.startEntry "a\x00b", .writeBytes [1]] ∧
      ∀ file, finishAll [.startEntry "a\x00b", .writeBytes [1]] ({} : TarSink) ≠ .ok file := by
  have hzero : IsRelative "a\x00b" := ⟨by simp, by decide, by decide, by decide⟩
  refine ⟨⟨⟨_, _, rfl⟩, by simpa using hzero, by decide⟩, ?_⟩
  intro file hfile
  have hpath := hzero.storedPath?_eq
  rw [if_pos (by decide)] at hpath
  change TarSink.finish ⟨[], some ⟨"a\x00b", [[1]]⟩⟩ = .ok file at hfile
  unfold TarSink.finish TarSink.finishTar ExceptT.run at hfile
  rw [TarSink.flush_some, hpath] at hfile
  cases hfile

end SinkCall
end ScanArchive
