import ScanArchive.Container.Basic
import ScanArchive.Proofs.Archive.Writing
import ScanArchive.Proofs.Container.Tar.Reading
import ScanArchive.Proofs.Container.Zip.Reading
import ScanArchive.Proofs.Container.Zstd

/-!
# What containers keep

A container that is being written keeps the entries that its calls gave it, whichever its format
is, and when it is finished they are laid out in order.  So it is read without a fault in any
entry, as long as none of them is too long.
-/

namespace ScanArchive

/-! ## 1. Calls -/

/--
Whether a sink keeps what it is given by the calls that are reported as done: a new entry in front
of those kept so far, and more bytes at the end of the last one.
-/
structure Sink.Keeps {σ ω : Type} [Sink σ ω] (kept : σ → List OpenEntry → Prop) : Prop where
  startEntry : ∀ {s s' : σ} {all : List OpenEntry} (name : String), kept s all →
    Sink.startEntry name s = (.ok (), s') → kept s' ({ name } :: all)
  writeBytes : ∀ {s s' : σ} {all : List OpenEntry} (bytes : Bytes), kept s all →
    Sink.writeBytes bytes s = (.ok (), s') → kept s' (all.modifyHead (·.add bytes))

namespace ZipSink

def Kept (s : ZipSink) (all : List OpenEntry) : Prop := s.method = .deflated ∧ s.written = all

theorem keeps : Sink.Keeps Kept where
  startEntry := by
    rintro s s' all name ⟨hmethod, rfl⟩ hcall
    cases hcall
    exact ⟨hmethod, rfl⟩
  writeBytes := by
    rintro ⟨method, written⟩ s' all bytes ⟨hmethod, rfl⟩ hcall
    cases written with
    | cons last earlier =>
      cases hcall
      exact ⟨hmethod, rfl⟩
    | nil =>
      -- only writing nothing needs no entry
      cases bytes with
      | nil =>
        cases hcall
        exact ⟨hmethod, rfl⟩
      | cons byte bytes => cases hcall

end ZipSink

namespace TarSink

def IsLaid (e : OpenEntry) (bytes : Bytes) : Prop :=
  ∃ path, Tar.storedPath? e.name = some path ∧ bytes = Tar.member path e.toEntry.data

/-- Whether a tar file has these entries so far, all but the open one laid out. -/
def Kept (s : TarSink) (all : List OpenEntry) : Prop :=
  ∃ earlier, all = s.pending.toList ++ earlier ∧ List.Forall₂ IsLaid earlier s.members

theorem flush_some (members : List Bytes) (e : OpenEntry) :
    flush ⟨members, some e⟩ = match Tar.storedPath? e.name with
      | none => (.error (.archive (.other ("set path '" ++ e.name ++ "'"))), ⟨members, none⟩)
      | some path => (.ok (), ⟨Tar.member path e.toEntry.data :: members, none⟩) := by
  cases hpath : Tar.storedPath? e.name with
  | none =>
    show (match Tar.storedPath? e.name with | none => _ | some _ => _ : Call TarSink Unit) _ = _
    rw [hpath]
    rfl
  | some path =>
    show (match Tar.storedPath? e.name with | none => _ | some _ => _ : Call TarSink Unit) _ = _
    rw [hpath]
    rfl

theorem forall₂_flush {s s' : TarSink} {all : List OpenEntry} (hs : Kept s all)
    (hflush : flush s = (.ok (), s')) :
    s'.pending = none ∧ List.Forall₂ IsLaid all s'.members := by
  obtain ⟨members, pending⟩ := s
  obtain ⟨earlier, rfl, hlaid⟩ := hs
  cases pending with
  | none =>
    cases hflush
    exact ⟨rfl, hlaid⟩
  | some e =>
    rw [flush_some] at hflush
    cases hpath : Tar.storedPath? e.name with
    | none =>
      rw [hpath] at hflush
      cases hflush
    | some path =>
      rw [hpath] at hflush
      cases hflush
      exact ⟨rfl, .cons ⟨path, hpath, rfl⟩ hlaid⟩

theorem keeps : Sink.Keeps Kept where
  startEntry := by
    intro s s' all name hs hcall
    obtain ⟨⟨⟩, s₁, hflush, hmodify⟩ := Call.exists_of_bind_eq_ok hcall
    obtain ⟨hnone, hlaid⟩ := forall₂_flush hs hflush
    cases hmodify
    exact ⟨all, rfl, hlaid⟩
  writeBytes := by
    rintro ⟨members, pending⟩ s' all bytes ⟨earlier, rfl, hlaid⟩ hcall
    cases pending with
    | none => cases hcall
    | some entry =>
      cases hcall
      exact ⟨earlier, rfl, hlaid⟩

end TarSink

namespace ContainerSink

def Kept : ContainerFormat → ContainerSink → List OpenEntry → Prop
  | .zip, zip s, all => s.Kept all
  | .tarZstd, tarZstd s, all => s.Kept all
  | _, _, _ => False

theorem kept_ofFormat (format : ContainerFormat) : Kept format (ofFormat format) [] := by
  cases format with
  | zip => exact ⟨rfl, rfl⟩
  | tarZstd => exact ⟨[], rfl, .nil⟩

theorem kept_cases {format : ContainerFormat} {s : ContainerSink} {all : List OpenEntry}
    (hs : Kept format s all) :
    (∃ z : ZipSink, format = .zip ∧ s = zip z ∧ z.Kept all) ∨
      ∃ t : TarSink, format = .tarZstd ∧ s = tarZstd t ∧ t.Kept all := by
  cases format <;> cases s
  · exact .inl ⟨_, rfl, rfl, hs⟩
  · exact hs.elim
  · exact hs.elim
  · exact .inr ⟨_, rfl, rfl, hs⟩

theorem kept_dispatch {format : ContainerFormat} {s s' : ContainerSink} {all all' : List OpenEntry}
    {onZip : Call ZipSink Unit} {onTar : Call TarSink Unit} (hs : Kept format s all)
    (hzip : ∀ {s s' : ZipSink}, s.Kept all → onZip s = (.ok (), s') → s'.Kept all')
    (htar : ∀ {s s' : TarSink}, s.Kept all → onTar s = (.ok (), s') → s'.Kept all')
    (hcall : dispatch onZip onTar s = (.ok (), s')) : Kept format s' all' := by
  obtain ⟨z, rfl, rfl, hz⟩ | ⟨t, rfl, rfl, ht⟩ := kept_cases hs
  · obtain ⟨hok, rfl⟩ := Prod.mk.inj hcall
    exact hzip hz (Prod.ext hok rfl)
  · obtain ⟨hok, rfl⟩ := Prod.mk.inj hcall
    exact htar ht (Prod.ext hok rfl)

theorem keeps (format : ContainerFormat) : Sink.Keeps (Kept format) where
  startEntry name hs hcall :=
    kept_dispatch hs (fun hs => ZipSink.keeps.startEntry name hs)
      (fun hs => TarSink.keeps.startEntry name hs) hcall
  writeBytes bytes hs hcall :=
    kept_dispatch hs (fun hs => ZipSink.keeps.writeBytes bytes hs)
      (fun hs => TarSink.keeps.writeBytes bytes hs) hcall

end ContainerSink

/-! ## 2. Finished containers -/

/-- Whether opening a container fails with this, or reading one of its entries. -/
def Source.FailsWith (found : Except Error Source) (e : Error) : Prop :=
  found = .error e ∨ ∃ source, found = .ok source ∧ .error e ∈ source

/-- A container fails only as a whole if none of its entries does. -/
theorem Source.eq_of_failsWith {found : Except Error Source} {source : Source}
    (hfound : found = .ok source ∨ ∃ reason, found = .error (.archive (.other reason)))
    (hsource : ∀ e, .error e ∉ source) {e : Error} (he : FailsWith found e) :
    ∃ reason, e = .archive (.other reason) := by
  rcases hfound with rfl | ⟨reason, rfl⟩
  · rcases he with he | ⟨_, heq, hmem⟩
    · cases he
    · cases heq
      exact absurd hmem (hsource e)
  · rcases he with he | ⟨_, heq, -⟩
    · cases he
      exact ⟨reason, rfl⟩
    · cases heq

theorem Source.error_notMem_ofEntries (entries : List Entry) (e : Error) :
    .error e ∉ ofEntries entries := by
  intro hmem
  obtain ⟨_, -, hentry⟩ := List.mem_map.1 hmem
  cases hentry

namespace TarSink

def IsStored (e : Entry) (m : Tar.Member) : Prop :=
  Tar.storedPath? e.name = some m.path ∧ m.data = e.data

theorem exists_stored {all : List OpenEntry} {laid : List Bytes}
    (h : List.Forall₂ IsLaid all laid) :
    ∃ members : List Tar.Member,
      laid = members.map (·.bytes) ∧ List.Forall₂ IsStored (all.map (·.toEntry)) members := by
  induction h with
  | nil => exact ⟨[], rfl, .nil⟩
  | cons hfirst _ ih =>
    obtain ⟨path, hpath, rfl⟩ := hfirst
    obtain ⟨members, rfl, hstored⟩ := ih
    exact ⟨⟨path, _⟩ :: members, rfl, .cons ⟨hpath, rfl⟩ hstored⟩

theorem exists_layout {s : TarSink} {all : List OpenEntry} (hs : Kept s all) {file : Bytes}
    (hfinish : s.finish = .ok file) :
    ∃ members : List Tar.Member, file = Zstd.frame (Tar.layout members) ∧
      List.Forall₂ IsStored (all.map (·.toEntry)).reverse members := by
  unfold finish finishTar at hfinish
  cases hflush : flush.run s with
  | mk outcome s' =>
    simp only [hflush] at hfinish
    cases outcome with
    | error e => cases hfinish
    | ok _ =>
      cases hfinish
      obtain ⟨-, hlaid⟩ := forall₂_flush hs hflush
      obtain ⟨members, hmembers, hstored⟩ := exists_stored hlaid
      refine ⟨members.reverse, ?_, List.rel_reverse hstored⟩
      rw [hmembers, ← List.map_reverse]
      rfl

theorem path_of_storedPath? {name : String} {path : Bytes} (h : Tar.storedPath? name = some path) :
    path.length ≤ Tar.maxPath ∧ ∀ b ∈ path, b ≠ 0 := by
  unfold Tar.storedPath? at h
  simp only at h
  split at h
  · cases h
  split at h
  · cases h
  -- only the bytes of the path are looked at from here on
  generalize Bytes.ofText (_ ++ _) = bytes at h
  by_cases hfits : Tar.maxPath < bytes.length ∨ bytes.contains 0 = true
  · rw [if_pos hfits] at h
    cases h
  · rw [if_neg hfits] at h
    obtain rfl := Option.some.inj h
    rw [not_or, Nat.not_lt, Bool.not_eq_true, List.contains_eq_mem,
      decide_eq_false_iff_not] at hfits
    exact ⟨hfits.1, fun b hb hzero => hfits.2 (hzero ▸ hb)⟩

theorem IsStored.fits {e : Entry} {m : Tar.Member} (h : IsStored e m) {limit : Nat}
    (hlimit : limit < 8 ^ 11) (hlength : e.data.length ≤ limit) : m.Fits limit := by
  obtain ⟨hpath, hdata⟩ := h
  obtain ⟨hshort, hzero⟩ := path_of_storedPath? hpath
  rw [← hdata] at hlength
  exact ⟨⟨hshort, hlength.trans_lt hlimit⟩, hzero, hlength⟩

theorem fits_of_stored {entries : List Entry} {members : List Tar.Member}
    (h : List.Forall₂ IsStored entries members) {limit : Nat} (hlimit : limit < 8 ^ 11)
    (hshort : ∀ e ∈ entries, e.data.length ≤ limit) : ∀ m ∈ members, m.Fits limit := by
  induction h with
  | nil => exact List.forall_mem_nil _
  | cons hfirst _ ih =>
    obtain ⟨hlength, hrest⟩ := List.forall_mem_cons.1 hshort
    exact List.forall_mem_cons.2 ⟨hfirst.fits hlimit hlength, ih hrest⟩

variable {s : TarSink} {all : List OpenEntry} {file : Bytes}

theorem length_lt_of_finish (hs : Kept s all) (hfinish : s.finish = .ok file) :
    all.length < file.length := by
  obtain ⟨members, rfl, hstored⟩ := exists_layout hs hfinish
  -- there are as many members as entries
  have hcount := hstored.length_eq
  rw [List.length_reverse, List.length_map] at hcount
  rw [hcount]
  exact (Tar.length_lt_length_layout members).trans_le (Zstd.length_le_length_frame _)

/-- No entry that is short enough is refused for its length. -/
theorem eq_of_failsWith_source (hs : Kept s all) (hfinish : s.finish = .ok file)
    (hfile : file.length < UInt64.size) {limit : Nat} (hlimit : limit < 8 ^ 11)
    (hshort : ∀ e ∈ all, e.toEntry.data.length ≤ limit) {e : Error}
    (he : Source.FailsWith (tarZstdSource limit file) e) :
    ∃ reason, e = .archive (.other reason) := by
  obtain ⟨members, rfl, hstored⟩ := exists_layout hs hfinish
  have hfits := fits_of_stored hstored hlimit fun e he => by
    obtain ⟨o, ho, rfl⟩ := List.mem_map.1 (List.mem_reverse.1 he)
    exact hshort o ho
  exact Source.eq_of_failsWith (.inl (Tar.tarZstdSource_frame hfits hfile))
    (Source.error_notMem_ofEntries _) he

end TarSink

namespace ZipSink

variable {s : ZipSink} {all : List OpenEntry} {file : Bytes}

/-- Whether a name is neither too long nor so short that a reader is led astray by what follows. -/
structure IsPlain (name : String) : Prop where
  short : (Bytes.ofText name).length ≤ Zip.maxCount
  long : 5 ≤ (Bytes.ofText name).length
  ne_zero : ∀ b ∈ Bytes.ofText name, b ≠ 0

theorem finish_of_kept (hs : Kept s all) :
    s.finish = .ok (Zip.file ((all.map (·.toEntry)).reverse.map (.ofEntry .deflated))) := by
  obtain ⟨hmethod, rfl⟩ := hs
  rw [finish, hmethod, entries]

theorem length_le_of_finish (hs : Kept s all) (hfinish : s.finish = .ok file) :
    all.length ≤ file.length := by
  rw [finish_of_kept hs] at hfinish
  obtain rfl := Except.ok.inj hfinish
  have hcount := Zip.length_le_length_locals 0
    ((all.map (·.toEntry)).reverse.map (Zip.Member.ofEntry .deflated))
  rw [List.length_map, List.length_reverse, List.length_map] at hcount
  rw [Zip.file, List.length_append, List.length_append]
  omega

theorem eq_of_failsWith_source (hs : Kept s all) (hfinish : s.finish = .ok file)
    (hfile : file.length < UInt64.size) {limit : Nat} (hlimit : 2 * limit + 5 < Zip.maxField)
    (hshort : ∀ e ∈ all, e.toEntry.data.length ≤ limit) (hplain : ∀ e ∈ all, IsPlain e.name)
    {e : Error} (he : Source.FailsWith ((ZipFile.ofBytes file).map (·.source limit)) e) :
    ∃ reason, e = .archive (.other reason) := by
  rw [finish_of_kept hs] at hfinish
  obtain rfl := Except.ok.inj hfinish
  have hmem : ∀ e ∈ (all.map (·.toEntry)).reverse, IsPlain e.name ∧ e.data.length ≤ limit := by
    intro e he
    obtain ⟨o, ho, rfl⟩ := List.mem_map.1 (List.mem_reverse.1 he)
    exact ⟨hplain o ho, hshort o ho⟩
  -- only the entries matter from here on
  generalize (all.map (·.toEntry)).reverse = entries at hmem hfile he
  have hfits : ∀ e ∈ entries, (Zip.Member.ofEntry .deflated e).Fits := fun e he =>
    Zip.Member.fits_ofEntry .deflated (hmem e he).1.short hlimit (hmem e he).2
  have hopen := Zip.ofBytes_file (List.forall_mem_map.2 hfits) (List.forall_mem_map.2 fun e he =>
    Zip.Member.named_of_forall_ne_zero (hmem e he).1.long (hmem e he).1.ne_zero) hfile
  refine Source.eq_of_failsWith ?_ (Zip.error_notMem_source hfits fun e he => (hmem e he).2) he
  rcases hopen with hok | ⟨reason, herror⟩
  · rw [hok]
    exact .inl rfl
  · rw [herror]
    exact .inr ⟨reason, rfl⟩

theorem isPlain_ofList {text : List Char} (hshort : text.length ≤ Zip.maxCount)
    (hlong : 5 ≤ text.length) (hascii : ∀ c ∈ text, c.toNat ≠ 0 ∧ c.toNat < 128) :
    IsPlain (String.ofList text) := by
  have hbytes := Bytes.ofText_ascii fun c hc => (hascii c hc).2
  refine ⟨?_, ?_, ?_⟩
  · rwa [hbytes, List.length_map]
  · rwa [hbytes, List.length_map]
  · rw [hbytes]
    refine List.forall_mem_map.2 fun c hc => ?_
    obtain ⟨hzero, hlt⟩ := hascii c hc
    rw [Ne, ← UInt8.toNat_inj, UInt8.toNat_ofNat', Nat.mod_eq_of_lt (by omega)]
    exact hzero

end ZipSink

namespace ContainerSink

variable {format : ContainerFormat} {s : ContainerSink} {all : List OpenEntry} {file : Bytes}

theorem length_le_of_finish (hs : Kept format s all) (hfinish : Sink.finish s = .ok file) :
    all.length ≤ file.length := by
  obtain ⟨z, rfl, rfl, hz⟩ | ⟨t, rfl, rfl, ht⟩ := kept_cases hs
  · exact ZipSink.length_le_of_finish hz hfinish
  · exact Nat.le_of_lt (TarSink.length_lt_of_finish ht hfinish)

theorem eq_of_failsWith_source (hs : Kept format s all) (hfinish : Sink.finish s = .ok file)
    (hfile : file.length < UInt64.size)
    (hshort : ∀ e ∈ all, e.toEntry.data.length ≤ Layout.maxEntrySize)
    (hplain : ∀ e ∈ all, ZipSink.IsPlain e.name) {e : Error}
    (he : Source.FailsWith (format.source Layout.maxEntrySize file) e) :
    ∃ reason, e = .archive (.other reason) := by
  obtain ⟨z, rfl, rfl, hz⟩ | ⟨t, rfl, rfl, ht⟩ := kept_cases hs
  · exact ZipSink.eq_of_failsWith_source hz hfinish hfile (by decide) hshort hplain he
  · exact TarSink.eq_of_failsWith_source ht hfinish hfile (by decide) hshort he

end ContainerSink

end ScanArchive
