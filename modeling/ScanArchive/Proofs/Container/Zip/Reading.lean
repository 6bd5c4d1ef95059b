import ScanArchive.Container.Zip.Layout
import ScanArchive.Proofs.Container.Deflate
import ScanArchive.Proofs.Container.Zip.Directory

/-!
# Reading ZIP files back

The directory of a file that is written here gives its entries in order, and each is read as it
was written, unless it is longer than what is read.
-/

namespace ScanArchive.Zip

/-! ## 1. The directory -/

def centrals : (offset : Nat) → List Member → List Central
  | _, [] => []
  | offset, m :: rest => m.central offset :: centrals (offset + (m.localRecord offset).length) rest

theorem Central.readMany_directory {members : List Member} (hm : ∀ m ∈ members, m.Fits)
    {offset : Nat} (hend : offset + (locals offset members).flatten.length < UInt64.size)
    {file rest : Bytes} {place : Nat}
    (hfile : file.drop place = (directory offset members).flatten ++ rest) :
    readMany file 0 members.length place = .ok (centrals offset members) := by
  induction members generalizing offset place with
  | nil => rfl
  | cons m members ih =>
    rw [locals, List.flatten_cons, List.length_append] at hend
    rw [directory, List.flatten_cons, List.append_assoc] at hfile
    have hread := read_centralRecord (hm m List.mem_cons_self) (by omega) hfile
    have hrest := ih (fun m' hm' => hm m' (List.mem_cons_of_mem m hm')) (by omega)
      (drop_add_length hfile)
    rw [List.length_cons, readMany]
    simp only [bind, Except.bind, hread, hrest]
    rfl

/-! ## 2. The entries -/

namespace Method

theorem unpack_pack (method : Method) (bytes : Bytes) :
    method.unpack (method.pack bytes) = (bytes, false) := by
  cases method with
  | stored => rfl
  | deflated => exact Deflate.inflate_store bytes

theorem length_pack_le (method : Method) (bytes : Bytes) :
    (method.pack bytes).length ≤ 2 * bytes.length + 5 := by
  cases method with
  | stored => exact (show bytes.length ≤ _ by omega)
  | deflated => exact (Deflate.length_store bytes).2

end Method

theorem Member.fits_ofEntry (method : Method) {e : Entry} {limit : Nat}
    (hname : (Bytes.ofText e.name).length ≤ maxCount) (hlimit : 2 * limit + 5 < maxField)
    (hlength : e.data.length ≤ limit) : (ofEntry method e).Fits where
  name := hname
  crc := Nat.le_of_lt_succ (Crc32.checksum e.data).toNat_lt
  size := by
    show e.data.length < maxField
    omega
  packed := by
    have hpacked := method.length_pack_le e.data
    show (method.pack e.data).length < maxField
    omega

/-- What reading an entry gives of which the contents are known. -/
def Central.given (c : Central) (limit : Nat) (data : Bytes) : Except Error (Option Entry) :=
  if c.isDirectory then .ok none
  else if limit < data.length then .error (.archive (.entryTooLarge c.name limit))
  else .ok (some { name := c.name, data })

theorem Central.entry?_eq_given {c : Central} {method : Method} {file lengths data : Bytes}
    (hencrypted : c.encrypted = false) (hsealed : c.isSealed = false)
    (hmethod : c.method = some method)
    (hsigned : signed file c.offset 4 localSignature "Invalid local file header"
      = .ok (u32 localSignature))
    (hlengths : slice file (c.offset + 26) 4 = .ok lengths)
    (hunpack : method.unpack ((file.drop
      (c.offset + 30 + number lengths 0 2 + number lengths 2 2)).take c.packedSize) = (data, false))
    (hcrc : (Crc32.checksum data).toNat = c.crc) (limit : Nat) :
    Central.entry? c file limit = c.given limit data := by
  unfold Central.entry? given
  simp only [bind, Except.bind, hencrypted, hsealed, hmethod, hsigned, hlengths, hunpack, hcrc]
  by_cases hdirectory : c.isDirectory = true
  · simp [hdirectory, pure, Except.pure]
  · by_cases hlong : limit < data.length
    · simp [hdirectory, hlong, throw, throwThe, MonadExceptOf.throw]
    · simp [hdirectory, hlong, pure, Except.pure]

theorem Member.packed_local {m : Member} {file rest : Bytes} {offset : Nat}
    (hfile : file.drop offset = m.localRecord offset ++ rest) (reason : String) :
    signed file offset 4 localSignature reason = .ok (u32 localSignature) ∧
    slice file (offset + 26) 4 = .ok (u16 m.name.length ++ u16 0) ∧
    (file.drop (offset + 30 + m.name.length)).take m.packed.length = m.packed := by
  have hhead := m.length_localHead offset
  simp only [localRecord, List.append_assoc] at hfile
  have hpacked : file.drop (offset + 30 + m.name.length) = m.packed ++ rest := by
    rw [← hhead]
    exact drop_add_length (drop_add_length hfile)
  simp only [localHead, List.append_assoc] at hfile
  have hlengths : slice file (offset + 26) 4 = .ok (u16 m.name.length ++ u16 0) := by
    have hfront := drop_add_length (drop_add_length hfile)
    rw [length_u32, length_common, Nat.add_assoc,
      ← List.append_assoc (u16 m.name.length) (u16 0)] at hfront
    exact slice_eq hfront
  have hsignature : number (u32 localSignature) 0 4 = localSignature := by
    simp [localSignature]
  refine ⟨signed_eq reason (length_u32 _) (Nat.le_refl 4) hsignature hfile, hlengths, ?_⟩
  rw [hpacked, List.take_left]

theorem Central.entry?_central {method : Method} {e : Entry}
    (hm : (Member.ofEntry method e).Fits) {file rest : Bytes} {offset : Nat}
    (hfile : file.drop offset = (Member.ofEntry method e).localRecord offset ++ rest)
    (limit : Nat) :
    Central.entry? ((Member.ofEntry method e).central offset) file limit
      = ((Member.ofEntry method e).central 0).given limit e.data := by
  obtain ⟨hsigned, hlengths, hpacked⟩ :=
    Member.packed_local hfile "Invalid local file header"
  have hname : number (u16 (Member.ofEntry method e).name.length ++ u16 0) 0 2
      = (Member.ofEntry method e).name.length := by
    rw [number_u16]
    exact Nat.mod_eq_of_lt (Nat.lt_succ_of_le hm.name)
  have hextra : number (u16 (Member.ofEntry method e).name.length ++ u16 0) 2 2 = 0 := by simp
  refine entry?_eq_given (c := (Member.ofEntry method e).central offset) rfl rfl rfl hsigned
    hlengths ?_ rfl limit
  rw [hname, hextra, Nat.add_zero]
  show (Member.ofEntry method e).method.unpack (List.take (Member.ofEntry method e).packed.length
    (file.drop (offset + 30 + (Member.ofEntry method e).name.length))) = _
  rw [hpacked]
  exact method.unpack_pack e.data

theorem map_entry?_centrals {method : Method} {entries : List Entry}
    (hentries : ∀ e ∈ entries, (Member.ofEntry method e).Fits) {file rest : Bytes} {offset : Nat}
    (hfile : file.drop offset = (locals offset (entries.map (.ofEntry method))).flatten ++ rest)
    (limit : Nat) :
    (centrals offset (entries.map (.ofEntry method))).map (fun c => Central.entry? c file limit)
      = entries.map fun e => ((Member.ofEntry method e).central 0).given limit e.data := by
  induction entries generalizing offset with
  | nil => rfl
  | cons e entries ih =>
    rw [List.map_cons, locals, List.flatten_cons, List.append_assoc] at hfile
    have hfirst := Central.entry?_central (hentries e List.mem_cons_self) hfile limit
    have hrest := ih (fun e' he' => hentries e' (List.mem_cons_of_mem e he'))
      (drop_add_length hfile)
    rw [List.map_cons, List.map_cons, centrals, List.map_cons, hfirst, hrest]

/-! ## 3. Files -/

theorem locals_concat (offset : Nat) (members : List Member) (m : Member) :
    locals offset (members ++ [m])
      = locals offset members
        ++ [m.localRecord (offset + (locals offset members).flatten.length)] := by
  induction members generalizing offset with
  | nil => rfl
  | cons first members ih =>
    rw [List.cons_append, locals, ih, locals, List.flatten_cons, List.length_append, Nat.add_assoc]
    rfl

theorem directory_concat (offset : Nat) (members : List Member) (m : Member) :
    directory offset (members ++ [m])
      = directory offset members
        ++ [m.centralRecord (offset + (locals offset members).flatten.length)] := by
  induction members generalizing offset with
  | nil => rfl
  | cons first members ih =>
    rw [List.cons_append, directory, ih, directory, locals, List.flatten_cons, List.length_append,
      Nat.add_assoc]
    rfl

/-- The fifth byte of a name from its end is not zero. -/
def Member.Named (m : Member) : Prop :=
  ∃ (stem : Bytes) (byte : UInt8) (tail : Bytes),
    m.name = stem ++ byte :: tail ∧ byte ≠ 0 ∧ tail.length = 4

theorem Member.named_of_forall_ne_zero {m : Member} (hlong : 5 ≤ m.name.length)
    (hname : ∀ b ∈ m.name, b ≠ 0) : m.Named := by
  have htail : (m.name.drop (m.name.length - 5)).length = 5 := by
    rw [List.length_drop]
    omega
  cases hdrop : m.name.drop (m.name.length - 5) with
  | nil => rw [hdrop] at htail; cases htail
  | cons byte tail =>
    refine ⟨m.name.take (m.name.length - 5), byte, tail, ?_, ?_, ?_⟩
    · rw [← hdrop, List.take_append_drop]
    · exact hname byte (List.mem_of_mem_drop (hdrop ▸ List.mem_cons_self))
    · rw [hdrop] at htail
      exact Nat.succ.inj htail

/-- The bytes in front of the end record lead too far to be taken for a record that leads on. -/
theorem lastBytes_file {members : List Member} (hm : ∀ m ∈ members, m.Named)
    (hsmall : needsEnd64 members.length (directory 0 members).flatten.length
      (locals 0 members).flatten.length = false) :
    ((locals 0 members).flatten ++ (directory 0 members).flatten).length < locatorLength ∨
      ((locals 0 members).flatten ++ (directory 0 members).flatten).length
        ≤ number (Directory.lastBytes
          ((locals 0 members).flatten ++ (directory 0 members).flatten)) 8 8 := by
  rw [needsEnd64, Bool.or_eq_false_iff, decide_eq_false_iff_not, decide_eq_false_iff_not] at hsmall
  rcases List.eq_nil_or_concat members with rfl | ⟨before, m, rfl⟩
  · exact .inl (by decide)
  · right
    rw [List.concat_eq_append] at *
    obtain ⟨stem, byte, tail, hname, hbyte, htail⟩ :=
      hm m (List.mem_append_right _ List.mem_cons_self)
    -- the last entry starts where its offset needs no extra field
    have hoffset : ¬ maxField < 0 + (locals 0 before).flatten.length := by
      have hlocals := hsmall.2
      rw [locals_concat, List.flatten_append, List.length_append] at hlocals
      omega
    have hlength := hsmall.2
    have hrecord : m.centralRecord (0 + (locals 0 before).flatten.length)
        = m.centralHead (0 + (locals 0 before).flatten.length) ++ stem ++ byte :: tail := by
      rw [Member.centralRecord, Member.extra, if_neg hoffset, hname, List.append_nil,
        List.append_assoc]
    have hfront : (locals 0 (before ++ [m])).flatten ++ (directory 0 (before ++ [m])).flatten
        = ((locals 0 (before ++ [m])).flatten ++ (directory 0 before).flatten
          ++ m.centralHead (0 + (locals 0 before).flatten.length) ++ stem) ++ byte :: tail := by
      rw [directory_concat, List.flatten_append, List.flatten_singleton, hrecord]
      simp only [List.append_assoc]
    have hlong : 15 ≤ ((locals 0 (before ++ [m])).flatten ++ (directory 0 before).flatten
        ++ m.centralHead (0 + (locals 0 before).flatten.length) ++ stem).length := by
      simp only [List.length_append, Member.length_centralHead]
      omega
    have hfar := Directory.le_number_lastBytes hbyte htail hlong
    rw [← hfront] at hfar
    refine Nat.le_trans ?_ hfar
    rw [List.length_append]
    unfold maxField at hlength
    omega

theorem length_le_length_locals (offset : Nat) (members : List Member) :
    members.length ≤ (locals offset members).flatten.length := by
  induction members generalizing offset with
  | nil => exact Nat.zero_le _
  | cons m members ih =>
    have hrest := ih (offset + (m.localRecord offset).length)
    have hhead := m.length_localHead offset
    rw [locals, List.flatten_cons, List.length_append, List.length_cons, Member.localRecord,
      List.length_append, List.length_append]
    rw [Member.localRecord, List.length_append, List.length_append] at hrest
    omega

def front (members : List Member) : Bytes :=
  (locals 0 members).flatten ++ (directory 0 members).flatten

theorem file_eq (members : List Member) :
    file members = front members ++ ending members.length (directory 0 members).flatten.length
      (locals 0 members).flatten.length := rfl

theorem length_front (members : List Member) : (front members).length
    = (locals 0 members).flatten.length + (directory 0 members).flatten.length :=
  List.length_append

theorem length_front_le (members : List Member) :
    (front members).length ≤ (file members).length ∧ members.length ≤ (file members).length := by
  have hcount := length_le_length_locals 0 members
  rw [file_eq, List.length_append, length_front]
  omega

theorem ofBytes_of_find {members : List Member} (hfits : ∀ m ∈ members, m.Fits)
    (hlength : (file members).length < UInt64.size)
    (hfind : Directory.find (file members)
      = .ok { shift := 0, start := (locals 0 members).flatten.length, count := members.length }) :
    ZipFile.ofBytes (file members)
      = .ok { file := file members, entries := centrals 0 members } := by
  have hlocals := (length_front_le members).1
  rw [length_front] at hlocals
  -- the directory stands behind the entries
  have hdrop : (file members).drop (locals 0 members).flatten.length
      = (directory 0 members).flatten ++ ending members.length
        (directory 0 members).flatten.length (locals 0 members).flatten.length := by
    rw [file_eq, front, List.append_assoc, List.drop_left]
  have hread : Central.readMany (file members) 0 members.length (locals 0 members).flatten.length
      = .ok (centrals 0 members) := Central.readMany_directory hfits (by omega) hdrop
  rw [ZipFile.ofBytes, hfind]
  simp only [bind, Except.bind, hread]
  rfl

/-- A file that is written here is opened with all its entries, or refused. -/
theorem ofBytes_file {members : List Member} (hfits : ∀ m ∈ members, m.Fits)
    (hnamed : ∀ m ∈ members, m.Named) (hlength : (file members).length < UInt64.size) :
    ZipFile.ofBytes (file members) = .ok { file := file members, entries := centrals 0 members } ∨
      ∃ reason, ZipFile.ofBytes (file members) = .error (.archive (.other reason)) := by
  obtain ⟨hfront, hcount⟩ := length_front_le members
  have hfind := Directory.find_ending (length_front members) (hcount.trans_lt hlength)
    (hfront.trans_lt hlength) (lastBytes_file hnamed)
  rw [← file_eq] at hfind
  rcases hfind with hok | ⟨reason, herror⟩
  · exact .inl (ofBytes_of_find hfits hlength hok)
  · right
    rw [ZipFile.ofBytes, herror]
    exact ⟨reason, rfl⟩

theorem error_notMem_source {method : Method} {entries : List Entry}
    (hentries : ∀ e ∈ entries, (Member.ofEntry method e).Fits) {limit : Nat}
    (hshort : ∀ e ∈ entries, e.data.length ≤ limit) (e : Error) :
    .error e ∉ ZipFile.source ⟨file (entries.map (.ofEntry method)),
      centrals 0 (entries.map (.ofEntry method))⟩ limit := by
  intro hmem
  have hfile : (file (entries.map (.ofEntry method))).drop 0
      = (locals 0 (entries.map (.ofEntry method))).flatten ++ _ := List.append_assoc _ _ _
  have hread := map_entry?_centrals hentries hfile limit
  unfold ZipFile.source at hmem
  obtain ⟨c, hc, hfailed⟩ := List.mem_filterMap.1 hmem
  -- what fails would be what one of the entries gives
  have hgiven : Central.entry? c (file (entries.map (.ofEntry method))) limit
      ∈ entries.map fun e => ((Member.ofEntry method e).central 0).given limit e.data :=
    hread ▸ List.mem_map.2 ⟨c, hc, rfl⟩
  obtain ⟨e', he', hgiven⟩ := List.mem_map.1 hgiven
  rw [Central.given, if_neg (Nat.not_lt_of_le (hshort e' he'))] at hgiven
  simp only [← hgiven] at hfailed
  by_cases hdirectory : ((Member.ofEntry method e').central 0).isDirectory = true
  · simp only [if_pos hdirectory] at hfailed
    cases hfailed
  · simp only [if_neg hdirectory] at hfailed
    cases hfailed

end ScanArchive.Zip
