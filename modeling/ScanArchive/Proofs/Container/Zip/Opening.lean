import ScanArchive.Proofs.Container.Names
import ScanArchive.Proofs.Container.Zip.Reading

/-!
# Opening ZIP files

A ZIP file that is written here is opened, unless it has no large end record and the bytes in
front of its end record look as if there were one.  All entries of a file that is opened are given.
-/

namespace ScanArchive.Zip

/-! ## 1. Files that can be opened -/

/--
Whether the bytes in front of the end record look like the record that leads to a large end
record, though there is none.
-/
def SeemsLarge (members : List Member) : Prop :=
  needsEnd64 members.length (directory 0 members).flatten.length
      (locals 0 members).flatten.length = false ∧
    number (Directory.lastBytes (front members)) 0 4 = locatorSignature

theorem ofBytes_file_of_not_seemsLarge {members : List Member} (hfits : ∀ m ∈ members, m.Fits)
    (hseems : ¬ SeemsLarge members) (hlength : (file members).length < UInt64.size) :
    ZipFile.ofBytes (file members)
      = .ok { file := file members, entries := centrals 0 members } := by
  refine ofBytes_of_find hfits hlength ?_
  obtain ⟨hfront, hcount⟩ := length_front_le members
  rw [file_eq]
  cases hneeds : needsEnd64 members.length (directory 0 members).flatten.length
      (locals 0 members).flatten.length with
  | true =>
    exact Directory.find_ending_of_needsEnd64 (length_front members) (hcount.trans_lt hlength)
      (hfront.trans_lt hlength) hneeds
  | false =>
    exact Directory.find_ending_of_number (length_front members) hneeds
      (.inr fun hnumber => hseems ⟨hneeds, hnumber⟩)

/-! ## 2. Names that do not mislead -/

/-- What stands in each central record between the length of the name and the offset. -/
def fixedPart : Bytes := [0, 0, 0, 0, 0, 0, 0, 0, 0, 0, 0xA4, 0x81]

theorem exists_centralRecord_eq (m : Member) {offset : Nat} (hoffset : offset ≤ maxField) :
    ∃ start, m.centralRecord offset = start ++ (fixedPart ++ u32 offset ++ m.name) := by
  have hextra : Member.extra offset = [] := if_neg (Nat.not_lt.2 hoffset)
  refine ⟨u32 centralSignature ++ u16 versionMadeBy ++ m.common offset ++ u16 m.name.length, ?_⟩
  rw [Member.centralRecord, Member.centralHead, hextra, Nat.min_eq_left hoffset]
  simp only [List.append_assoc, List.append_nil]
  rfl

theorem take_of_number {bytes : Bytes} (h : number bytes 0 4 = locatorSignature) :
    bytes.take 4 = u32 locatorSignature := by
  have hnumber : Bytes.littleEndian (bytes.take 4) = locatorSignature := h
  have hlength : (bytes.take 4).length = 4 := by
    by_contra hshort
    have hle : (bytes.take 4).length ≤ 3 := by
      have hmost : (bytes.take 4).length ≤ 4 := List.length_take_le _ _
      omega
    have hlt := (Bytes.littleEndian_lt (bytes.take 4)).trans_le
      (Nat.pow_le_pow_right (by decide) hle)
    rw [hnumber] at hlt
    exact absurd hlt (by decide)
  rw [← Bytes.toLittleEndian_littleEndian (bytes.take 4), hlength, hnumber]
  rfl

/-- Behind a name of fewer than 16 bytes the signature would have to stand in the fixed part. -/
theorem exists_fixedPart_ne : ∀ count < 16, 0 < count → ∃ i < 4, 4 ≤ count + i ∧ count + i < 16 ∧
    fixedPart[count + i - 4]? ≠ (u32 locatorSignature)[i]? := by
  decide

theorem take_drop_ne {start name : Bytes} {offset : Nat} (hstart : 4 ≤ start.length)
    (hoffset : offset < locatorSignature) (hname : name ≠ []) (hbell : 0x07 ∉ name) :
    ((start ++ (fixedPart ++ u32 offset ++ name)).drop
      ((start ++ (fixedPart ++ u32 offset ++ name)).length - locatorLength)).take 4
        ≠ u32 locatorSignature := by
  intro hbytes
  have hpos := List.length_pos_iff.2 hname
  have htail : (fixedPart ++ u32 offset).length = 16 := rfl
  have hat : ∀ i < 4, 4 ≤ name.length + i →
      (fixedPart ++ u32 offset ++ name)[name.length + i - 4]? = (u32 locatorSignature)[i]? := by
    intro i hi hle
    have hplace : (start ++ (fixedPart ++ u32 offset ++ name)).length - locatorLength + i
        = start.length + (name.length + i - 4) := by
      rw [List.length_append, List.length_append, htail, locatorLength]
      omega
    rw [← hbytes, List.getElem?_take_of_lt hi, List.getElem?_drop, hplace,
      List.getElem?_append_right (Nat.le_add_right _ _), Nat.add_sub_cancel_left]
  rcases Nat.lt_trichotomy name.length 16 with hshort | hequal | hlong
  · obtain ⟨i, hi, hle, hlt, hne⟩ := exists_fixedPart_ne name.length hshort hpos
    refine hne ?_
    rw [← hat i hi hle, List.append_assoc, List.getElem?_append_left]
    exact (show name.length + i - 4 < 12 by omega)
  · -- the offset would be the signature
    have hsame : u32 offset = u32 locatorSignature := by
      refine List.ext_getElem? fun i => ?_
      by_cases hi : i < 4
      · have hplace : name.length + i - 4 = fixedPart.length + i := by
          show name.length + i - 4 = 12 + i
          omega
        rw [← hat i hi (by omega), hplace, List.append_assoc,
          List.getElem?_append_right (Nat.le_add_right _ _), Nat.add_sub_cancel_left,
          List.getElem?_append_left (hi.trans_eq (length_u32 offset).symm)]
      · rw [List.getElem?_eq_none, List.getElem?_eq_none] <;> rw [length_u32] <;> omega
    have hnumber := congrArg (number · 0 4) hsame
    simp only [number_u32_last] at hnumber
    unfold locatorSignature at hoffset hnumber
    omega
  · have hlast := hat 3 (by decide) (by omega)
    rw [List.getElem?_append_right (by omega)] at hlast
    exact hbell (List.mem_of_getElem? hlast)

/--
Where names have no bell in them and the entries are not too long, what stands in front of the end
record does not mislead: the last name is too short for it, or has an offset or a letter where the
signature should be.
-/
theorem not_seemsLarge {members : List Member}
    (hnames : ∀ m ∈ members, m.name ≠ [] ∧ 0x07 ∉ m.name)
    (hlength : (front members).length ≤ locatorSignature) : ¬ SeemsLarge members := by
  rintro ⟨-, hnumber⟩
  have hbytes := take_of_number hnumber
  rcases List.eq_nil_or_concat members with rfl | ⟨before, m, rfl⟩
  · cases hbytes
  · rw [List.concat_eq_append] at *
    obtain ⟨hname, hbell⟩ := hnames m (List.mem_append_right _ List.mem_cons_self)
    have hlocals : (locals 0 before).flatten.length + 30
        ≤ (locals 0 (before ++ [m])).flatten.length := by
      rw [locals_concat, List.flatten_append, List.flatten_singleton, List.length_append,
        Member.localRecord, List.length_append, List.length_append, Member.length_localHead]
      omega
    have hoffset : 0 + (locals 0 before).flatten.length < locatorSignature := by
      rw [length_front] at hlength
      omega
    obtain ⟨start, hstart⟩ := exists_centralRecord_eq m
      (hoffset.le.trans (show locatorSignature ≤ maxField by decide))
    have hfront : front (before ++ [m])
        = (locals 0 (before ++ [m])).flatten ++ (directory 0 before).flatten ++ start
          ++ (fixedPart ++ u32 (0 + (locals 0 before).flatten.length) ++ m.name) := by
      rw [front, directory_concat, List.flatten_append, List.flatten_singleton, hstart]
      simp only [List.append_assoc]
    rw [Directory.lastBytes, hfront] at hbytes
    refine take_drop_ne ?_ hoffset hname hbell hbytes
    rw [List.length_append, List.length_append]
    omega

-- the last name of a file can be taken for the record itself
example : (ZipFile.ofBytes (file [.ofEntry .stored ⟨"PK\x06\x07aaaaaaaaaaaaaaaa", []⟩])).toOption
    = none := by cbv

/-! ## 3. The entries of a file -/

variable {method : Method} {entries : List Entry} {limit : Nat}

theorem given_central {e : Entry} (hname : IsRelative e.name) (hshort : e.data.length ≤ limit) :
    ((Member.ofEntry method e).central 0).given limit e.data = .ok (some e) := by
  rw [Central.given, hname.isDirectory_central, if_neg (by decide),
    if_neg (Nat.not_lt.2 hshort), hname.name_central]

theorem source_of_map {f : Bytes} {cs : List Central}
    (hread : cs.map (fun c => c.entry? f limit) = entries.map fun e => .ok (some e)) :
    ZipFile.source ⟨f, cs⟩ limit = .ofEntries entries := by
  induction entries generalizing cs with
  | nil =>
    rw [List.map_nil, List.map_eq_nil_iff] at hread
    rw [hread]
    rfl
  | cons e entries ih =>
    obtain ⟨c, cs, rfl, hc, hcs⟩ := List.map_eq_cons_iff.1 hread
    have hrest := ih hcs
    unfold ZipFile.source at hrest ⊢
    rw [List.filterMap_cons, hrest]
    simp only [hc]
    rfl

theorem source_file (hfits : ∀ e ∈ entries, (Member.ofEntry method e).Fits)
    (hnames : ∀ e ∈ entries, IsRelative e.name) (hshort : ∀ e ∈ entries, e.data.length ≤ limit) :
    ZipFile.source ⟨file (entries.map (.ofEntry method)),
      centrals 0 (entries.map (.ofEntry method))⟩ limit = .ofEntries entries := by
  have hread := map_entry?_centrals hfits
    (show (file (entries.map (.ofEntry method))).drop 0
      = (locals 0 (entries.map (.ofEntry method))).flatten ++ _ from List.append_assoc _ _ _) limit
  have hgiven : (entries.map fun e => ((Member.ofEntry method e).central 0).given limit e.data)
      = entries.map fun e => .ok (some e) :=
    List.map_congr_left fun e he => given_central (hnames e he) (hshort e he)
  exact source_of_map (hread.trans hgiven)

theorem source_ofBytes_file (hnames : ∀ e ∈ entries, IsRelative e.name)
    (hlimit : 2 * limit + 5 < maxField) (hshort : ∀ e ∈ entries, e.data.length ≤ limit)
    (hseems : ¬ SeemsLarge (entries.map (.ofEntry method)))
    (hlength : (file (entries.map (.ofEntry method))).length < UInt64.size) :
    (ZipFile.ofBytes (file (entries.map (.ofEntry method)))).map (·.source limit)
      = .ok (.ofEntries entries) := by
  have hfits : ∀ e ∈ entries, (Member.ofEntry method e).Fits := fun e he =>
    Member.fits_ofEntry method ((hnames e he).short.trans (by decide)) hlimit (hshort e he)
  rw [ofBytes_file_of_not_seemsLarge (List.forall_mem_map.2 hfits) hseems hlength]
  exact congrArg _ (source_file hfits hnames hshort)

end ScanArchive.Zip
