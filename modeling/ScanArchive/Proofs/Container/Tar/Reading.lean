import ScanArchive.Container.Tar.Source
import ScanArchive.Proofs.Container.Tar.Header
import ScanArchive.Proofs.Container.Zstd.Complete

/-!
# Reading tar files back

Where a feed holds entries that are laid out here and the end of a file behind them, they are
given in order, each under the path that it was laid out with, unless the feed fails.
-/

namespace ScanArchive.Tar

open Feed

section

variable {σ α : Type} {holds : σ → Bytes → Prop} {fails : String → Prop}
  {refuses : Error → Prop}

theorem draws_draw
    (hrefuses : ∀ purpose reason, fails reason → refuses (malformed (purpose ++ reason)))
    (purpose : String) {d : Drawing σ α} {bytes : Bytes} {post : α → Bytes → Prop}
    (hd : Draws holds fails d bytes post) : Draws holds refuses (draw purpose d) bytes post where
  ok s a s' hs hdraw := by
    unfold draw at hdraw
    cases hfound : d s with
    | error reason => rw [hfound] at hdraw; cases hdraw
    | ok found =>
      rw [hfound] at hdraw
      cases hdraw
      exact hd.ok s _ _ hs hfound
  error s e hs hdraw := by
    unfold draw at hdraw
    cases hfound : d s with
    | ok found => rw [hfound] at hdraw; cases hdraw
    | error reason =>
      rw [hfound] at hdraw
      cases hdraw
      exact hrefuses purpose reason (hd.error s reason hs hfound)

end

section

variable {σ : Type} [Feed σ] {holds : σ → Bytes → Prop} {fails : String → Prop}
  (hfeed : Gives holds fails)

include hfeed

/-! ## 1. Blocks -/

theorem draws_nextHeader {block : Bytes} (hblock : block.length = blockSize) (rest : Bytes) :
    Draws holds fails nextHeader (block ++ rest) fun found behind =>
      found = (if block.all (· = 0) then none else some block) ∧ behind = rest := by
  unfold nextHeader
  refine (draws_fill hfeed (Nat.le_refl blockSize) (block ++ rest)).bind ?_
  rintro front behind ⟨rfl, rfl⟩
  rw [← hblock, List.take_left, List.drop_left]
  have hnil : block ≠ [] := by
    rintro rfl
    exact absurd hblock (by decide)
  rw [if_neg (mt List.isEmpty_iff.1 hnil), hblock, if_neg (Nat.lt_irrefl _)]
  exact .pure ⟨rfl, rfl⟩

theorem draws_passRest (padding rest : Bytes) :
    Draws holds fails (passRest padding.length) (padding ++ rest) fun _ behind =>
      behind = rest := by
  unfold passRest
  refine (draws_pass hfeed (Nat.le_refl padding.length) (padding ++ rest)).bind ?_
  rintro isDone behind ⟨rfl, rfl⟩
  have hdone : decide (padding.length ≤ (padding ++ rest).length) = true := by simp
  rw [hdone, List.drop_left]
  exact .pure rfl

end

/-! ## 2. Entries -/

structure Member where
  path : Bytes
  data : Bytes

namespace Member

def bytes (m : Member) : Bytes := member m.path m.data

def given (m : Member) : Entry := ⟨Text.ofBytesLossy m.path, m.data⟩

def padding (m : Member) : Bytes := List.replicate (wholeBlocks m.data.length - m.data.length) 0

theorem bytes_eq (m : Member) : m.bytes = header m.path m.data.length ++ (m.data ++ m.padding) :=
  rfl

structure Fits (m : Member) (limit : Nat) : Prop where
  header : Tar.Fits m.path m.data.length
  path : ∀ b ∈ m.path, b ≠ 0
  data : m.data.length ≤ limit

theorem le_wholeBlocks (size : Nat) : size ≤ wholeBlocks size ∧ wholeBlocks size ≤ size + 511 := by
  unfold wholeBlocks blockSize
  omega

theorem length_bytes {m : Member} {limit : Nat} (hm : m.Fits limit) :
    m.bytes.length = blockSize + wholeBlocks m.data.length := by
  have hle := (le_wholeBlocks m.data.length).1
  rw [bytes_eq, List.length_append, List.length_append, length_header hm.header, padding,
    List.length_replicate]
  omega

end Member

section

variable {σ : Type} [Feed σ] {holds : σ → Bytes → Prop} {fails : String → Prop}
  (hfeed : Gives holds fails) {refuses : Error → Prop}
  (hrefuses : ∀ purpose reason, fails reason → refuses (malformed (purpose ++ reason)))
  {limit : Nat} {m : Member} (hm : m.Fits limit)

include hfeed hrefuses hm

theorem draws_contents (name : String) (rest : Bytes) :
    Draws holds refuses (contents limit name m.data.length) (m.data ++ rest) fun data behind =>
      data = m.data ∧ behind = rest := by
  -- the limit is not reached
  have hsize : min m.data.length (min (limit + 1) (UInt64.size - 1)) = m.data.length := by
    have hlimit := hm.data
    have hword := hm.header.size
    have hpow : 8 ^ 11 < UInt64.size := by decide
    omega
  unfold contents
  simp only [hsize]
  refine (draws_draw hrefuses _ (draws_collect hfeed 0 m.data.length (m.data ++ rest))).bind ?_
  rintro data behind ⟨rfl, rfl⟩
  rw [List.take_left, List.drop_left, if_neg (Nat.not_lt_of_le hm.data)]
  exact .pure ⟨rfl, rfl⟩

theorem draws_readMember {p : Progress} (hp : p.announced = {}) (rest : Bytes) :
    Draws holds refuses (readMember limit (header m.path m.data.length) m.data.length p)
      (m.data ++ rest) fun found behind =>
        found = (m.data.length, { p with entries := m.given :: p.entries }) ∧ behind = rest := by
  have hheader := hm.header
  have hpath : (Announced.pathOf {} (header m.path m.data.length)) = m.path :=
    headerPath_header hheader hm.path
  -- all other kinds of entries are ruled out
  have hkind : ¬ kind (header m.path m.data.length) = 'S' := by
    rw [kind_header hheader]
    decide
  unfold readMember
  simp only [announces_header hheader (show 'L' ≠ '\x00' by decide),
    announces_header hheader (show 'K' ≠ '\x00' by decide),
    announces_header hheader (show 'x' ≠ '\x00' by decide), if_neg hkind, isFile_header hheader,
    Bool.false_eq_true, if_false, if_true, hp, hpath]
  refine (draws_contents hfeed hrefuses hm _ rest).bind ?_
  rintro data behind ⟨rfl, rfl⟩
  refine .pure ⟨?_, rfl⟩
  rw [← hp]
  rfl

theorem draws_readEntry {p : Progress} (hp : p.announced = {})
    (hplace : p.place + m.bytes.length < UInt64.size) (rest : Bytes) :
    Draws holds refuses (readEntry limit (header m.path m.data.length) p)
      (m.data ++ (m.padding ++ rest)) fun p' behind =>
        p' = { p with place := p.place + m.bytes.length, entries := m.given :: p.entries } ∧
          behind = rest := by
  have hheader := hm.header
  have hlength := Member.length_bytes hm
  have hwhole := Member.le_wholeBlocks m.data.length
  have hsize : p.announced.sizeOf (header m.path m.data.length) = .ok m.data.length := by
    have hnone : ¬ (announces 'L' (header m.path m.data.length) = true ∨
        announces 'K' (header m.path m.data.length) = true) := by
      rw [announces_header hheader (by decide), announces_header hheader (by decide)]
      decide
    rw [hp, Announced.sizeOf, headerSize_header hheader]
    simp only [bind, Except.bind, if_neg hnone]
    rfl
  -- the checksum is right, and nothing else gives a size
  have hchecked : Draws holds fails (do
      (checkSum (header m.path m.data.length) : Except String Unit)
      (p.announced.sizeOf (header m.path m.data.length) : Except String Nat) : Drawing σ Nat)
      (m.data ++ (m.padding ++ rest)) fun size behind =>
        size = m.data.length ∧ behind = m.data ++ (m.padding ++ rest) := by
    rw [checkSum_header hheader, hsize]
    exact .pure ⟨rfl, rfl⟩
  unfold readEntry
  refine (draws_draw hrefuses "" hchecked).bind ?_
  rintro size behind ⟨rfl, rfl⟩
  have hsmall : ¬ (UInt64.size ≤ m.data.length + (blockSize - 1) ∨
      UInt64.size ≤ p.place + blockSize + wholeBlocks m.data.length) := by
    have hword := hheader.size
    have hpow : 8 ^ 11 + blockSize < UInt64.size := by decide
    omega
  simp only [if_neg hsmall]
  refine (draws_readMember hfeed hrefuses hm
    (p := { p with place := p.place + blockSize + wholeBlocks m.data.length }) hp _).bind ?_
  rintro found behind ⟨rfl, rfl⟩
  have hpadding : wholeBlocks m.data.length - m.data.length = m.padding.length :=
    List.length_replicate.symm
  simp only [hpadding]
  refine (draws_draw hrefuses "" (draws_passRest hfeed m.padding rest)).bind ?_
  rintro - behind rfl
  refine .pure ⟨?_, rfl⟩
  rw [hlength, Nat.add_assoc]

end

/-! ## 3. Files -/

def layout (members : List Member) : Bytes := (members.map (·.bytes)).flatten ++ trailer

theorem length_trailer : trailer.length = 2 * blockSize := length_padded_nil _

theorem length_layout_cons (m : Member) (members : List Member) :
    (layout (m :: members)).length = m.bytes.length + (layout members).length := by
  rw [layout, List.map_cons, List.flatten_cons, List.append_assoc, List.length_append]
  rfl

theorem Member.length_bytes_pos (m : Member) : 0 < m.bytes.length := by
  rw [bytes_eq, Tar.header, List.length_append, List.length_append, length_headerEnd]
  omega

theorem length_lt_length_layout (members : List Member) :
    members.length < (layout members).length := by
  induction members with
  | nil =>
    show 0 < trailer.length
    rw [length_trailer]
    decide
  | cons m members ih =>
    have hpos := m.length_bytes_pos
    rw [length_layout_cons, List.length_cons]
    omega

theorem length_le_length_layout {members : List Member} {limit : Nat}
    (hm : ∀ m ∈ members, m.Fits limit) :
    (members.length + 1) * blockSize ≤ (layout members).length := by
  induction members with
  | nil =>
    have htrailer : (layout []).length = 2 * blockSize := length_trailer
    rw [htrailer, List.length_nil]
    omega
  | cons m members ih =>
    obtain ⟨hfirst, hrest⟩ := List.forall_mem_cons.1 hm
    have hlater := ih hrest
    rw [length_layout_cons, List.length_cons, Member.length_bytes hfirst,
      Nat.succ_mul]
    omega

theorem exists_trailer_eq :
    ∃ block : Bytes, block.length = blockSize ∧ block.all (· = 0) = true ∧
      trailer = block ++ block := by
  refine ⟨List.replicate blockSize 0, List.length_replicate, ?_, ?_⟩
  · rw [List.all_replicate]
    simp
  · rw [trailer, Bytes.padded, List.replicate_append_replicate]
    rfl

section

variable {σ : Type} [Feed σ] {holds : σ → Bytes → Prop} {fails : String → Prop}
  (hfeed : Gives holds fails) {refuses : Error → Prop}
  (hrefuses : ∀ purpose reason, fails reason → refuses (malformed (purpose ++ reason)))
  {limit : Nat}

include hfeed hrefuses

/-- Entries are read one after another, up to the end of the file. -/
theorem draws_readEntries {members : List Member} (hm : ∀ m ∈ members, m.Fits limit) {steps : Nat}
    (hsteps : members.length < steps) {p : Progress} (hp : p.announced = {})
    (hplace : p.place + (layout members).length < UInt64.size) :
    Draws holds refuses (readEntries limit steps p) (layout members) fun entries _ =>
      entries = p.entries.reverse ++ members.map (·.given) := by
  induction members generalizing steps p with
  | nil =>
    obtain ⟨steps, rfl⟩ : ∃ k, steps = k + 1 := ⟨steps - 1, by omega⟩
    -- the first block of zeros ends the file
    obtain ⟨block, hblock, hzero, htrailer⟩ := exists_trailer_eq
    rw [show layout [] = block ++ block from htrailer]
    unfold readEntries
    refine (draws_draw hrefuses "" (draws_nextHeader hfeed hblock _)).bind ?_
    rintro found behind ⟨rfl, rfl⟩
    rw [hzero, if_pos rfl, hp]
    exact .pure (List.append_nil _).symm
  | cons m members ih =>
    obtain ⟨steps, rfl⟩ : ∃ k, steps = k + 1 := ⟨steps - 1, by omega⟩
    obtain ⟨hfirst, hrest⟩ := List.forall_mem_cons.1 hm
    -- a header, the contents up to a whole block, and the other entries
    have hbytes : layout (m :: members)
        = header m.path m.data.length ++ (m.data ++ (m.padding ++ layout members)) := by
      rw [layout, List.map_cons, List.flatten_cons, Member.bytes_eq]
      simp only [List.append_assoc, layout]
    rw [length_layout_cons] at hplace
    rw [List.length_cons] at hsteps
    rw [hbytes]
    unfold readEntries
    refine (draws_draw hrefuses ""
      (draws_nextHeader hfeed (length_header hfirst.header) _)).bind ?_
    rintro found behind ⟨rfl, rfl⟩
    rw [all_header, if_neg Bool.false_ne_true]
    refine (draws_readEntry hfeed hrefuses hfirst hp (by omega) _).bind ?_
    rintro p' behind ⟨rfl, rfl⟩
    have hnext : p.place + m.bytes.length + (layout members).length < UInt64.size := by omega
    refine (ih hrest (show members.length < steps by omega) (p := { p with
      place := p.place + m.bytes.length, entries := m.given :: p.entries }) hp hnext).mono ?_
    rintro entries - rfl
    rw [List.reverse_cons, List.append_assoc]
    rfl

/-- A file that is laid out here is read with all its entries, or refused. -/
theorem read_layout {members : List Member} (hm : ∀ m ∈ members, m.Fits limit)
    (hlength : (layout members).length < UInt64.size) {s : σ} (hs : holds s (layout members)) :
    read limit s = .ok (members.map (·.given)) ∨ ∃ e, refuses e ∧ read limit s = .error e := by
  have hsteps : members.length < UInt64.size / blockSize := by
    have hlong := length_le_length_layout hm
    unfold blockSize at *
    omega
  have hdraws := draws_readEntries hfeed hrefuses hm hsteps (p := {}) rfl (by simpa using hlength)
  unfold read
  cases hread : readEntries limit (UInt64.size / blockSize) {} s with
  | error e => exact .inr ⟨e, hdraws.error s e hs hread, rfl⟩
  | ok found =>
    obtain ⟨entries, s'⟩ := found
    obtain ⟨rest, rfl, -⟩ := hdraws.ok s entries s' hs hread
    exact .inl rfl

end

theorem tarZstdSource_frame {limit : Nat} {members : List Member}
    (hm : ∀ m ∈ members, m.Fits limit)
    (hlength : (Zstd.frame (layout members)).length < UInt64.size) :
    tarZstdSource limit (Zstd.frame (layout members))
      = .ok (.ofEntries (members.map (·.given))) := by
  have hlayout := (Zstd.length_le_length_frame (layout members)).trans_lt hlength
  have hread : read limit (Zstd.Reader.ofBytes (Zstd.frame (layout members)))
        = .ok (members.map (·.given)) ∨
      ∃ e, False ∧ read limit (Zstd.Reader.ofBytes (Zstd.frame (layout members))) = .error e :=
    read_layout Zstd.Reader.gives_all (fun _ _ => id) hm hlayout
      (Zstd.Reader.yields_ofBytes (layout members))
  rcases hread with hok | ⟨_, hnever, -⟩
  · rw [tarZstdSource, hok]
    rfl
  · exact hnever.elim

end ScanArchive.Tar
