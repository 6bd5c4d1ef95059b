import ScanArchive.Proofs.Archive.Entries
import ScanArchive.Proofs.Container.Zip.Cursor

/-!
# Reading forward

The ways to read from a source can be mixed.  Each read takes its share off the front of what the
reads before it have left, and depends on nothing else: `Read.run_eq` for one read, `runAll_eq` for
any number of them.  ZIP files that are read step by step are such sources: `reads_forward`.
-/

namespace ScanArchive.Source

/-! ## 1. Reads -/

inductive Read where
  | findHeader
  | readHeader
  | nextDecoded
  | next

inductive Answer where
  | found (result : Except Error VersionedHeader)
  | header (result : Except Error Header)
  | decoded (result : Except Error (Option DecodedEntry))
  | entry (result : Except Error (Option Entry))

/-- Whether a search for the header stops at an attempt: it fails, or gives a marked entry. -/
def endsSearch : Except Error Entry → Bool
  | .ok entry => entry.data.take 2 = [0, 0]
  | .error _ => true

namespace Read

def run (read : Read) (source : Source) : Answer × Source :=
  match read with
  | findHeader => (.found source.findHeader.1, source.findHeader.2)
  | readHeader => (.header source.readHeader.1, source.readHeader.2)
  | nextDecoded => (.decoded source.nextDecoded.1, source.nextDecoded.2)
  | next => (.entry source.next.1, source.next.2)

/-- How many attempts a read makes at most; it makes fewer only where the source ends. -/
def reach (read : Read) (source : Source) : Nat :=
  match read with
  | findHeader | readHeader => source.findIdx endsSearch + 1
  | nextDecoded | next => 1

end Read

/-! ## 2. One read -/

theorem findHeader_cons_of_endsSearch {attempt : Except Error Entry}
    (h : endsSearch attempt = true) (rest : Source) :
    findHeader (attempt :: rest) = ((findHeader [attempt]).1, rest) := by
  cases attempt with
  | error e => rfl
  | ok entry =>
    have hmarked : entry.data.take 2 = [0, 0] := of_decide_eq_true h
    rw [findHeader_cons_of_marked hmarked, findHeader_cons_of_marked hmarked]

theorem findHeader_cons_of_not_endsSearch {attempt : Except Error Entry}
    (h : endsSearch attempt = false) (rest : Source) :
    findHeader (attempt :: rest) = findHeader rest := by
  cases attempt with
  | error e => cases h
  | ok entry => exact findHeader_cons_of_not_marked (of_decide_eq_false h) rest

theorem findHeader_eq (source : Source) : findHeader source
    = ((findHeader (source.take (source.findIdx endsSearch + 1))).1,
        source.drop (source.findIdx endsSearch + 1)) := by
  -- over the entries that are passed over in front of the attempt at which it stops
  induction source with
  | nil => rfl
  | cons attempt rest ih =>
    cases hends : endsSearch attempt with
    | true =>
      rw [List.findIdx_cons, hends]
      exact findHeader_cons_of_endsSearch hends rest
    | false =>
      rw [List.findIdx_cons, hends]
      show _ = ((findHeader (attempt :: rest.take _)).1, rest.drop _)
      rw [findHeader_cons_of_not_endsSearch hends, findHeader_cons_of_not_endsSearch hends]
      exact ih

/-- A read is settled by the attempts that it makes, and leaves the others as they are. -/
theorem Read.run_eq (read : Read) (source : Source) : read.run source
    = ((read.run (source.take (read.reach source))).1, source.drop (read.reach source)) := by
  cases read with
  | findHeader =>
    rw [run, run, findHeader_eq source]
    rfl
  | readHeader =>
    rw [run, run, Source.readHeader, Source.readHeader, findHeader_eq source]
    rfl
  | nextDecoded =>
    cases source with
    | nil => rfl
    | cons attempt rest => cases attempt <;> rfl
  | next =>
    cases source with
    | nil => rfl
    | cons attempt rest => cases attempt <;> rfl

/-! ## 3. One read after another -/

def runAll : List Read → Source → List Answer × Source
  | [], source => ([], source)
  | read :: reads, source =>
    ((read.run source).1 :: (runAll reads (read.run source).2).1,
      (runAll reads (read.run source).2).2)

/-- What each of successive reads takes off the source. -/
def shares : List Read → Source → List Source
  | [], _ => []
  | read :: reads, source =>
    source.take (read.reach source) :: shares reads (source.drop (read.reach source))

theorem runAll_eq (reads : List Read) (source : Source) :
    (runAll reads source).1
      = List.zipWith (fun read share => (read.run share).1) reads (shares reads source) ∧
    (shares reads source).flatten ++ (runAll reads source).2 = source := by
  -- over the reads, for whatever those before have left
  induction reads generalizing source with
  | nil => exact ⟨rfl, rfl⟩
  | cons read reads ih =>
    obtain ⟨hanswers, hrest⟩ := ih (source.drop (read.reach source))
    rw [runAll, shares, read.run_eq source]
    constructor
    · rw [List.zipWith_cons_cons, hanswers]
    · rw [List.flatten_cons, List.append_assoc, hrest, List.take_append_drop]

theorem length_shares (reads : List Read) (source : Source) :
    (shares reads source).length = reads.length := by
  induction reads generalizing source with
  | nil => rfl
  | cons read reads ih => rw [shares, List.length_cons, List.length_cons, ih]

/-! ## 4. Sources and ZIP files -/

/--
However reads are mixed, each takes its share off the front of what is left, no attempt is lost or
made twice, and an answer depends on the share alone.  For a ZIP file that is read step by step
the attempts are those on its source: all entries in order but the directories that open, each
once, whatever becomes of the others, and nothing after the last.  An entry over the limit fails.
-/
theorem reads_forward :
    (∀ (reads : List Read) (source : Source),
      (runAll reads source).1
        = List.zipWith (fun read share => (read.run share).1) reads (shares reads source) ∧
      (shares reads source).length = reads.length ∧
      (shares reads source).flatten ++ (runAll reads source).2 = source) ∧
    (∀ c : ZipCursor, (c.next.1, c.next.2.left) = c.left.next) ∧
    ∀ (z : ZipFile) (limit : Nat),
      (z.cursor limit).left = z.source limit ∧
      (∀ n, (z.cursor limit).attempts n
        = ((z.visited limit).take n).map (fun c => c.entry? z.file limit)
          ++ List.replicate (n - (z.visited limit).length) (.ok none)) ∧
      (z.visited limit).Sublist z.entries ∧
      (z.visited limit).filter (!·.isDirectory) = z.entries.filter (!·.isDirectory) ∧
      (∀ c ∈ z.visited limit, c.isDirectory = true → ∃ e, c.entry? z.file limit = .error e) ∧
      ∀ (c : Zip.Central) (bound : Nat) (e : Entry), c.entry? z.file bound = .ok (some e) →
        c.entry? z.file limit =
          if limit < e.data.length then .error (.archive (.entryTooLarge c.name limit))
          else .ok (some e) := by
  refine ⟨fun reads source => ?_, fun c => c.next_eq_left, fun z limit => ⟨rfl,
    z.attempts_cursor limit, List.filter_sublist, z.filter_visited limit, fun c hc hdirectory => ?_,
    fun c bound e h => Zip.Central.entry?_of_eq_some h limit⟩⟩
  · obtain ⟨hanswers, hrest⟩ := runAll_eq reads source
    exact ⟨hanswers, length_shares reads source, hrest⟩
  · -- a directory that opens would have been passed over
    rcases Zip.Central.entry?_of_isDirectory hdirectory limit with hpassed | hfails
    · have hvisited := (List.mem_filter.1 hc).2
      rw [Zip.Central.isPassedOver_iff.2 hpassed] at hvisited
      cases hvisited
    · exact hfails

/-- The front of a ZIP file, with the local record of an entry that has the byte 7 for contents. -/
def sevenFile : Bytes := Zip.u32 Zip.localSignature ++ List.replicate 26 0 ++ [7]

def sevenEntry : Zip.Central where
  name := "seven"
  encrypted := false
  isSealed := false
  method := some .stored
  crc := (Crc32.checksum [7]).toNat
  packedSize := 1
  size := 1
  offset := 0

/-- A directory that does not open. -/
def closedEntry : Zip.Central := { sevenEntry with name := "closed/", encrypted := true }

theorem torn_source_reads_forward :
    (runAll [.findHeader, .nextDecoded, .next]
      [.ok ⟨"remarks", [1]⟩, .error Zip.endOfFile, .ok ⟨"torn", [0]⟩]).2 = [] ∧
    (∃ e, closedEntry.entry? sevenFile 0 = .error e) ∧
    sevenEntry.entry? sevenFile 0 = .error (.archive (.entryTooLarge "seven" 0)) := by
  have hread : sevenEntry.entry? sevenFile 1 = .ok (some ⟨"seven", [7]⟩) := by decide +kernel
  have hclosed : closedEntry ∈ ZipFile.visited ⟨sevenFile, [closedEntry, sevenEntry]⟩ 0 :=
    List.mem_filter.2 ⟨List.mem_cons_self, by decide +kernel⟩
  obtain ⟨hreads, -, hzip⟩ := reads_forward
  obtain ⟨-, -, -, -, hdirectory, hlimit⟩ := hzip ⟨sevenFile, [closedEntry, sevenEntry]⟩ 0
  refine ⟨?_, hdirectory closedEntry hclosed (by decide +kernel), hlimit sevenEntry 1 _ hread⟩
  -- the search takes the first two, the last read finds nothing
  have hshares : shares [.findHeader, .nextDecoded, .next]
      [.ok ⟨"remarks", [1]⟩, .error Zip.endOfFile, .ok ⟨"torn", [0]⟩]
      = [[.ok ⟨"remarks", [1]⟩, .error Zip.endOfFile], [.ok ⟨"torn", [0]⟩], []] := rfl
  obtain ⟨-, -, hleft⟩ := hreads [.findHeader, .nextDecoded, .next]
    [.ok ⟨"remarks", [1]⟩, .error Zip.endOfFile, .ok ⟨"torn", [0]⟩]
  rw [hshares] at hleft
  exact List.append_right_eq_self.1 hleft

end ScanArchive.Source
