import ScanArchive.Archive.Contents
import ScanArchive.Container.Basic
import ScanArchive.Config
import ScanArchive.Container.Zip.Source
import ScanArchive.Header
import ScanArchive.Main
import ScanArchive.Node.Messages
import ScanArchive.SignatureType
import ScanArchive.Proofs.Encoding
import ScanArchive.Proofs.Framing.Reading
import ScanArchive.Proofs.Framing.Messages
import ScanArchive.Proofs.Archive.Layout
import ScanArchive.Proofs.Archive.Writing
import ScanArchive.Proofs.Archive.Transcript
import ScanArchive.Proofs.Archive.Run
import ScanArchive.Proofs.Archive.Sound
import ScanArchive.Proofs.Archive.Faultless
import ScanArchive.Proofs.Archive.Faults
import ScanArchive.Proofs.Archive.HeaderFaults
import ScanArchive.Proofs.Node.Codec
import ScanArchive.Proofs.Archive.Rejection
import ScanArchive.Proofs.Archive.Rollover
import ScanArchive.Proofs.Archive.EntrySize
import ScanArchive.Proofs.Container.Deflate
import ScanArchive.Proofs.Container.Zip.Records
import ScanArchive.Proofs.Container.Zip.Directory
import ScanArchive.Proofs.Container.Zip.Reading
import ScanArchive.Proofs.Container.Feed
import ScanArchive.Proofs.Container.Zstd
import ScanArchive.Proofs.Container.Zstd.Complete
import ScanArchive.Proofs.Container.Tar.Header
import ScanArchive.Proofs.Container.Tar.Reading
import ScanArchive.Proofs.Container.Sinks
import ScanArchive.Proofs.Container.Names
import ScanArchive.Proofs.Container.Zip.Opening
import ScanArchive.Proofs.Archive.Twin
import ScanArchive.Proofs.Archive.ReadBack
import ScanArchive.Proofs.Container.Refinement
import ScanArchive.Proofs.Framing.Accepted
import ScanArchive.Proofs.Framing.Grammar
import ScanArchive.Proofs.Envelope
import ScanArchive.Proofs.CommandLine
import ScanArchive.Proofs.Archive.Entries
import ScanArchive.Proofs.Archive.Arrangement
import ScanArchive.Proofs.Chunk
import ScanArchive.Proofs.Archive.Forward
import ScanArchive.Proofs.Instant
import ScanArchive.Proofs.Archive.Agreement
import ScanArchive.Proofs.Wire.Foreign
import ScanArchive.Proofs.Archive.OtherVersion
import ScanArchive.Proofs.Archive.Renewal
import ScanArchive.Proofs.Framing.Delivery
import ScanArchive.Proofs.Archive.Routes
import ScanArchive.Proofs.Archive.Truncation
import ScanArchive.Proofs.Validation
import ScanArchive.Proofs.Dict
import ScanArchive.Proofs.SignatureType
import ScanArchive.Proofs.Framing.Sequence
