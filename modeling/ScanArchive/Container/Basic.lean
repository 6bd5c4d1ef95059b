import ScanArchive.Archive.Writer
import ScanArchive.Container.Tar.Sink
import ScanArchive.Container.Tar.Source
import ScanArchive.Container.Zip.Layout
import ScanArchive.Container.Zip.Source

/-!
# Containers of either format

A container is of one of two formats, which is chosen when it is opened.  Writers can start a
container of their own.
-/

namespace ScanArchive

/-! ## Choice of a format -/

inductive ContainerSink where
  | zip (s : ZipSink)
  | tarZstd (s : TarSink)

namespace ContainerSink

def ofFormat : ContainerFormat → ContainerSink
  | .zip => zip {}
  | .tarZstd => tarZstd {}

def format : ContainerSink → ContainerFormat
  | zip _ => .zip
  | tarZstd _ => .tarZstd

def dispatch (onZip : Call ZipSink Unit) (onTar : Call TarSink Unit) : Call ContainerSink Unit :=
  fun sink => match sink with
    | zip s => let (outcome, s) := onZip s; (outcome, zip s)
    | tarZstd s => let (outcome, s) := onTar s; (outcome, tarZstd s)

instance : Sink ContainerSink Bytes where
  startEntry name := dispatch (Sink.startEntry name) (Sink.startEntry name)
  writeBytes bytes := dispatch (Sink.writeBytes bytes) (Sink.writeBytes bytes)
  finish
    | zip s => s.finish
    | tarZstd s => s.finish

end ContainerSink

def ContainerFormat.source (format : ContainerFormat) (limit : Nat) (file : Bytes) :
    Except Error Source :=
  match format with
  | zip => (ZipFile.ofBytes file).map (·.source limit)
  | tarZstd => tarZstdSource limit file

/-! ## New archives -/

namespace Writer

def create (config : WriterConfig) : Except Error (Writer ContainerSink) := do
  config.validate.mapError Error.ofConfig
  ofSink (.ofFormat config.container) config

def createZip (config : WriterConfig) : Except Error (Writer ZipSink) := do
  (config.expectContainer .zip).mapError Error.ofConfig
  ofSink {} config

def createTarZstd (config : WriterConfig) : Except Error (Writer TarSink) := do
  (config.expectContainer .tarZstd).mapError Error.ofConfig
  ofSink {} config

end Writer
end ScanArchive
