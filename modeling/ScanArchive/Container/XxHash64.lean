import ScanArchive.Bytes

/-!
# The hash XXH64

A hash of 64 bits.  Bytes go in stripes of 32 into four lanes, each of which takes eight of them;
what is left in the end goes in word by word and byte by byte.
-/

namespace ScanArchive.XxHash64

def prime₁ : UInt64 := 0x9E3779B185EBCA87
def prime₂ : UInt64 := 0xC2B2AE3D27D4EB4F
def prime₃ : UInt64 := 0x165667B19E3779F9
def prime₄ : UInt64 := 0x85EBCA77C2B2AE63
def prime₅ : UInt64 := 0x27D4EB2F165667C5

def rotate (w count : UInt64) : UInt64 := w <<< count ||| w >>> (64 - count)

def round (lane word : UInt64) : UInt64 := rotate (lane + word * prime₂) 31 * prime₁

def word (bytes : Bytes) : UInt64 := UInt64.ofNat (Bytes.littleEndian (bytes.take 8))

structure State where
  lane₁ : UInt64 := prime₁ + prime₂
  lane₂ : UInt64 := prime₂
  lane₃ : UInt64 := 0
  lane₄ : UInt64 := 0 - prime₁
  length : Nat := 0
  /-- the bytes that do not fill a stripe -/
  left : Bytes := []

def State.stripe (s : State) (bytes : Bytes) : State :=
  { s with
    lane₁ := round s.lane₁ (word bytes)
    lane₂ := round s.lane₂ (word (bytes.drop 8))
    lane₃ := round s.lane₃ (word (bytes.drop 16))
    lane₄ := round s.lane₄ (word (bytes.drop 24))
    length := s.length + 32 }

def State.stripes (s : State) (bytes : Bytes) : State :=
  match h : Bytes.split? 32 bytes with
  | none => { s with left := bytes, length := s.length + bytes.length }
  | some (front, rest) =>
    have := Bytes.length_of_split? h
    (s.stripe front).stripes rest
  termination_by bytes.length

def State.add (s : State) (bytes : Bytes) : State :=
  { s with left := [], length := s.length - s.left.length }.stripes (s.left ++ bytes)

def State.lanes (s : State) : UInt64 :=
  if s.length < 32 then prime₅
  else
    let all := [s.lane₁, s.lane₂, s.lane₃, s.lane₄]
    let turned := (all.zip [1, 7, 12, 18]).foldl (fun h (lane, count) => h + rotate lane count) 0
    all.foldl (fun h lane => (h ^^^ round 0 lane) * prime₁ + prime₄) turned

/-- Takes up the last words: eight bytes each, then four, then one. -/
def takeLast (h : UInt64) (bytes : Bytes) : UInt64 :=
  match bytes with
  | a :: b :: c :: d :: e :: f :: g :: i :: rest =>
    takeLast (rotate (h ^^^ round 0 (word [a, b, c, d, e, f, g, i])) 27 * prime₁ + prime₄) rest
  | a :: b :: c :: d :: rest =>
    takeLast (rotate (h ^^^ word [a, b, c, d] * prime₁) 23 * prime₂ + prime₃) rest
  | a :: rest => takeLast (rotate (h ^^^ word [a] * prime₅) 11 * prime₁) rest
  | [] => h

def spread (h : UInt64) : UInt64 :=
  let h := (h ^^^ h >>> 33) * prime₂
  let h := (h ^^^ h >>> 29) * prime₃
  h ^^^ h >>> 32

def State.digest (s : State) : UInt64 :=
  spread (takeLast (s.lanes + UInt64.ofNat s.length) s.left)

end ScanArchive.XxHash64
