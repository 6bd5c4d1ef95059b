import ScanArchive.Bytes

/-!
# Shares

How often the states of a machine have each symbol, out of a power of two.  Shares are numbers of
as many bits as what remains of the power of two needs, read out of a window of four bytes that
moves over them and stops at the last four.
-/

namespace ScanArchive.Zstd

structure ShareCursor where
  /-- the byte at which the window starts -/
  start : Nat := 0
  /-- how many bits of the window are behind the place -/
  past : Nat := 0

namespace ShareCursor

/-- The bits of the window from the place on, and zeros behind them. -/
def bits (c : ShareCursor) (bytes : Bytes) : Nat :=
  Bytes.littleEndian ((bytes.drop c.start).take 4) >>> c.past

def skip (c : ShareCursor) (count : Nat) : ShareCursor := { c with past := c.past + count }

/--
Moves the window to the byte of the place, at most to the last four of `size` bytes.  Beyond the
end places come round again.
-/
def settle (c : ShareCursor) (size : Nat) : ShareCursor :=
  let last := size - 4
  let next := c.start + c.past / 8
  if next ≤ last then { start := next, past := c.past % 8 }
  else { start := last, past := (c.past - 8 * (last - c.start)) % 32 }

end ShareCursor

/--
Reads a number that is at most `remaining + 1`, and tells its width; the smallest of them take
one bit less.
-/
def readValue (remaining bits : Nat) : Nat × Nat :=
  let width := (remaining + 1).log2
  let threshold := 1 <<< (width + 1) - 1 - (remaining + 1)
  let low := bits % 1 <<< width
  if low < threshold then (low, width)
  else
    let full := bits % 1 <<< (width + 1)
    (if 1 <<< width ≤ full then full - threshold else full, width + 1)

/-- The number of pairs of ones before the first other pair. -/
def pairsOfOnes : (limit bits : Nat) → Nat
  | 0, _ => 0
  | limit + 1, bits => if bits % 4 = 3 then pairsOfOnes limit (bits / 4) + 1 else 0

/--
Reads how many more shares are zero: two bits at a time, up to a number below 3.  As long as there
are 24 ones ahead, they go together.
-/
def readZeros (bytes : Bytes) (size : Nat) : (steps : Nat) → ShareCursor → Option (Nat × ShareCursor)
  | 0, _ => none
  | steps + 1, c =>
    let bits := c.bits bytes
    let pairs := pairsOfOnes 15 bits
    if 12 ≤ pairs then
      (readZeros bytes size steps ((c.skip 24).settle size)).map fun (n, c) => (n + 36, c)
    else some (3 * pairs + (bits >>> (2 * pairs)) % 4, c.skip (2 * pairs + 2))

/--
Reads shares until nothing remains, at most as many as there are symbols left, given those before,
the last one first.
-/
def readShares (bytes : Bytes) (size : Nat) :
    (symbols remaining : Nat) → List Int → ShareCursor → Option (List Int × ShareCursor)
  | 0, _, _, _ => none
  | symbols + 1, remaining, shares, c => do
    let (value, width) := readValue remaining (c.bits bytes)
    let share : Int := value - 1
    let remaining := remaining - share.natAbs
    let shares := share :: shares
    let c := c.skip width
    if remaining = 0 then return (shares.reverse, c)
    let c := c.settle size
    if share = 0 then
      let (zeros, c) ← readZeros bytes size (size + 1) c
      readShares bytes size (symbols - zeros) remaining (List.replicate zeros 0 ++ shares)
        (c.settle size)
    else readShares bytes size symbols remaining shares c

/-- The shares of symbols. -/
structure Shares where
  /-- the exponent of the power of two that they come to -/
  log : Nat
  each : List Int

/--
Reads the shares of at most the given number of symbols; also gives the bytes after them.  Fewer
than eight bytes are filled up with zeros first.
-/
def Shares.read? (maxLog symbols : Nat) (bytes : Bytes) : Option (Shares × Bytes) := do
  let filled := Bytes.padded 8 bytes
  let log := Bytes.littleEndian (bytes.take 1) % 16 + 5
  if maxLog < log then none
  let (each, c) ← readShares filled filled.length symbols (1 <<< log) [] { past := 4 }
  let taken := c.start + (c.past + 7) / 8
  if 32 < c.past ∨ bytes.length < taken then none
  return ({ log, each }, bytes.drop taken)

end ScanArchive.Zstd
