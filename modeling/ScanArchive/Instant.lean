import ScanArchive.Wire.Field

/-!
# Points in time

A message carries a point in time as seconds since the start of 1970 and nanoseconds on top,
neither of which need be in its usual range.  An instant stands on the UTC calendar, to the
nanosecond, over the years from -262143 to 262142; in a leap second it counts its nanoseconds from
the second before.
-/

namespace ScanArchive

/-! ## Timestamps -/

/-- Seconds and nanoseconds since 1970-01-01T00:00:00 UTC. -/
structure Timestamp where
  seconds : Int64 := 0
  nanos : Int32 := 0
  deriving DecidableEq, Inhabited, Repr

namespace Timestamp

open Wire in
def message : Message Timestamp where
  name := "Timestamp"
  initial := {}
  fields := [
    .plain .int64 "seconds" 1 (·.seconds) fun t v => { t with seconds := v },
    .plain .int32 "nanos" 2 (·.nanos) fun t v => { t with nanos := v }]

end Timestamp

/-! ## Instants -/

def nanosPerSecond : Int := 1000000000

namespace Timestamp

def minSeconds : Int := -0x8000000000000000

def maxSeconds : Int := 0x7FFFFFFFFFFFFFFF

/-- Carries whole seconds out of the nanoseconds, toward zero; stays in range if they overflow. -/
def carry (t : Timestamp) : Timestamp :=
  let seconds := t.seconds.toInt + t.nanos.toInt.tdiv nanosPerSecond
  if seconds < minSeconds then { seconds := Int64.ofInt minSeconds, nanos := 0 }
  else if maxSeconds < seconds then { seconds := Int64.ofInt maxSeconds, nanos := 999999999 }
  else
    { seconds := Int64.ofInt seconds, nanos := Int32.ofInt (t.nanos.toInt.tmod nanosPerSecond) }

/-- Makes negative nanoseconds positive by a second, if there is one to take. -/
def borrow (t : Timestamp) : Timestamp :=
  if 0 ≤ t.nanos.toInt then t
  else if t.seconds.toInt = minSeconds then { t with nanos := 0 }
  else
    { seconds := Int64.ofInt (t.seconds.toInt - 1)
      nanos := Int32.ofInt (t.nanos.toInt + nanosPerSecond) }

/-- The same point in time with nanoseconds from 0 to 999999999, as far as it can be had. -/
def normalize (t : Timestamp) : Timestamp := t.carry.borrow

end Timestamp

structure Instant where
  /-- seconds since 1970-01-01T00:00:00 -/
  seconds : Int
  /-- nanoseconds on top; a second or more in a leap second -/
  nanos : Nat
  deriving DecidableEq, Repr

namespace Instant

/-- The first second of the year -262143. -/
def minSeconds : Int := -8334601228800

/-- The last second of the year 262142. -/
def maxSeconds : Int := 8210266876799

def ofParts? (seconds : Int) (nanos : Nat) : Option Instant :=
  if seconds < minSeconds ∨ maxSeconds < seconds then none
  else if 2000000000 ≤ nanos then none
  else if 1000000000 ≤ nanos ∧ seconds % 60 ≠ 59 then none
  else some { seconds, nanos }

def toTimestamp (t : Instant) : Timestamp :=
  { seconds := Int64.ofInt t.seconds, nanos := Int32.ofInt t.nanos }

def ofTimestamp? (t : Timestamp) : Option Instant :=
  let t := t.normalize
  ofParts? t.seconds.toInt t.nanos.toInt.toNat

end Instant

structure Date where
  year : Int
  month : Nat
  day : Nat
  deriving DecidableEq, Repr

namespace Date

/--
The date a number of days after 1970-01-01.  Years are counted from March, so that the leap day
comes last, in eras of 400 years.
-/
def ofDays (days : Int) : Date :=
  let shifted := days + 719468
  let era := shifted / 146097
  let dayOfEra := (shifted % 146097).toNat
  let yearOfEra := (dayOfEra - dayOfEra / 1460 + dayOfEra / 36524 - dayOfEra / 146096) / 365
  let dayOfYear := dayOfEra - (365 * yearOfEra + yearOfEra / 4 - yearOfEra / 100)
  let monthFromMarch := (5 * dayOfYear + 2) / 153
  let month := if monthFromMarch < 10 then monthFromMarch + 3 else monthFromMarch - 9
  { year := yearOfEra + era * 400 + (if month ≤ 2 then 1 else 0)
    month
    day := dayOfYear - (153 * monthFromMarch + 2) / 5 + 1 }

end Date

namespace Instant

def padded (width n : Nat) : String :=
  let digits := toString n
  String.ofList (List.replicate (width - digits.length) '0') ++ digits

def yearText (year : Int) : String :=
  if year < 0 then "-" ++ padded 4 year.natAbs
  else if 9999 < year then "+" ++ padded 4 year.natAbs
  else padded 4 year.natAbs

/-- A fraction of a second in three, six or nine digits, or nothing when it is zero. -/
def fractionText (nanos : Nat) : String :=
  if nanos = 0 then ""
  else if nanos % 1000000 = 0 then "." ++ padded 3 (nanos / 1000000)
  else if nanos % 1000 = 0 then "." ++ padded 6 (nanos / 1000)
  else "." ++ padded 9 nanos

/-- Date and time of day with the offset of UTC; a leap second is the 60th of its minute. -/
def rfc3339 (t : Instant) : String :=
  let date := Date.ofDays (t.seconds / 86400)
  let second := (t.seconds % 86400).toNat
  let leap := t.nanos / 1000000000
  yearText date.year ++ "-" ++ padded 2 date.month ++ "-" ++ padded 2 date.day
    ++ "T" ++ padded 2 (second / 3600) ++ ":" ++ padded 2 (second / 60 % 60)
    ++ ":" ++ padded 2 (second % 60 + leap) ++ fractionText (t.nanos % 1000000000) ++ "+00:00"

end Instant
end ScanArchive
