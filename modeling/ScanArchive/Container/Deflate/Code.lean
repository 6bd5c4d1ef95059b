import ScanArchive.Container.Bits

/-!
# Prefix codes of deflated forms

A canonical prefix code is given by the lengths of its words: shorter words come first, and
words of one length stand for the symbols in ascending order.  The words use up all bit strings,
except that there may be one word of one bit, which then is a zero, or no word.
-/

namespace ScanArchive

/-! ## Bits, until they run out -/

inductive Deflate.Stop where
  | truncated
  /-- the data break the rules, which shows when so many bytes have not been looked at -/
  | corrupt (left : Nat)
  deriving DecidableEq, Repr

namespace BitReader

def bit (r : BitReader) : Except Deflate.Stop (Nat × BitReader) :=
  match r.bit? with
  | some found => .ok found
  | none => .error .truncated

def bits (width : Nat) (r : BitReader) : Except Deflate.Stop (Nat × BitReader) :=
  match r.bits? width with
  | some found => .ok found
  | none => .error .truncated

def corrupt (r : BitReader) : Deflate.Stop := .corrupt r.rest.length

end BitReader

/-! ## Codes -/

namespace Deflate

/-- A canonical prefix code. -/
inductive Code where
  /--
  the number of words of each length, from length 1 on, and the symbols in the order of their
  words
  -/
  | complete (counts : List Nat) (symbols : Array Nat)
  /-- one word, a zero -/
  | sole (symbol : Nat)
  | empty

namespace Code

def maxLength : Nat := 15

/-- The code with a word of the given length for each symbol, none where the length is 0. -/
def ofLengths? (lengths : List Nat) : Option Code :=
  let widths := (List.range maxLength).map (· + 1)
  let counts := widths.map fun width => lengths.count width
  let covered := widths.foldr (fun width sum => lengths.count width <<< (maxLength - width) + sum) 0
  let indexed := lengths.zipIdx
  let words := widths.flatMap fun width => indexed.filter (·.1 = width)
  if covered = 1 <<< maxLength then some (complete counts (words.map (·.2)).toArray)
  else
    match words with
    | [] => some empty
    | [(1, symbol)] => some (sole symbol)
    | _ => none

def isComplete : Code → Bool
  | complete .. => true
  | _ => false

/--
Reads on in a word: `word` is what has been read, `first` the first word of its length and
`index` the number of shorter words, each at the length before the first of the counts.
-/
def readFrom (symbols : Array Nat) :
    List Nat → (word first index : Nat) → BitReader → Except Stop (Nat × BitReader)
  | [], _, _, _, r => .error r.corrupt
  | count :: counts, word, first, index, r => do
    let (b, r) ← r.bit
    let word := 2 * word + b
    let first := 2 * first
    if word < first + count then
      match symbols[index + (word - first)]? with
      | some symbol => return (symbol, r)
      | none => throw r.corrupt
    else readFrom symbols counts word (first + count) (index + count) r

def read (code : Code) (r : BitReader) : Except Stop (Nat × BitReader) :=
  match code with
  | complete counts symbols => readFrom symbols counts 0 0 0 r
  | sole symbol => do
    let (b, r) ← r.bit
    if b = 0 then return (symbol, r) else throw r.corrupt
  | empty => do
    let (_, r) ← r.bit
    throw r.corrupt

end Code

end Deflate
end ScanArchive
