import ScanArchive.Container.Bits
import ScanArchive.Container.Zstd.Shares

/-!
# State tables

Symbols coded by the states of a machine: a state stands for a symbol, and the next state is
among those that a few bits can choose.  A symbol has as many states as its share says, out of a
power of two.
-/

namespace ScanArchive.Zstd

structure State where
  symbol : Nat
  /-- the number of bits that choose the next state -/
  width : Nat
  /-- the first of the states among which they choose -/
  base : Nat

/-- The states of a machine, a power of two of them. -/
structure StateTable where
  log : Nat
  states : Array State

namespace StateTable

def single (symbol : Nat) : StateTable := { log := 0, states := #[⟨symbol, 0, 0⟩] }

/--
The places of the states with shares, in the order in which symbols take them: steps of a fixed
length around the table, which pass over the last places.
-/
def places (size taken : Nat) : List Nat :=
  let step := size / 2 + size / 8 + 3
  ((List.range size).map fun i => i * step % size).filter (· < size - taken)

/-- The symbols of the states.  The share -1 stands for one state, from the last place on. -/
def symbolsOf (size : Nat) (shares : List Int) : Array Nat :=
  let indexed := shares.zipIdx
  let rare := (indexed.filter (·.1 = -1)).map (·.2)
  let spread := indexed.flatMap fun (share, symbol) => List.replicate share.toNat symbol
  let ends := (List.range rare.length).map (size - 1 - ·)
  ((ends.zip rare) ++ (places size rare.length).zip spread).foldl
    (fun symbols (place, symbol) => symbols.setIfInBounds place symbol) (Array.replicate size 0)

def ofShares (shares : Shares) : StateTable :=
  let log := shares.log
  let size := 1 <<< log
  let counters := (shares.each.map (·.natAbs)).toArray
  let (states, _) := (symbolsOf size shares.each).foldl
    (fun (states, counters) symbol =>
      let next := counters[symbol]?.getD 1
      let width := log - next.log2
      (states.push ⟨symbol, width, next <<< width - size⟩,
        counters.setIfInBounds symbol (next + 1)))
    ((#[] : Array State), counters)
  { log, states }

/-! ## Running -/

def start? (t : StateTable) (r : BackwardReader) : Option (State × BackwardReader) := do
  let (n, r) ← r.bits? t.log
  return (← t.states[n]?, r)

def next? (t : StateTable) (s : State) (r : BackwardReader) : Option (State × BackwardReader) := do
  let (n, r) ← r.bits? s.width
  return (← t.states[s.base + n]?, r)

/--
The symbols of two machines that take turns until the bits run out; each step takes a state and
may take no bits, so that the number of symbols is limited.
-/
def alternate (t : StateTable) : (limit : Nat) → State → State → BackwardReader → Option (List Nat)
  | 0, _, _, _ => none
  | limit + 1, first, second, r =>
    match t.next? first r with
    | none => some [first.symbol, second.symbol]
    | some (first', r) => (alternate t limit second first' r).map (first.symbol :: ·)

end StateTable
end ScanArchive.Zstd
