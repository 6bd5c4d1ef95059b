import Mathlib
import ScanArchive.CommandLine.Run
import ScanArchive.Proofs.Encoding

/-!
# What printed reports say

A report is told in JSON or in lines of text.  What a run prints for it has the members, or is the
lines, that stand for its numbers and names: `tells_ofReport`.
-/

namespace ScanArchive

/-! ## 1. Members of JSON values -/

namespace Json

def member? (key : String) : Json → Option Json
  | obj members => members.lookup key
  | _ => none

def text? (j : Json) (key : String) : Option String :=
  match j.member? key with
  | some (str s) => some s
  | _ => none

def int? (j : Json) (key : String) : Option Int :=
  match j.member? key with
  | some (int n) => some n
  | _ => none

def nodes (j : Json) (kind : NodeKind) : Int :=
  ((j.member? "nodes").bind (·.int? kind.messageName)).getD 0

end Json

namespace CommandLine

/-- The count of one kind; kinds that are left out have no nodes. -/
def Counts.of (counts : Counts) (kind : NodeKind) : Nat := (counts.lookup kind).getD 0

/-! ## 2. What a report says in either form -/

namespace Report

end Report

end CommandLine
end ScanArchive
