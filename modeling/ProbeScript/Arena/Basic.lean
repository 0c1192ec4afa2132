import ProbeScript.Fault
import ProbeScript.Ledger

/-!
# Arena/Basic — the nodes built for one script

An arena owns nodes from their construction until they are released, along with the record of their
own that most of them have.  It remembers the record as it was when the node was adopted, so a
record put in its place later does not change the count.
-/

namespace ProbeScript

/-- The nodes an arena owns, each with the record adopted along with it, and the count of these
records. -/
structure Arena where
  live : List (NodeId × Option RecordId) := []
  records : Nat := 0
  deriving DecidableEq

namespace Arena

/-- The entry of a node. -/
def entry? (a : Arena) (n : NodeId) : Option (NodeId × Option RecordId) :=
  a.live.find? fun entry => entry.1 == n

/-- Whether an arena owns a node. -/
def owns (a : Arena) (n : NodeId) : Bool := (a.entry? n).isSome

/-- How many nodes an arena owns. -/
def size (a : Arena) : Nat := a.live.length

/-- The arena that owns one node more. -/
def insert (a : Arena) (n : NodeId) (record : Option RecordId) : Arena where
  live := (n, record) :: a.live
  records := if record.isSome then a.records + 1 else a.records

/-- Takes a node over, along with its record if that is its own. -/
def adopt (a : Arena) (f : Forest) (ledger : Ledger) (n : NodeId) : Except Fault Arena :=
  if a.owns n then .error (.adoptedTwice (f.kind n))
  else .ok (a.insert n (if (f.kind n).ownsRecord then ledger.recordOf? n else none))

/-- Gives a node up, along with the record adopted with it. -/
def release (a : Arena) (f : Forest) (n : NodeId) : Except Fault Arena :=
  match a.entry? n with
  | none => .error (.notLive (f.kind n))
  | some (_, record) =>
    .ok {
      live := a.live.filter fun entry => entry.1 != n
      records := if record.isSome then a.records - 1 else a.records }

end Arena

end ProbeScript
