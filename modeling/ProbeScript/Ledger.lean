import ProbeScript.Note
import ProbeScript.Forest.Basic
import ProbeScript.Frame.Basic
import ProbeScript.Provider.Basic

/-!
# Ledger — the records attached to nodes

What is decided about nodes after they are built is kept beside the forest, in records.  A record is
attached to any number of nodes: one of their own for most, one per symbol for maps and variables.
The record of a probe also holds the probe's storage and its provider.
-/

namespace ProbeScript

/-- The identity of a record. -/
abbrev RecordId := Nat

/-- A record: a note, and for a probe its storage and the provider found for it. -/
structure Record where
  note : Note := {}
  frame : Option Frame := none
  provider : Option Provider := none
  deriving DecidableEq

/-- All records, and which of them is attached to which node, the latest attachment first. -/
structure Ledger where
  records : Array Record := #[]
  attached : List (NodeId × RecordId) := []

namespace Ledger

/-- The record of an identity.  One that is not in use reads as undecided. -/
def record (ledger : Ledger) (r : RecordId) : Record := ledger.records.getD r {}

/-- The record attached to a node. -/
def recordOf? (ledger : Ledger) (n : NodeId) : Option RecordId :=
  (ledger.attached.find? fun pair => pair.1 == n).map Prod.snd

/-- The note of a node, if a record is attached to it. -/
def note? (ledger : Ledger) (n : NodeId) : Option Note :=
  (ledger.recordOf? n).map fun r => (ledger.record r).note

/-- Makes a record that is attached to no node. -/
def create (ledger : Ledger) (record : Record) : RecordId × Ledger :=
  (ledger.records.size, { ledger with records := ledger.records.push record })

/-- Attaches a record to a node in place of the one it had. -/
def attach (ledger : Ledger) (n : NodeId) (r : RecordId) : Ledger :=
  { ledger with attached := (n, r) :: ledger.attached }

/-- Changes a record in place, for all nodes it is attached to. -/
def modify (ledger : Ledger) (r : RecordId) (change : Record → Record) : Ledger :=
  { ledger with records := ledger.records.modify r change }

/-- Changes the record attached to a node in place; nothing happens where none is. -/
def modifyAt (ledger : Ledger) (n : NodeId) (change : Record → Record) : Ledger :=
  match ledger.recordOf? n with
  | some r => ledger.modify r change
  | none => ledger

/-- Changes a note in place. -/
def annotate (ledger : Ledger) (r : RecordId) (change : Note → Note) : Ledger :=
  ledger.modify r fun record => { record with note := change record.note }

/-- Changes the note of a node in place; nothing happens where there is none. -/
def annotateAt (ledger : Ledger) (n : NodeId) (change : Note → Note) : Ledger :=
  match ledger.recordOf? n with
  | some r => ledger.annotate r change
  | none => ledger

/-- Gives a node a new record with the given note.  It keeps the storage of the one before, but
not its provider. -/
def replace (ledger : Ledger) (n : NodeId) (note : Note) : Ledger :=
  let frame := (ledger.recordOf? n).bind fun r => (ledger.record r).frame
  let (r, ledger) := ledger.create { note, frame }
  ledger.attach n r

/-! ## Storage and providers of probes -/

/-- The storage of a probe, untouched where the record holds none. -/
def frame (ledger : Ledger) (probe : NodeId) : Frame :=
  ((ledger.recordOf? probe).bind fun r => (ledger.record r).frame).getD {}

/-- The ledger in which a probe has the given storage. -/
def setFrame (ledger : Ledger) (probe : NodeId) (frame : Frame) : Ledger :=
  ledger.modifyAt probe fun record => { record with frame := some frame }

/-- Grants a register of a probe to a class, while there is one. -/
def acquireRegister (ledger : Ledger) (probe : NodeId) (cls : RegisterClass) :
    Option Nat × Ledger :=
  let (register, frame) := (ledger.frame probe).acquireRegister cls
  (register, ledger.setFrame probe frame)

/-- Hands out a region of the stack of a probe; the answer is its offset. -/
def acquireStack (ledger : Ledger) (probe : NodeId) (size : Number) :
    Except Fault (Number × Ledger) :=
  ((ledger.frame probe).acquireStack size).map fun (offset, frame) =>
    (offset, ledger.setFrame probe frame)

/-- The provider found for a probe. -/
def provider? (ledger : Ledger) (probe : NodeId) : Option Provider :=
  (ledger.recordOf? probe).bind fun r => (ledger.record r).provider

/-- The ledger in which a provider is found for a probe. -/
def setProvider (ledger : Ledger) (probe : NodeId) (provider : Provider) : Ledger :=
  ledger.modifyAt probe fun record => { record with provider := some provider }

/-- The provider found for the probe around a node. -/
def providerAround? (ledger : Ledger) (probe? : Option NodeId) : Option Provider :=
  probe?.bind ledger.provider?

end Ledger

end ProbeScript
