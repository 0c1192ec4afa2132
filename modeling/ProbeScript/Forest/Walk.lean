import ProbeScript.Fault
import ProbeScript.Forest.Basic
import ProbeScript.Number.Basic

/-!
# Forest/Walk — visiting a tree with two callbacks

A walk visits a node and then, in order, what lies below it.  One callback is run before the nodes
below a node are visited and one after them, over a state of the client's own.  A callback answers
a status, which can be any number: at either zero the walk goes on, at any other it stops for good,
and so it does when a callback raises something.
-/

namespace ProbeScript

/-- The answer of a callback; zero means to go on. -/
abbrev Status := Number

/-- How far a walk has come: its status or what was raised, and the state. -/
abbrev Progress (ε σ : Type) := Except ε Status × σ

/-- A callback over states `σ`: its answer, or what it raises, and the state it leaves. -/
abbrev Visitor (ε σ : Type) := NodeId → σ → Progress ε σ

/-- Goes on with a walk unless it has stopped. -/
def Progress.proceed {ε σ : Type} (p : Progress ε σ) (rest : σ → Progress ε σ) : Progress ε σ :=
  match p with
  | (.ok status, s) => if status.isZero then rest s else (.ok status, s)
  | (.error what, s) => (.error what, s)

/-- Runs a callback on a node; an absent one goes on. -/
def Visitor.run {ε σ : Type} (callback : Option (Visitor ε σ)) (n : NodeId) (s : σ) :
    Progress ε σ :=
  match callback with
  | some visitor => visitor n s
  | none => (.ok 0, s)

/-- Runs a callback on one node after the other. -/
def Visitor.runEach {ε σ : Type} (visitor : Visitor ε σ) : List NodeId → σ → Progress ε σ
  | [], s => (.ok 0, s)
  | n :: rest, s => Progress.proceed (visitor n s) fun s => visitor.runEach rest s

namespace Forest

variable {ε σ : Type} [Raises ε]

/-- Walks over what lies below a node, if no path downwards has more than `depth` nodes; the fault
at a longer one is `Fault.endlessDescent`, which no check raises.  A walk that comes to its end
answers zero. -/
def walkUpTo (f : Forest) (pre post : Option (Visitor ε σ)) : Nat → Visitor ε σ
  | 0, _, s => (.error (Raises.fault .endlessDescent), s)
  | depth + 1, n, s =>
    Progress.proceed (Visitor.run pre n s) fun s =>
      Progress.proceed (Visitor.runEach (f.walkUpTo pre post depth) (f.children n) s) fun s =>
        Progress.proceed (Visitor.run post n s) fun s => (.ok 0, s)

/-- Walks over what lies below a node.  A path downwards longer than the number of nodes comes back
to a node it has passed: to follow it further would use up the stack, and `Fault.endlessDescent`
stands for that. -/
def walk (f : Forest) (n : NodeId) (pre post : Option (Visitor ε σ)) (s : σ) : Progress ε σ :=
  f.walkUpTo pre post (f.size + 1) n s

end Forest

end ProbeScript
