import Mathlib.Control.Monad.Basic
import ProbeScript.Frame.Basic

/-!
# Proofs/Frame/Served — requests served one after the other

Requests for registers and for regions of the stack are served from one frame.  They are served from
two parts of it that have nothing in common, so the requests of one sort get the answers they would
get without those of the other (`Frame.serveAll_filter`), and leave their part as it would be then.
-/

namespace ProbeScript

/-- A request for storage of a probe. -/
inductive Request where
  | register (cls : RegisterClass)
  | stack (size : Number)
  deriving DecidableEq

/-- The answer to a request: the register granted, if there was one, or the offset of the region
handed out. -/
inductive Reply where
  | register (granted : Option Nat)
  | stack (outcome : Except Fault Number)
  deriving DecidableEq

/-- Whether a register is asked for. -/
def Request.isRegister : Request → Bool
  | register _ => true
  | stack _ => false

namespace Frame

/-- Serves one request.  A fault leaves the frame as it was. -/
def serve (f : Frame) : Request → Reply × Frame
  | .register cls =>
    let (granted, f) := f.acquireRegister cls
    (.register granted, f)
  | .stack size =>
    match f.acquireStack size with
    | .ok (offset, f) => (.stack (.ok offset), f)
    | .error fault => (.stack (.error fault), f)

/-- Serves requests in order; each is listed with its answer. -/
def serveAll : List Request → Frame → List (Request × Reply) × Frame
  | [], f => ([], f)
  | r :: rest, f =>
    let (reply, f) := f.serve r
    let (served, f) := serveAll rest f
    ((r, reply) :: served, f)

variable {f g : Frame}

theorem serveAll_cons (r : Request) (rs : List Request) (f : Frame) :
    serveAll (r :: rs) f
      = ((r, (f.serve r).1) :: (serveAll rs (f.serve r).2).1, (serveAll rs (f.serve r).2).2) := rfl

theorem map_fst_serveAll (rs : List Request) (f : Frame) :
    (serveAll rs f).1.map Prod.fst = rs := by
  induction rs generalizing f with
  | nil => rfl
  | cons r rs ih => exact congrArg (r :: ·) (ih _)

/-- A part of a frame serves some of the requests, which are answered from it alone and change it
alone, and no other request changes it. -/
structure Serves {α : Type} (part : Frame → α) (mine : Request → Bool) : Prop where
  own : ∀ {f g r}, mine r = true → part f = part g →
    (serve f r).1 = (serve g r).1 ∧ part (serve f r).2 = part (serve g r).2
  other : ∀ f {r}, mine r = false → part (serve f r).2 = part f

theorem serves_registers : Serves registers Request.isRegister where
  own {f g r} hr hfg := by
    cases r with
    | register cls =>
      rw [serve, serve, acquireRegister, acquireRegister, hfg]
      exact ⟨rfl, rfl⟩
    | stack size => cases hr
  other f {r} hr := by
    cases r with
    | register cls => cases hr
    | stack size =>
      rw [serve, acquireStack]
      cases f.stack.acquire size <;> rfl

theorem serves_stack : Serves stack fun r => !r.isRegister where
  own {f g r} hr hfg := by
    cases r with
    | register cls => cases hr
    | stack size =>
      rw [serve, serve, acquireStack, acquireStack, hfg]
      cases g.stack.acquire size with
      | ok stack => exact ⟨rfl, rfl⟩
      | error fault => exact ⟨rfl, hfg⟩
  other f {r} hr := by
    cases r with
    | register cls => rfl
    | stack size => cases hr

/-- **Requests served from one part of a frame get the answers they get without the others**, and
the part ends up as it does then. -/
theorem serveAll_filter {α : Type} {part : Frame → α} {mine : Request → Bool}
    (hpart : Serves part mine) (rs : List Request) (hfg : part f = part g) :
    (serveAll rs f).1.filter (fun served => mine served.1) = (serveAll (rs.filter mine) g).1 ∧
      part (serveAll rs f).2 = part (serveAll (rs.filter mine) g).2 := by
  induction rs generalizing f g with
  | nil => exact ⟨rfl, hfg⟩
  | cons r rs ih =>
    cases hr : mine r with
    | true =>
      obtain ⟨hreply, hnext⟩ := hpart.own hr hfg
      obtain ⟨hrest, hend⟩ := ih hnext
      simp only [serveAll_cons, List.filter_cons, hr, if_true, hreply, hrest]
      exact ⟨trivial, hend⟩
    | false =>
      simp only [serveAll_cons, List.filter_cons, hr, Bool.false_eq_true, if_false]
      exact ih ((hpart.other f hr).trans hfg)

/-- The requests served from one part of a frame, made again without the others, get the answers they
got. -/
theorem serveAll_again {α : Type} {part : Frame → α} {mine : Request → Bool}
    (hpart : Serves part mine) (rs : List Request) (f : Frame) :
    let served := (serveAll rs f).1.filter fun served => mine served.1
    (serveAll (served.map Prod.fst) f).1 = served ∧
      part (serveAll (served.map Prod.fst) f).2 = part (serveAll rs f).2 := by
  intro served
  have hmap : served.map Prod.fst = rs.filter mine :=
    List.filter_map.symm.trans (congrArg (List.filter mine) (map_fst_serveAll rs f))
  obtain ⟨hkept, hend⟩ := serveAll_filter hpart rs (rfl : part f = part f)
  rw [hmap]
  exact ⟨hkept.symm, hend.symm⟩

end Frame

end ProbeScript
