import ProbeScript.Forest.Walk
import ProbeScript.Proofs.Forest.Grounded

/-!
# Proofs/Forest/Euler — a walk is its list of events, run until one stops it

The events of a node are its own entry, the events of its children in order, and its own exit.
Running that flat list is what a walk does (`walk_eq_runEvents`), however deep the callback that
stops it, and a run of a list is settled by the first event that stops it (`runEvents_outcome`).
-/

namespace ProbeScript

/-- A callback of a walk is due: the first one on the way down, the second one on the way up. -/
inductive Event where
  | enter (n : NodeId)
  | leave (n : NodeId)
  deriving DecidableEq

namespace Event

/-- The node entered. -/
def entered? : Event → Option NodeId
  | enter n => some n
  | leave _ => none

/-- The node left. -/
def left? : Event → Option NodeId
  | enter _ => none
  | leave n => some n

end Event

/-! ## The events of a tree -/

namespace Visit

mutual

/-- The events of a visit. -/
def events : Visit → List Event
  | node id inner => .enter id :: eventsAll inner ++ [.leave id]

/-- The events of several visits, one visit after the other. -/
def eventsAll : List Visit → List Event
  | [] => []
  | v :: rest => v.events ++ eventsAll rest

end

theorem eventsAll_eq_flatMap : ∀ vs : List Visit, eventsAll vs = vs.flatMap events
  | [] => rfl
  | v :: rest => by rw [eventsAll, eventsAll_eq_flatMap rest, List.flatMap_cons]

end Visit

namespace Forest

variable {f : Forest} {n : NodeId}

/-- The events of the descent from a node, in order; none where the descent does not end. -/
def euler (f : Forest) (n : NodeId) : List Event := ((f.visit? n).map Visit.events).getD []

theorem euler_of_visit? {v : Visit} (h : f.visit? n = some v) : f.euler n = v.events := by
  rw [euler, h, Option.map_some, Option.getD_some]

/-- **The events of a node are its entry, the events of its children, and its exit.** -/
theorem Grounded.euler_eq (h : f.Grounded n) :
    f.euler n = .enter n :: (f.children n).flatMap f.euler ++ [.leave n] := by
  obtain ⟨vs, hv, hvs⟩ := h.visit?_eq
  rw [euler_of_visit? hv, Visit.events, Visit.eventsAll_eq_flatMap, flatMap_visit? _ hvs]
  rfl

/-! ## The nodes in the order they are entered and left -/

/-- The nodes visited below a node, each before those below it. -/
def preorder (f : Forest) (n : NodeId) : List NodeId := (f.euler n).filterMap Event.entered?

/-- The nodes visited below a node, each after those below it. -/
def postorder (f : Forest) (n : NodeId) : List NodeId := (f.euler n).filterMap Event.left?

theorem enter_mem_euler {m : NodeId} (h : m ∈ f.preorder n) : .enter m ∈ f.euler n := by
  obtain ⟨e, he, hm⟩ := List.mem_filterMap.mp h
  rcases e with k | k
  · obtain rfl := Option.some.inj hm
    exact he
  · cases hm

theorem Grounded.preorder_eq (h : f.Grounded n) :
    f.preorder n = n :: (f.children n).flatMap f.preorder := by
  rw [preorder, h.euler_eq, List.filterMap_append, List.filterMap_cons, List.filterMap_flatMap]
  exact List.append_nil _

theorem Grounded.postorder_eq (h : f.Grounded n) :
    f.postorder n = (f.children n).flatMap f.postorder ++ [n] := by
  rw [postorder, h.euler_eq, List.filterMap_append, List.filterMap_cons, List.filterMap_flatMap]
  rfl

/-- **A node is left as often as it is entered.** -/
theorem Grounded.postorder_perm (h : f.Grounded n) : (f.postorder n).Perm (f.preorder n) := by
  induction h with
  | @intro n children ih =>
    have hn := Grounded.intro children
    rw [hn.postorder_eq, hn.preorder_eq]
    exact (List.perm_append_singleton n _).trans (.cons n (List.Perm.flatMap_left _ ih))

/-- What holds of a node and with any node of its children holds of all nodes visited. -/
theorem Grounded.forall_preorder {P : NodeId → Prop} (h : f.Grounded n) (hn : P n)
    (hstep : ∀ m, P m → ∀ c ∈ f.children m, P c) : ∀ m ∈ f.preorder n, P m := by
  induction h with
  | @intro n children ih =>
    intro m hm
    rw [(Grounded.intro children).preorder_eq] at hm
    rcases List.mem_cons.mp hm with rfl | hm
    · exact hn
    · obtain ⟨c, hc, hm⟩ := List.mem_flatMap.mp hm
      exact ih c hc (hstep n hn c hc) m hm

/-- All nodes visited but the first lie right below another one. -/
theorem Grounded.exists_above {m : NodeId} (h : f.Grounded n) (hm : m ∈ f.preorder n)
    (hne : m ≠ n) : ∃ p ∈ f.preorder n, m ∈ f.children p := by
  induction h with
  | @intro n children ih =>
    rw [(Grounded.intro children).preorder_eq] at hm ⊢
    obtain ⟨c, hc, hm⟩ := List.mem_flatMap.mp ((List.mem_cons.mp hm).resolve_left hne)
    by_cases hmc : m = c
    · exact ⟨n, List.mem_cons_self, hmc ▸ hc⟩
    · obtain ⟨p, hp, hmp⟩ := ih c hc hm hmc
      exact ⟨p, List.mem_cons_of_mem n (List.mem_flatMap.mpr ⟨c, hc, hp⟩), hmp⟩

end Forest

/-! ## Running a list of events -/

namespace Progress

variable {ε σ : Type}

@[simp] theorem proceed_go (s : σ) (rest : σ → Progress ε σ) :
    Progress.proceed (.ok 0, s) rest = rest s := rfl

theorem proceed_assoc (p : Progress ε σ) (rest last : σ → Progress ε σ) :
    (p.proceed rest).proceed last = p.proceed fun s => (rest s).proceed last := by
  obtain ⟨outcome, s⟩ := p
  cases outcome with
  | error what => rfl
  | ok status => cases hz : status.isZero <;> simp [Progress.proceed, hz]

/-- A callback goes on and leaves the given state. -/
def GoesTo (p : Progress ε σ) (t : σ) : Prop := ∃ status, status.isZero = true ∧ p = (.ok status, t)

/-- A callback stops a walk: it answers a status other than zero, or it raises something. -/
def Stops (p : Progress ε σ) : Prop :=
  (∃ status, status.isZero = false ∧ p.1 = .ok status) ∨ ∃ what, p.1 = .error what

theorem not_stops_go (s : σ) : ¬Stops ((.ok 0, s) : Progress ε σ) := by
  rintro (⟨status, hzero, hstatus⟩ | ⟨what, hwhat⟩)
  · obtain rfl := Except.ok.inj hstatus
    cases hzero
  · cases hwhat

theorem goesTo_or_stops (p : Progress ε σ) : (∃ t, p.GoesTo t) ∨ p.Stops := by
  obtain ⟨outcome, s⟩ := p
  cases outcome with
  | error what => exact .inr (.inr ⟨what, rfl⟩)
  | ok status =>
    cases hz : status.isZero with
    | true => exact .inl ⟨s, status, hz, rfl⟩
    | false => exact .inr (.inl ⟨status, hz, rfl⟩)

theorem GoesTo.proceed {p : Progress ε σ} {t : σ} (h : p.GoesTo t) (rest : σ → Progress ε σ) :
    p.proceed rest = rest t := by
  obtain ⟨status, hz, rfl⟩ := h
  simp [Progress.proceed, hz]

theorem Stops.proceed {p : Progress ε σ} (h : p.Stops) (rest : σ → Progress ε σ) :
    p.proceed rest = p := by
  obtain ⟨outcome, s⟩ := p
  rcases h with ⟨status, hz, rfl⟩ | ⟨what, rfl⟩
  · simp [Progress.proceed, hz]
  · rfl

end Progress

section Running

variable {ε σ : Type} (pre post : Option (Visitor ε σ))

/-- Runs the callback that is due; where it is absent the event is skipped. -/
def Event.run : Event → σ → Progress ε σ
  | enter n, s => Visitor.run pre n s
  | leave n, s => Visitor.run post n s

/-- Runs events from left to right until one stops. -/
def runEvents : List Event → σ → Progress ε σ
  | [], s => (.ok 0, s)
  | e :: rest, s => Progress.proceed (e.run pre post s) (runEvents rest)

theorem runEvents_append (es es' : List Event) (s : σ) :
    runEvents pre post (es ++ es') s
      = (runEvents pre post es s).proceed (runEvents pre post es') := by
  induction es generalizing s with
  | nil => rfl
  | cons e es ih =>
    rw [List.cons_append, runEvents, runEvents, Progress.proceed_assoc]
    exact congrArg _ (funext ih)

/-- Events that all go on, from one state to another. -/
inductive Passes : List Event → σ → σ → Prop where
  | nil (s : σ) : Passes [] s s
  | cons {e : Event} {es : List Event} {s t u : σ} (first : (e.run pre post s).GoesTo t)
      (rest : Passes es t u) : Passes (e :: es) s u

/-- Where events all go on each of them does. -/
theorem Passes.exists_goesTo {pre post : Option (Visitor ε σ)} {es : List Event} {e : Event}
    {s t : σ} (h : Passes pre post es s t) (he : e ∈ es) :
    ∃ u v, (e.run pre post u).GoesTo v := by
  induction h with
  | nil => exact absurd he List.not_mem_nil
  | cons first _ ih =>
    rcases List.mem_cons.mp he with rfl | he
    · exact ⟨_, _, first⟩
    · exact ih he

/-- **A run is settled by the first event that stops it.** -/
theorem runEvents_outcome (es : List Event) (s : σ) :
    (∃ t, Passes pre post es s t ∧ runEvents pre post es s = (.ok 0, t)) ∨
      ∃ before e after t, es = before ++ e :: after ∧ Passes pre post before s t ∧
        (e.run pre post t).Stops ∧ runEvents pre post es s = e.run pre post t := by
  induction es generalizing s with
  | nil => exact .inl ⟨s, .nil s, rfl⟩
  | cons e es ih =>
    rcases (e.run pre post s).goesTo_or_stops with ⟨t, ht⟩ | hstop
    · have hrun : runEvents pre post (e :: es) s = runEvents pre post es t := ht.proceed _
      rw [hrun]
      rcases ih t with ⟨u, hpass, hu⟩ | ⟨before, e', after, u, rfl, hpass, hstop, hu⟩
      · exact .inl ⟨u, .cons ht hpass, hu⟩
      · exact .inr ⟨e :: before, e', after, u, rfl, .cons ht hpass, hstop, hu⟩
    · exact .inr ⟨[], e, es, s, rfl, .nil s, hstop, hstop.proceed _⟩

/-- Callbacks that raise nothing come to an answer, and what each of them keeps is kept by all. -/
theorem exists_runEvents {R : σ → σ → Prop} (hrefl : ∀ s, R s s)
    (htrans : ∀ s t u, R s t → R t u → R s u) {es : List Event}
    (h : ∀ e ∈ es, ∀ s, ∃ status t, e.run pre post s = (.ok status, t) ∧ R s t) (s : σ) :
    ∃ status t, runEvents pre post es s = (.ok status, t) ∧ R s t := by
  induction es generalizing s with
  | nil => exact ⟨0, s, rfl, hrefl s⟩
  | cons e es ih =>
    obtain ⟨status, t, hrun, hst⟩ := h e List.mem_cons_self s
    have hcons : runEvents pre post (e :: es) s
        = if status.isZero then runEvents pre post es t else (.ok status, t) := by
      rw [runEvents, hrun]
      rfl
    rw [hcons]
    split
    · obtain ⟨status', u, hrun', htu⟩ := ih (fun e' he' => h e' (List.mem_cons_of_mem e he')) t
      exact ⟨status', u, hrun', htrans s t u hst htu⟩
    · exact ⟨status, t, rfl, hst⟩

/-- Without a callback on the way down, a run is one over the nodes left. -/
theorem runEvents_none_some (visitor : Visitor ε σ) (es : List Event) (s : σ) :
    runEvents none (some visitor) es s = visitor.runEach (es.filterMap Event.left?) s := by
  induction es generalizing s with
  | nil => rfl
  | cons e es ih =>
    cases e with
    | enter n => exact ih s
    | leave n => exact congrArg _ (funext ih)

/-- Without a callback on the way up, a run is one over the nodes entered. -/
theorem runEvents_some_none (visitor : Visitor ε σ) (es : List Event) (s : σ) :
    runEvents (some visitor) none es s = visitor.runEach (es.filterMap Event.entered?) s := by
  induction es generalizing s with
  | nil => rfl
  | cons e es ih =>
    cases e with
    | enter n => exact congrArg _ (funext ih)
    | leave n => exact ih s

/-- A callback that always goes on is run on all nodes. -/
theorem Visitor.runEach_eq_foldl {visitor : Visitor ε σ} {step : σ → NodeId → σ}
    (h : ∀ n s, visitor n s = (.ok 0, step s n)) (ns : List NodeId) (s : σ) :
    visitor.runEach ns s = (.ok 0, ns.foldl step s) := by
  induction ns generalizing s with
  | nil => rfl
  | cons n ns ih => rw [runEach, h, Progress.proceed_go, ih, List.foldl_cons]

end Running

/-! ## A walk runs the events -/

namespace Forest

variable {ε σ : Type} [Raises ε] {f : Forest} (pre post : Option (Visitor ε σ))

theorem walkUpTo_eq_runEvents :
    ∀ {depth : Nat} {n : NodeId} {v : Visit}, f.unfold depth n = some v → ∀ s : σ,
      f.walkUpTo pre post depth n s = runEvents pre post v.events s
  | 0, _, _, h, _ => nomatch h
  | depth + 1, n, v, h, s => by
    rw [unfold_succ, Option.map_eq_some_iff] at h
    obtain ⟨vs, hvs, rfl⟩ := h
    -- The walk over the children is the run of their events, by induction along the siblings.
    have hinner : ∀ t : σ, Visitor.runEach (f.walkUpTo pre post depth) (f.children n) t
        = runEvents pre post (Visit.eventsAll vs) t := by
      rw [mapM_eq_some_iff] at hvs
      generalize f.children n = ns at hvs
      induction hvs with
      | nil => exact fun t => rfl
      | cons hc _ ih =>
        intro t
        rw [Visitor.runEach, Visit.eventsAll, runEvents_append, walkUpTo_eq_runEvents hc]
        exact congrArg _ (funext ih)
    rw [walkUpTo, Visit.events, List.cons_append, runEvents]
    refine congrArg _ (funext fun t => ?_)
    rw [hinner, runEvents_append]
    rfl

/-- **A walk from a grounded node runs the node's events from left to right.** -/
theorem Grounded.walk_eq_runEvents {n : NodeId} (h : f.Grounded n) (s : σ) :
    f.walk n pre post s = runEvents pre post (f.euler n) s := by
  obtain ⟨v, hv⟩ := h.exists_visit
  rw [walk, walkUpTo_eq_runEvents pre post hv, euler_of_visit? hv]

/-- A walk with callbacks that raise nothing comes to an answer, and keeps what each of them
keeps. -/
theorem Grounded.exists_walk {n : NodeId} (h : f.Grounded n) {R : σ → σ → Prop}
    (hrefl : ∀ s, R s s) (htrans : ∀ s t u, R s t → R t u → R s u)
    (hrun : ∀ e ∈ f.euler n, ∀ s, ∃ status t, e.run pre post s = (.ok status, t) ∧ R s t) (s : σ) :
    ∃ status t, f.walk n pre post s = (.ok status, t) ∧ R s t := by
  rw [h.walk_eq_runEvents]
  exact exists_runEvents pre post hrefl htrans hrun s

theorem Grounded.exists_answer {n : NodeId} (h : f.Grounded n)
    (hrun : ∀ e ∈ f.euler n, ∀ s, ∃ status t, e.run pre post s = (.ok status, t)) (s : σ) :
    ∃ status t, f.walk n pre post s = (.ok status, t) := by
  obtain ⟨status, t, hwalk, -⟩ := h.exists_walk pre post (R := fun _ _ => True)
    (fun _ => trivial) (fun _ _ _ _ _ => trivial) (fun e he s => by
      obtain ⟨status, t, ht⟩ := hrun e he s
      exact ⟨status, t, ht, trivial⟩) s
  exact ⟨status, t, hwalk⟩

/-- What a walk from a grounded node raises is raised by one of its callbacks. -/
theorem Grounded.exists_raised {n : NodeId} (h : f.Grounded n) {s : σ} {what : ε}
    (hraised : (f.walk n pre post s).1 = .error what) :
    ∃ (e : Event) (t : σ), (e.run pre post t).1 = .error what := by
  rw [h.walk_eq_runEvents] at hraised
  rcases runEvents_outcome pre post (f.euler n) s with
    ⟨t, -, hrun⟩ | ⟨before, e, after, t, -, -, -, hrun⟩
  · rw [hrun] at hraised
    cases hraised
  · exact ⟨e, t, hrun ▸ hraised⟩

/-- Without a callback on the way down, a walk is a run over the nodes in the order they are
left. -/
theorem Grounded.walk_none_some {n : NodeId} (h : f.Grounded n) (visitor : Visitor ε σ) (s : σ) :
    f.walk n none (some visitor) s = visitor.runEach (f.postorder n) s := by
  rw [h.walk_eq_runEvents, runEvents_none_some, postorder]

/-- Without a callback on the way up, a walk is a run over the nodes in the order they are
entered. -/
theorem Grounded.walk_some_none {n : NodeId} (h : f.Grounded n) (visitor : Visitor ε σ) (s : σ) :
    f.walk n (some visitor) none s = visitor.runEach (f.preorder n) s := by
  rw [h.walk_eq_runEvents, runEvents_some_none, preorder]

/-- **A walk stops at the first event that stops it, and otherwise comes to its end.**  Its answer
is that of the stopping callback, be it a status or something raised, with the state that callback
leaves; all events before have gone on, and none after is run. -/
theorem walk_outcome {n : NodeId} (h : f.Grounded n) (s : σ) :
    f.euler n = .enter n :: (f.children n).flatMap f.euler ++ [.leave n] ∧
      f.walk n pre post s = runEvents pre post (f.euler n) s ∧
      ((∃ t, Passes pre post (f.euler n) s t ∧ f.walk n pre post s = (.ok 0, t)) ∨
        ∃ before e after t, f.euler n = before ++ e :: after ∧ Passes pre post before s t ∧
          (e.run pre post t).Stops ∧ f.walk n pre post s = e.run pre post t) := by
  have hwalk := h.walk_eq_runEvents pre post s
  refine ⟨h.euler_eq, hwalk, ?_⟩
  rw [hwalk]
  exact runEvents_outcome pre post (f.euler n) s

/-- The sum of two variables. -/
def sumOfTwo : Forest :=
  (((({} : Forest).add (.var "a")).2.add (.var "b")).2.add (.binop .add 0 1)).2

/-- A post callback that stops below the root keeps the second operand and the post callback of the
root from being run. -/
theorem walk_outcome_sum :
    sumOfTwo.Grounded 2 ∧
      sumOfTwo.walk (ε := Fault) 2 (some fun n log => (.ok 0, log ++ [Event.enter n]))
          (some fun n log => (.ok (if n = 0 then 7 else 0), log ++ [Event.leave n])) []
        = (.ok 7, [.enter 2, .enter 0, .leave 0]) := by
  have hground : sumOfTwo.Grounded 2 := by decide
  refine ⟨hground, ?_⟩
  obtain ⟨-, hrun, -⟩ := walk_outcome (ε := Fault)
    (some fun n log => (.ok 0, log ++ [Event.enter n]))
    (some fun n log => (.ok (if n = 0 then 7 else 0), log ++ [Event.leave n])) hground []
  exact hrun.trans rfl

end Forest

end ProbeScript
