import Mathlib.Data.List.TakeWhile
import ProbeScript.Proofs.Compile.Parts
import ProbeScript.Proofs.Forest.Climbed
import ProbeScript.Proofs.Session.Basic

/-!
# Proofs/Provider/Resolved — each probe on its own

What comes of a probe depends on its specification and the providers alone: it finds one
(`Resolution.found?`) or it is reported (`Resolution.unknown?`), and `Resolution.step` does just
that.  A probe has a record of its own, so one that finds a provider writes it where no other node
reads (`provider?_setProvider`), and a chain of them comes to what each of them comes to alone
(`provider?_foldl`, `providers_resolved`).
-/

namespace ProbeScript

open Forest

variable {f : Forest} {l : Ledger} {n m : NodeId} {providers : List Provider} {file : String}

/-! ## Names and specifications -/

namespace Provider

variable {name spec : String} {p : Provider}

/-- Without a colon all of a specification is a name. -/
theorem nameOf_of_notMem (h : ':' ∉ spec.toList) : nameOf spec = spec := by
  have hall : ∀ c ∈ spec.toList, decide (c ≠ ':') = true := fun c hc =>
    decide_eq_true fun heq => h (heq ▸ hc)
  rw [nameOf, List.takeWhile_eq_self_iff.mpr hall, String.ofList_toList]

/-- What comes after the first colon is not looked at, be there more colons in it or none. -/
theorem nameOf_append (h : ':' ∉ name.toList) (rest : String) :
    nameOf (name ++ ":" ++ rest) = name := by
  have hall : ∀ c ∈ name.toList, decide (c ≠ ':') = true := fun c hc =>
    decide_eq_true fun heq => h (heq ▸ hc)
  rw [nameOf, String.toList_append, String.toList_append, List.append_assoc,
    List.takeWhile_append_of_pos hall, show ":".toList = [':'] from rfl, List.singleton_append,
    List.takeWhile_cons_of_neg (by simp), List.append_nil, String.ofList_toList]

/-- **The last provider of a name is found.** -/
theorem find?_eq_some_iff : find? providers name = some p ↔
    ∃ before after, providers = before ++ p :: after ∧ p.name = name ∧
      ∀ q ∈ after, q.name ≠ name := by
  simp only [find?, find?_reverse_eq_some_iff, beq_iff_eq, beq_eq_false_iff_ne]

end Provider

/-! ## Records of probes -/

/-- Every probe has a record that no other node has. -/
def Ledger.OwnedByProbes (l : Ledger) (f : Forest) : Prop :=
  ∀ n, f.kind n = .probe →
    ∃ r, l.recordOf? n = some r ∧ r < l.records.size ∧ ∀ m, l.recordOf? m = some r → m = n

/-- One ledger differs from another in nothing but the providers found. -/
structure Ledger.SameButProviders (l l' : Ledger) : Prop where
  recordOf?_eq : ∀ n, l'.recordOf? n = l.recordOf? n
  size_eq : l'.records.size = l.records.size
  record_eq : ∀ r, l'.record r = { l.record r with provider := (l'.record r).provider }

namespace Ledger

variable {l' l'' : Ledger}

theorem SameButProviders.refl (l : Ledger) : l.SameButProviders l :=
  ⟨fun _ => rfl, rfl, fun _ => rfl⟩

theorem SameButProviders.trans (h : l.SameButProviders l') (h' : l'.SameButProviders l'') :
    l.SameButProviders l'' where
  recordOf?_eq n := (h'.recordOf?_eq n).trans (h.recordOf?_eq n)
  size_eq := h'.size_eq.trans h.size_eq
  record_eq r := by rw [h'.record_eq, h.record_eq]

theorem sameButProviders_setProvider (l : Ledger) (n : NodeId) (p : Provider) :
    l.SameButProviders (l.setProvider n p) := by
  rw [setProvider]
  rcases hr : l.recordOf? n with _ | r
  · rw [l.modifyAt_of_none hr]
    exact .refl l
  · rw [l.modifyAt_of_some hr]
    refine ⟨l.recordOf?_modify r _, l.size_modify r _, fun q => ?_⟩
    rw [record_modify]
    split <;> rfl

theorem OwnedByProbes.congr (h : l.OwnedByProbes f) (hsame : l.SameButProviders l') :
    l'.OwnedByProbes f := fun n hn => by
  obtain ⟨r, hr, hlt, hother⟩ := h n hn
  exact ⟨r, (hsame.recordOf?_eq n).trans hr, hsame.size_eq ▸ hlt, fun m hm =>
    hother m ((hsame.recordOf?_eq m).symm.trans hm)⟩

/-- **A provider found for a probe is found for no other node.** -/
theorem OwnedByProbes.provider?_setProvider (h : l.OwnedByProbes f) (hn : f.kind n = .probe)
    (p : Provider) (m : NodeId) :
    (l.setProvider n p).provider? m = if m = n then some p else l.provider? m := by
  obtain ⟨r, hr, hlt, hother⟩ := h n hn
  rw [setProvider, l.modifyAt_of_some hr, provider?, recordOf?_modify, provider?]
  split
  · rename_i hmn
    rw [hmn, hr, Option.bind_some, record_modify, if_pos ⟨rfl, hlt⟩]
  · rename_i hmn
    rcases hm : l.recordOf? m with _ | q
    · rfl
    · have hq : r ≠ q := fun heq => hmn (hother m (hm.trans (congrArg some heq.symm)))
      rw [Option.bind_some, Option.bind_some, record_modify, if_neg fun hc => hq hc.1]

end Ledger

/-! ## One probe after the other -/

namespace Resolution

variable {ns : List NodeId} {s : Resolution}

/-- The provider that a node finds, if it is a probe that names one. -/
def found? (f : Forest) (providers : List Provider) (n : NodeId) : Option Provider :=
  match f.shape n with
  | .probe spec _ _ => Provider.find? providers (Provider.nameOf spec)
  | _ => none

variable {spec : String} {predicate statements : Option NodeId}

/-- Of several providers of its name a probe finds the last. -/
theorem found?_of_last {before after : List Provider} {p : Provider}
    (h : f.shape n = .probe spec predicate statements) (hsplit : providers = before ++ p :: after)
    (hname : p.name = Provider.nameOf spec) (hafter : ∀ q ∈ after, q.name ≠ Provider.nameOf spec) :
    found? f providers n = some p ∧ unknown? f providers file n = none := by
  have hmem : p ∈ providers := hsplit ▸ List.mem_append_right _ List.mem_cons_self
  rw [found?, unknown?, h]
  exact ⟨Provider.find?_eq_some_iff.mpr ⟨before, after, hsplit, hname, hafter⟩,
    if_pos ⟨p, hmem, hname⟩⟩

theorem found?_of_unnamed (h : f.shape n = .probe spec predicate statements)
    (hnone : ∀ p ∈ providers, p.name ≠ Provider.nameOf spec) :
    found? f providers n = none ∧ unknown? f providers file n = some (unknown spec file) := by
  have hnot : ¬∃ p ∈ providers, p.name = Provider.nameOf spec := fun ⟨p, hp, hname⟩ =>
    hnone p hp hname
  rw [found?, unknown?, h]
  exact ⟨find?_eq_none_iff.mpr hnot, if_neg hnot⟩

theorem kind_of_found? {p : Provider} (h : found? f providers n = some p) : f.kind n = .probe := by
  rw [found?] at h
  split at h
  · rename_i hshape
    rw [kind, hshape]
    rfl
  · cases h

/-- **A probe finds a provider or is reported, and nothing but a probe does either.** -/
theorem found?_add_unknown? (f : Forest) (providers : List Provider) (file : String) (n : NodeId) :
    (found? f providers n).toList.length + (unknown? f providers file n).toList.length
      = if f.kind n = .probe then 1 else 0 := by
  rw [found?, unknown?, kind]
  cases f.shape n with
  | probe spec predicate statements =>
    rcases hfind : Provider.find? providers (Provider.nameOf spec) with _ | p
    · simp [hfind, find?_eq_none_iff.mp hfind, Shape.kind]
    · simp [hfind, exists_named hfind, Shape.kind]
  | _ => rfl

theorem found?_of_kind (h : f.kind n ≠ .probe) :
    found? f providers n = none ∧ unknown? f providers file n = none := by
  have hnone := found?_add_unknown? f providers file n
  rwa [if_neg h, Nat.add_eq_zero_iff, List.length_eq_zero_iff, List.length_eq_zero_iff,
    Option.toList_eq_nil_iff, Option.toList_eq_nil_iff] at hnone

theorem ledger_step (s : Resolution) : (step f providers file s n).ledger
    = (found? f providers n).elim s.ledger (s.ledger.setProvider n) := by
  rw [step, found?]
  cases f.shape n with
  | probe spec predicate statements =>
    rcases hfind : Provider.find? providers (Provider.nameOf spec) with _ | p <;>
      simp only [hfind] <;> rfl
  | _ => rfl

theorem resolved_step (s : Resolution) : (step f providers file s n).resolved
    = s.resolved + (found? f providers n).toList.length := by
  rw [step, found?]
  cases f.shape n with
  | probe spec predicate statements =>
    rcases hfind : Provider.find? providers (Provider.nameOf spec) with _ | p <;>
      simp only [hfind] <;> rfl
  | _ => rfl

theorem sameButProviders_step (s : Resolution) (n : NodeId) :
    s.ledger.SameButProviders (step f providers file s n).ledger := by
  rw [ledger_step]
  rcases found? f providers n with _ | p
  · exact .refl _
  · exact s.ledger.sameButProviders_setProvider n p

theorem sameButProviders_foldl (ns : List NodeId) (s : Resolution) :
    s.ledger.SameButProviders (ns.foldl (step f providers file) s).ledger := by
  induction ns generalizing s with
  | nil => exact .refl _
  | cons n ns ih => exact (sameButProviders_step s n).trans (ih _)

/-- A probe that finds a provider comes to have it. -/
theorem provider?_step (h : s.ledger.OwnedByProbes f) (n m : NodeId) :
    (step f providers file s n).ledger.provider? m
      = if m = n then (found? f providers n).or (s.ledger.provider? n)
        else s.ledger.provider? m := by
  rw [ledger_step]
  rcases hfound : found? f providers n with _ | p
  · split
    · rename_i hmn
      rw [hmn]
      rfl
    · rfl
  · rw [Option.elim_some, h.provider?_setProvider (kind_of_found? hfound), Option.some_or]

/-- **Of a chain each probe that finds a provider comes to have it**, whatever the others do. -/
theorem provider?_foldl (h : s.ledger.OwnedByProbes f) (ns : List NodeId) (m : NodeId) :
    (ns.foldl (step f providers file) s).ledger.provider? m
      = if m ∈ ns then (found? f providers m).or (s.ledger.provider? m)
        else s.ledger.provider? m := by
  induction ns generalizing s with
  | nil => rfl
  | cons n ns ih =>
    rw [List.foldl_cons, ih (h.congr (sameButProviders_step s n)), provider?_step h]
    by_cases hmn : m = n
    · -- To be given the same provider twice is to be given it.
      subst hmn
      rw [if_pos rfl, if_pos List.mem_cons_self, ← Option.or_assoc, Option.or_self, ite_self]
    · rw [if_neg hmn]
      exact if_congr (by simp [hmn]) rfl rfl

/-- Records of no probe of the chain stay as they are. -/
theorem record_foldl {r : RecordId} (ns : List NodeId) (s : Resolution)
    (h : ∀ n ∈ ns, f.kind n = .probe → s.ledger.recordOf? n ≠ some r) :
    (ns.foldl (step f providers file) s).ledger.record r = s.ledger.record r := by
  induction ns generalizing s with
  | nil => rfl
  | cons n ns ih =>
    have hrest : ∀ m ∈ ns, f.kind m = .probe →
        (step f providers file s n).ledger.recordOf? m ≠ some r := fun m hm hprobe =>
      (sameButProviders_step s n).recordOf?_eq m ▸ h m (List.mem_cons_of_mem n hm) hprobe
    rw [List.foldl_cons, ih _ hrest, ledger_step]
    rcases hfound : found? f providers n with _ | p
    · rfl
    · rw [Option.elim_some, Ledger.setProvider]
      rcases hq : s.ledger.recordOf? n with _ | q
      · rw [s.ledger.modifyAt_of_none hq]
      · have hqr : q ≠ r := fun heq =>
          h n List.mem_cons_self (kind_of_found? hfound) (hq.trans (congrArg some heq))
        rw [s.ledger.modifyAt_of_some hq, Ledger.record_modify, if_neg fun hc => hqr hc.1]

theorem resolved_foldl (ns : List NodeId) (s : Resolution) :
    (ns.foldl (step f providers file) s).resolved
      = s.resolved + (ns.filterMap (found? f providers)).length := by
  induction ns generalizing s with
  | nil => rfl
  | cons n ns ih =>
    rw [List.foldl_cons, ih, resolved_step, Nat.add_assoc, List.filterMap_cons]
    rcases found? f providers n with _ | p
    · rw [Option.toList_none, List.length_nil, Nat.zero_add]
    · rw [Option.toList_some, List.length_singleton, List.length_cons, Nat.add_comm 1]

/-- **Every probe counts once**, among those that find a provider or among those reported. -/
theorem length_found?_add_unknown? (f : Forest) (providers : List Provider) (file : String)
    (ns : List NodeId) :
    (ns.filterMap (found? f providers)).length + (ns.filterMap (unknown? f providers file)).length
      = ns.countP (f.kind · = .probe) := by
  induction ns with
  | nil => rfl
  | cons n ns ih =>
    have hn := found?_add_unknown? f providers file n
    simp only [List.filterMap_cons, List.countP_cons, decide_eq_true_eq, ← hn, ← ih]
    rcases found? f providers n with _ | p <;> rcases unknown? f providers file n with _ | d <;>
      simp <;> omega

end Resolution

/-! ## The probes of a script -/

theorem Session.Sound.ownedByProbes {s : Session} (h : s.Sound)
    (writes : List (RecordId × (Record → Record))) :
    (s.ledger.rewrite writes).OwnedByProbes s.forest := fun n hn => by
  obtain ⟨r, hr, hlt, -, hother⟩ := h.exists_own hn
  refine ⟨r, (s.ledger.recordOf?_rewrite writes n).trans hr, ?_, fun m hm => hother m ?_⟩
  · rwa [Ledger.size_rewrite]
  · rwa [Ledger.recordOf?_rewrite] at hm

/-- The probes of a script are a chain that ends. -/
theorem Workshop.Reached.chained_probesOf_nodup {w : Workshop} {log : List Receipt}
    (h : Workshop.Reached w log) {script : NodeId} {probes : Option NodeId}
    (hscript : w.forest.shape script = .script probes) :
    w.forest.Chained probes (w.forest.probesOf script) ∧ (w.forest.probesOf script).Nodup := by
  have hlinked := h.grown.linked
  have hprobes : ∀ m ∈ probes, m < w.forest.size := fun m hm => by
    refine hlinked.slot_lt_size (n := script) (s := .chain m) ?_
    rw [hscript, Option.mem_def.mp hm]
    exact List.mem_singleton_self _
  rw [probesOf, hscript]
  exact ⟨hlinked.chained hprobes, (hlinked.chained hprobes).nodup⟩

/-- **What finding providers comes to**, whatever was done before and written to the records.  The
chain of a script is passed over once.  A probe gets the last of the providers that its
specification names up to the first colon; one that names none keeps what it had and is reported.
Other nodes are passed over.  The reports come after those there are, in the order of the chain, and
every probe counts once, with those resolved or with those reported.  What comes of a probe is what
comes of it alone, and nothing but providers changes. -/
theorem providers_resolved (actions : List Action) (writes : List (RecordId × (Record → Record)))
    (script : NodeId) (providers : List Provider) (file : String) :
    let s := Session.run actions {}
    let l := s.ledger.rewrite writes
    let chain := s.forest.probesOf script
    let r := l.resolve s.forest script providers file
    let alone := Resolution.step s.forest providers file { ledger := l }
    let unknown? := Resolution.unknown? s.forest providers file
    (∀ w log probes, Workshop.Reached w log → w.forest = s.forest →
      s.forest.shape script = .script probes → s.forest.Chained probes chain ∧ chain.Nodup) ∧
    ((∀ spec, ':' ∉ spec.toList → Provider.nameOf spec = spec) ∧
      ∀ name rest, ':' ∉ name.toList → Provider.nameOf (name ++ ":" ++ rest) = name) ∧
    (∀ n ∈ chain, ∀ spec predicate statements,
      s.forest.shape n = .probe spec predicate statements →
        (∀ before p after, providers = before ++ p :: after → p.name = Provider.nameOf spec →
          (∀ q ∈ after, q.name ≠ Provider.nameOf spec) →
            r.ledger.provider? n = some p ∧ unknown? n = none) ∧
        ((∀ p ∈ providers, p.name ≠ Provider.nameOf spec) →
          r.ledger.provider? n = l.provider? n ∧
            unknown? n = some ⟨"PRB200", .error, "Unknown provider \"" ++ Provider.nameOf spec
              ++ "\" in probe \"" ++ spec ++ "\".", file⟩)) ∧
    (∀ n, s.forest.kind n ≠ .probe → r.ledger.provider? n = l.provider? n ∧ unknown? n = none) ∧
    r.reports = chain.filterMap unknown? ∧
    r.resolved + r.reports.length = chain.countP (s.forest.kind · = .probe) ∧
    (∀ n, r.ledger.provider? n
      = if n ∈ chain then (alone n).ledger.provider? n else l.provider? n) ∧
    r.reports = chain.flatMap (fun n => (alone n).reports) ∧
    l.SameButProviders r.ledger ∧
    (∀ q, (∀ n ∈ chain, s.forest.kind n = .probe → l.recordOf? n ≠ some q) →
      r.ledger.record q = l.record q) ∧
    ∀ {τ : Type} (c : Compilation τ), c.workshop.forest = s.forest → c.workshop.ledger = l →
      Compilation.resolve script (some providers) file c
        = (.ok (), { c.withLedger r.ledger with diagnostics := c.diagnostics ++ r.reports }) := by
  intro s l chain r alone unknown?
  have hown : l.OwnedByProbes s.forest := (Session.sound_empty.run actions).ownedByProbes writes
  have hreports : r.reports = chain.filterMap unknown? := l.reports_resolve providers file
  have hresolved : r.resolved = (chain.filterMap (Resolution.found? s.forest providers)).length :=
    (Resolution.resolved_foldl chain _).trans (Nat.zero_add _)
  have hprovider : ∀ n, r.ledger.provider? n
      = if n ∈ chain then (Resolution.found? s.forest providers n).or (l.provider? n)
        else l.provider? n := Resolution.provider?_foldl hown chain
  refine ⟨fun w log probes hreached hforest hscript => ?_,
    ⟨fun spec => Provider.nameOf_of_notMem, fun name rest h => Provider.nameOf_append h rest⟩,
    fun n hn spec predicate statements hshape => ?_, fun n hn => ?_, hreports, ?_, fun n => ?_, ?_,
    Resolution.sameButProviders_foldl chain { ledger := l },
    fun q => Resolution.record_foldl chain { ledger := l }, ?_⟩
  · have honce := hreached.chained_probesOf_nodup (hforest ▸ hscript)
    rwa [hforest] at honce
  · refine ⟨fun before p after hsplit hname hafter => ?_, fun hnone => ?_⟩
    · obtain ⟨hfound, hquiet⟩ := Resolution.found?_of_last hshape hsplit hname hafter
      exact ⟨by rw [hprovider, if_pos hn, hfound, Option.some_or], hquiet⟩
    · obtain ⟨hfound, hreported⟩ := Resolution.found?_of_unnamed hshape hnone
      exact ⟨by rw [hprovider, if_pos hn, hfound, Option.none_or], hreported⟩
  · obtain ⟨hfound, hquiet⟩ := Resolution.found?_of_kind hn
    exact ⟨by rw [hprovider, hfound, Option.none_or, ite_self], hquiet⟩
  · rw [hresolved, hreports]
    exact Resolution.length_found?_add_unknown? s.forest providers file chain
  · have halone : (alone n).ledger.provider? n
        = (Resolution.found? s.forest providers n).or (l.provider? n) :=
      (Resolution.provider?_step (s := { ledger := l }) hown n n).trans (if_pos rfl)
    exact (hprovider n).trans (if_congr Iff.rfl halone.symm rfl)
  · rw [hreports, List.filterMap_eq_flatMap_toList]
    exact List.flatMap_congr fun n _ => (Resolution.reports_step { ledger := l }).symm
  · intro τ c hforest hledger
    rw [Compilation.resolve, hforest, hledger]

/-- A chain of three probes with a bare statement among them, the second probe with a provider. -/
def mixedChain : List Action :=
  [.step (.construct (.probe "tick:1:s" none none)), .step (.construct .breakLoop),
    .step (.construct (.probe "syscall" none none)), .step (.construct (.probe ":odd" none none)),
    .step (.link [0, 1, 2, 3]), .step (.construct (.script (some 0))),
    .resolve 4 [⟨"syscall", 9⟩] "g"]

/-- Of two providers of one name the last is found, a probe not found keeps what it had, and the
specification that begins with a colon names nothing. -/
theorem providers_resolved_mixedChain :
    let s := Session.run mixedChain {}
    let r := s.ledger.resolve s.forest 4 [⟨"tick", 1⟩, ⟨"tick", 2⟩, ⟨"tock", 3⟩] "f"
    (s.forest.probesOf 4).Nodup ∧ r.ledger.provider? 0 = some ⟨"tick", 2⟩ ∧
      r.ledger.provider? 2 = some ⟨"syscall", 9⟩ ∧ r.ledger.provider? 3 = none ∧
      r.resolved + r.reports.length = 3 := by
  intro s r
  have hreached := (((((Workshop.Reached.start.step (.construct (.probe "tick:1:s" none none))
    (by decide)).step (.construct .breakLoop) (by decide)).step
    (.construct (.probe "syscall" none none)) (by decide)).step
    (.construct (.probe ":odd" none none)) (by decide)).step (.link [0, 1, 2, 3]) (by decide)).step
    (.construct (.script (some 0))) (by decide)
  have hchain : s.forest.probesOf 4 = [0, 1, 2, 3] := by decide +kernel
  have hmem : ∀ n ∈ [0, 1, 2, 3], n ∈ s.forest.probesOf 4 := fun n hn => hchain ▸ hn
  have hkept : s.ledger.provider? 2 = some ⟨"syscall", 9⟩ ∧ s.ledger.provider? 3 = none := by
    decide +kernel
  have hprobes : s.forest.shape 0 = .probe "tick:1:s" none none ∧
      s.forest.shape 2 = .probe "syscall" none none ∧ s.forest.shape 3 = .probe ":odd" none none ∧
      (s.forest.probesOf 4).countP (s.forest.kind · = .probe) = 3 := by decide +kernel
  obtain ⟨honce, ⟨hwhole, hcut⟩, hprobe, -, -, hcount, -⟩ :=
    providers_resolved mixedChain [] 4 [⟨"tick", 1⟩, ⟨"tick", 2⟩, ⟨"tock", 3⟩] "f"
  have htick : Provider.nameOf "tick:1:s" = "tick" := hcut "tick" "1:s" (by decide)
  have hodd : Provider.nameOf ":odd" = "" := hcut "" "odd" (by decide)
  have hsyscall : Provider.nameOf "syscall" = "syscall" := hwhole _ (by decide)
  have hfound := (hprobe 0 (hmem 0 (by decide)) _ _ _ hprobes.1).1 [⟨"tick", 1⟩] ⟨"tick", 2⟩
    [⟨"tock", 3⟩] rfl htick.symm (by rw [htick]; decide)
  have hsecond := (hprobe 2 (hmem 2 (by decide)) _ _ _ hprobes.2.1).2 (by rw [hsyscall]; decide)
  have hthird := (hprobe 3 (hmem 3 (by decide)) _ _ _ hprobes.2.2.1).2 (by rw [hodd]; decide)
  exact ⟨(honce _ _ (some 0) hreached rfl (by decide +kernel)).2, hfound.1, hsecond.1.trans hkept.1,
    hthird.1.trans hkept.2, hcount.trans hprobes.2.2.2⟩

end ProbeScript
