import BeliefRevision.Proofs.Atomicity
import BeliefRevision.Proofs.Revision
import BeliefRevision.Proofs.SearchCost

/-!
# Reports account for the work

An operation that makes checks tells at its end, if it has one, how many passes were made and how many
clauses derived since its beginning. It does so once, however many checks there were; nothing else tells
of any work. So if no operation fails, what was told adds up to what was counted.

* `Meter` — what is counted and told
* `Session.Idle`, `Session.Works`, `Session.Reports` — no work is done, none is told of, and all is told of
* `reports_base`, `reportsSince_bind`, `reportsSince_emitWork` — how an operation comes to report
* `work_is_accounted_for` — what each operation tells, what all of them tell, and what a contraction costs
-/

namespace BeliefRevision

open Finset (Ico)

/-! ## Numbers told -/

/-- What is counted in saturations and told by operations. -/
inductive Meter where
  | passes
  | resolvents

namespace Meter

/-- The number counted so far. -/
def count : Meter → Tally → Nat
  | .passes, tally => tally.passes
  | .resolvents, tally => tally.resolvents

/-- The number that an event tells, if it tells one. -/
def told? : Meter → Event → Option Nat
  | .passes, .passes number => some number
  | .resolvents, .resolvents number => some number
  | _, _ => none

/-- The numbers that events tell. -/
def told (m : Meter) (events : List Event) : List Nat := events.filterMap m.told?

theorem told_append (m : Meter) (events more : List Event) :
    m.told (events ++ more) = m.told events ++ m.told more := List.filterMap_append

end Meter

/-- The number of subsets that an event tells, if it tells one. -/
def Event.subsets? : Event → Option Nat
  | .subsets number => some number
  | _ => none

/-- The event tells neither of passes nor of resolvents. -/
def Event.IsIdle : Event → Prop
  | .passes _ | .resolvents _ => False
  | _ => True

theorem Event.IsIdle.told {event : Event} (h : event.IsIdle) (m : Meter) : m.told [event] = [] := by
  cases m <;> cases event <;> first | rfl | exact h.elim

namespace Session

variable {s t u : Session}

/-- The events sent on the way tell these numbers. -/
def Tells (s t : Session) (numbers : Meter → List Nat) : Prop :=
  ∃ sent, t.events = s.events ++ sent ∧ ∀ m : Meter, m.told sent = numbers m

theorem Tells.of_events (h : t.events = s.events) : s.Tells t fun _ => [] :=
  ⟨[], by rw [h, List.append_nil], fun _ => rfl⟩

theorem Tells.trans {numbers more : Meter → List Nat} (hst : s.Tells t numbers)
    (htu : t.Tells u more) : s.Tells u fun m => numbers m ++ more m := by
  obtain ⟨first, hfirst, hnumbers⟩ := hst
  obtain ⟨second, hsecond, hmore⟩ := htu
  refine ⟨first ++ second, by rw [hsecond, hfirst, List.append_assoc], fun m => ?_⟩
  rw [m.told_append, hnumbers, hmore]

/-- On the way no work is done, and none is told of. -/
structure Idle (s t : Session) : Prop where
  told : s.Tells t fun _ => []
  counts : ∀ m : Meter, m.count t.base.tally = m.count s.base.tally

/-- On the way work may be done, but none is told of. -/
structure Works (s t : Session) : Prop where
  told : s.Tells t fun _ => []
  counts : ∀ m : Meter, m.count s.base.tally ≤ m.count t.base.tally

/-- On the way all the work since `before` is told of, in one go. -/
structure Reports (before : Tally) (s t : Session) : Prop where
  told : s.Tells t fun m => [m.count t.base.tally - m.count before]
  counts : ∀ m : Meter, m.count before ≤ m.count t.base.tally

instance : IsPreorder Session Idle where
  refl _ := ⟨.of_events rfl, fun _ => rfl⟩
  trans _ _ _ hst htu := ⟨hst.told.trans htu.told, fun m => (htu.counts m).trans (hst.counts m)⟩

instance : IsPreorder Session Works where
  refl _ := ⟨.of_events rfl, fun _ => Nat.le_refl _⟩
  trans _ _ _ hst htu := ⟨hst.told.trans htu.told, fun m => (hst.counts m).trans (htu.counts m)⟩

theorem Idle.works (h : s.Idle t) : s.Works t := ⟨h.told, fun m => (h.counts m).ge⟩

/-- After the report, nothing is to be told of. -/
theorem Reports.idle {before : Tally} (hst : s.Reports before t) (htu : t.Idle u) :
    s.Reports before u := by
  constructor
  · simp only [htu.counts]
    exact hst.told.trans htu.told
  · intro m
    rw [htu.counts]
    exact hst.counts m

/-- Before the report, work is done. -/
theorem Works.reports {before : Tally} (hst : s.Works t) (htu : t.Reports before u) :
    s.Reports before u := ⟨hst.told.trans htu.told, htu.counts⟩

end Session

/-! ## Idle operations -/

namespace Operation

section

variable {α β : Type}

theorem idle_emit {event : Event} (h : event.IsIdle) : Leads Session.Idle (emit event) :=
  fun _ => ⟨⟨[event], rfl, h.told⟩, fun _ => rfl⟩

theorem idle_modifyBase {change : Base → Base}
    (h : ∀ base (m : Meter), m.count (change base).tally = m.count base.tally) :
    Leads Session.Idle (modifyBase change) :=
  fun s => ⟨.of_events rfl, h s.base⟩

theorem idle_clausesOf (φ : Formula) : Leads Session.Idle (clausesOf φ) :=
  fun _ => ⟨.of_events rfl, fun _ => rfl⟩

theorem idle_expandWith (φ : Formula) (priority : Nat) :
    Leads Session.Idle (expandWith φ priority) := by
  unfold expandWith
  split
  · refine leads_bind leads_base fun base => ?_
    split
    · exact leads_bind (idle_emit trivial) fun _ => leads_pure _
    · refine leads_bind (idle_clausesOf φ) fun clauses => ?_
      refine leads_bind (idle_modifyBase fun _ _ => rfl) fun _ => ?_
      exact leads_bind (idle_emit trivial) fun _ => leads_pure _
  · exact leads_throw _

theorem idle_expand (φ : Formula) : Leads Session.Idle (expand φ) :=
  leads_bind leads_base fun _ => idle_expandWith φ _

theorem idle_remove (φ : Formula) : Leads Session.Idle (remove φ) := by
  refine leads_bind leads_base fun base => ?_
  split
  · refine leads_bind (idle_modifyBase fun _ _ => rfl) fun _ => ?_
    exact leads_bind (idle_emit trivial) fun _ => leads_pure _
  · exact leads_pure _

theorem idle_readLines (number : Nat) (summary : FileSummary) (lines : List (List UInt8)) :
    Leads Session.Idle (readLines number summary lines) := by
  fun_induction readLines number summary lines with
  | case1 => exact leads_pure _
  | case2 => exact leads_throw _
  | case3 number summary line lines hline ih => exact ih
  | case4 number summary line lines priority φ hline ih =>
    exact leads_bind (idle_expandWith φ priority) fun expansion => ih expansion
  | case5 number summary line lines φ hline ih =>
    exact leads_bind (idle_expand φ) fun expansion => ih expansion

theorem idle_readBeliefs (file : List UInt8) : Leads Session.Idle (readBeliefs file) := by
  refine leads_bind (idle_readLines _ _ _) fun summary => ?_
  refine leads_bind (idle_emit trivial) fun _ => ?_
  exact leads_bind (idle_emit trivial) fun _ => leads_pure _

theorem idle_configure (change : Settings.Change) : Leads Session.Idle (configure change) := by
  refine leads_bind leads_base fun base => ?_
  split
  · exact leads_bind (idle_modifyBase fun _ _ => rfl) fun _ => leads_pure _
  · exact leads_pure _

/-! ## Operations that work -/

theorem Leads.works {x : Operation α} (hx : Leads Session.Idle x) : Leads Session.Works x :=
  hx.mono fun _ _ => Session.Idle.works

theorem works_entailedBy (entries : List Entry) (negatedGoal : ClauseSet) :
    Leads Session.Works (entailedBy entries negatedGoal) := by
  refine leads_bind (.works (idle_modifyBase fun _ m => by cases m <;> rfl)) fun _ => ?_
  refine leads_bind leads_base fun base => ?_
  dsimp only
  split
  · refine leads_bind (fun s => ⟨.of_events rfl, fun m => ?_⟩) fun _ => leads_pure _
    cases m <;> exact Nat.le_add_right _ _
  · exact leads_throw _

variable (entries : List Entry) (negatedGoal : ClauseSet)

theorem works_searchAmong (items : Enumeration (List Nat)) (search : Search) :
    Leads Session.Works (searchAmong entries negatedGoal items search) := by
  induction items generalizing search with
  | done => exact leads_pure _
  | item positions rest ih =>
    exact leads_bind (works_entailedBy _ _) fun entailed => ih () _

theorem works_searchBelow (size : Nat) (search : Search) :
    Leads Session.Works (searchBelow entries negatedGoal size search) := by
  induction size generalizing search with
  | zero => exact leads_pure _
  | succ size ih =>
    refine leads_bind (works_searchAmong entries negatedGoal _ _) fun search => ?_
    split
    · exact leads_pure _
    · exact ih search

theorem works_remaindersAmong (items : Enumeration (List Nat)) (found : List (List Nat)) :
    Leads Session.Works (remaindersAmong entries negatedGoal items found) := by
  induction items generalizing found with
  | done => exact leads_pure _
  | item positions rest ih =>
    rw [remaindersAmong]
    split
    · exact ih () found
    · refine leads_bind (.works (idle_modifyBase fun _ m => by cases m <;> rfl)) fun _ => ?_
      exact leads_bind (works_entailedBy _ _) fun entailed => ih () _

end

/-! ## Operations that report -/

section

variable {α β : Type} {before : Tally}

/-- From where no more than now was counted before, the operation, if it succeeds, reports since then. -/
def ReportsSince (before : Tally) (operation : Operation α) : Prop :=
  ∀ s a t, (∀ m : Meter, m.count before ≤ m.count s.base.tally) → operation s = (.ok a, t) →
    s.Reports before t

/-- The operation, if it succeeds, reports on itself. -/
def Reports (operation : Operation α) : Prop :=
  ∀ s a t, operation s = (.ok a, t) → s.Reports s.base.tally t

theorem reports_base {f : Base → Operation α} (hf : ∀ base, ReportsSince base.tally (f base)) :
    Reports (base >>= f) :=
  fun s a t h => hf s.base s a t (fun _ => Nat.le_refl _) h

theorem reportsSince_throw (error : Error) : ReportsSince before (throw error : Operation α) := by
  intro s a t _ h
  cases h

theorem reportsSince_bind {x : Operation α} {f : α → Operation β} (hx : Leads Session.Works x)
    (hf : ∀ a, ReportsSince before (f a)) : ReportsSince before (x >>= f) := by
  intro s b u hbefore h
  obtain ⟨a, t, hrun, hrest⟩ := Computation.bind_eq_ok h
  have hworks := hx s
  rw [hrun] at hworks
  exact hworks.reports (hf a t b u (fun m => (hbefore m).trans (hworks.counts m)) hrest)

/-- The work is told, and nothing more is done. -/
theorem reportsSince_emitWork {f : Unit → Operation α} (hf : Leads Session.Idle (f ())) :
    ReportsSince before (emitWork before >>= f) := by
  intro s a t hbefore h
  have hreport : s.Reports before (s.sendWork before) := by
    refine ⟨⟨[.passes (s.base.tally.passes - before.passes),
      .resolvents (s.base.tally.resolvents - before.resolvents)], ?_, fun m => ?_⟩, hbefore⟩
    · exact List.append_assoc _ _ _
    · cases m <;> rfl
  have hidle := hf (s.sendWork before)
  rw [show f () (s.sendWork before) = (.ok a, t) from h] at hidle
  exact hreport.idle hidle

theorem Reports.bind {x : Operation α} {f : α → Operation β} (hx : Reports x)
    (hf : ∀ a, Leads Session.Idle (f a)) : Reports (x >>= f) := by
  intro s b u h
  obtain ⟨a, t, hrun, hrest⟩ := Computation.bind_eq_ok h
  have hidle := hf a t
  rw [hrest] at hidle
  exact (hx s a t hrun).idle hidle

end

theorem reports_entails (φ : Formula) : Reports (entails φ) := by
  refine reports_base fun before => ?_
  refine reportsSince_bind (.works (idle_clausesOf _)) fun negated => ?_
  refine reportsSince_bind leads_base fun base => ?_
  refine reportsSince_bind (works_entailedBy _ _) fun entailed => ?_
  exact reportsSince_emitWork (leads_bind (idle_emit trivial) fun _ => leads_pure _)

theorem reports_isConsistent : Reports isConsistent := by
  refine reports_base fun before => ?_
  refine reportsSince_bind leads_base fun base => ?_
  refine reportsSince_bind (works_entailedBy _ _) fun inconsistent => ?_
  exact reportsSince_emitWork (leads_pure _)

theorem reportsSince_rejectContraction (target : Formula) (before : Tally) (outcome : Contraction) :
    ReportsSince before (rejectContraction target before outcome) :=
  reportsSince_bind (.works (idle_emit trivial)) fun _ => reportsSince_emitWork (leads_pure _)

theorem reports_contract (φ : Formula) : Reports (contract φ) := by
  refine reports_base fun before => ?_
  refine reportsSince_bind (.works (idle_clausesOf _)) fun negated => ?_
  refine reportsSince_bind leads_base fun base => ?_
  refine reportsSince_bind (works_entailedBy _ _) fun entailed => ?_
  split
  · refine reportsSince_bind (works_entailedBy _ _) fun valid => ?_
    split
    · exact reportsSince_rejectContraction _ _ _
    · refine reportsSince_bind leads_base fun base' => ?_
      split
      · exact reportsSince_throw _
      · refine reportsSince_bind (works_searchBelow _ _ _ _) fun search => ?_
        refine reportsSince_bind (.works (idle_modifyBase fun _ m => by cases m <;> rfl)) fun _ => ?_
        refine reportsSince_bind (.works (idle_modifyBase fun _ _ => rfl)) fun _ => ?_
        refine reportsSince_bind (.works (idle_emit trivial)) fun _ => ?_
        refine reportsSince_bind (.works (idle_emit trivial)) fun _ => ?_
        exact reportsSince_emitWork (leads_bind (idle_emit trivial) fun _ => leads_pure _)
  · exact reportsSince_rejectContraction _ _ _

theorem reports_remainders (φ : Formula) : Reports (remainders φ) := by
  refine reports_base fun before => ?_
  refine reportsSince_bind (.works (idle_clausesOf _)) fun negated => ?_
  refine reportsSince_bind leads_base fun base => ?_
  refine reportsSince_bind leads_base fun base' => ?_
  split
  · exact reportsSince_throw _
  · refine reportsSince_bind (works_remaindersAmong _ _ _ _) fun found => ?_
    exact reportsSince_emitWork (leads_pure _)

/-- The contraction tells of all the work of a revision. -/
theorem reports_revise (φ : Formula) (priority : Nat) : Reports (revise φ priority) := by
  unfold revise
  split
  · refine (reports_contract _).bind fun contraction => ?_
    refine leads_bind (idle_expandWith φ priority) fun expansion => ?_
    exact leads_bind (idle_emit trivial) fun _ => leads_pure _
  · intro s a t h
    cases h

/-- What fails as a whole fails without its answer, too. -/
theorem Atomic.forget {α : Type} {names : List String} {x : Operation α} (hx : Atomic names x) :
    Atomic names (forget x) := by
  intro s error t h
  rcases hrun : x s with ⟨error' | a, u⟩
  · rw [perform, Operation.forget, Computation.bind_of_error hrun] at h
    cases h
    exact hx s error t hrun
  · rw [perform, Operation.forget, Computation.bind_of_ok hrun] at h
    cases h

end Operation

/-! ## Actions -/

namespace Action

variable {action : Action} {s : Session}

/-- The action makes checks, and reports on them. -/
def ReportsWork : Action → Prop
  | .contract _ | .revise .. | .entails _ | .isConsistent | .remainders _ => True
  | .expand _ | .expandWith .. | .remove _ | .readBeliefs _ | .clausesOf _ | .configure _ => False

/-- The action succeeds in the session. -/
def Succeeds (action : Action) (s : Session) : Prop := (action.operation.perform s).1 = .ok ()

instance (action : Action) (s : Session) : Decidable (action.Succeeds s) :=
  inferInstanceAs (Decidable ((action.operation.perform s).1 = .ok ()))

theorem reports (h : action.ReportsWork) : Operation.Reports action.operation := by
  have hforget {α : Type} {x : Operation α} (hx : Operation.Reports x) :
      Operation.Reports (Operation.forget x) := hx.bind fun _ => Operation.leads_pure ()
  cases action with
  | contract φ => exact hforget (Operation.reports_contract φ)
  | revise φ priority => exact hforget (Operation.reports_revise φ priority)
  | entails φ => exact hforget (Operation.reports_entails φ)
  | isConsistent => exact hforget Operation.reports_isConsistent
  | remainders φ => exact hforget (Operation.reports_remainders φ)
  | expand | expandWith | remove | readBeliefs | clausesOf | configure => exact h.elim

theorem idle (h : ¬ action.ReportsWork) : Operation.Leads Session.Idle action.operation := by
  cases action with
  | expand φ => exact Operation.leads_forget (Operation.idle_expand φ)
  | expandWith φ priority => exact Operation.leads_forget (Operation.idle_expandWith φ priority)
  | remove φ => exact Operation.leads_forget (Operation.idle_remove φ)
  | readBeliefs file => exact Operation.leads_forget (Operation.idle_readBeliefs file)
  | clausesOf φ => exact Operation.leads_forget (Operation.idle_clausesOf φ)
  | configure change => exact Operation.leads_forget (Operation.idle_configure change)
  | contract | revise | entails | isConsistent | remainders => exact absurd trivial h

theorem atomic (h : action.ReportsWork) : ∃ names, Operation.Atomic names action.operation := by
  cases action with
  | contract φ => exact ⟨_, (Operation.atomic_contract φ).forget⟩
  | revise φ priority => exact ⟨_, (Operation.atomic_revise φ priority).forget⟩
  | entails φ => exact ⟨_, (Operation.atomic_entails φ).forget⟩
  | isConsistent => exact ⟨_, Operation.atomic_isConsistent.forget⟩
  | remainders φ => exact ⟨_, (Operation.atomic_remainders φ).forget⟩
  | expand | expandWith | remove | readBeliefs | clausesOf | configure => exact h.elim

/-- An action that succeeds and has made checks reports on them. -/
theorem Succeeds.reports (h : action.Succeeds s) (hreports : action.ReportsWork) :
    s.Reports s.base.tally (action.after s) :=
  action.reports hreports s () (action.after s) (Prod.ext h rfl)

/-- All others tell of no work. -/
theorem tells_nothing (h : ¬ (action.Succeeds s ∧ action.ReportsWork)) :
    s.Tells (action.after s) fun _ => [] := by
  by_cases hreports : action.ReportsWork
  · obtain ⟨names, hatomic⟩ := atomic hreports
    rcases hrun : action.operation.perform s with ⟨error | _, t⟩
    · refine .of_events ?_
      rw [after, hrun]
      exact (hatomic s error t hrun).events
    · exact absurd ⟨congrArg Prod.fst hrun, hreports⟩ h
  · exact (idle hreports s).told

end Action

/-! ## Sums -/

namespace Session

variable {s : Session}

/-- Each of the actions succeeds, one after the other. -/
def AllSucceed : Session → List Action → Prop
  | _, [] => True
  | s, action :: actions => action.Succeeds s ∧ (action.after s).AllSucceed actions

instance decidableAllSucceed : (s : Session) → (actions : List Action) → Decidable (s.AllSucceed actions)
  | _, [] => isTrue trivial
  | s, action :: actions =>
    have := decidableAllSucceed (action.after s) actions
    inferInstanceAs (Decidable (action.Succeeds s ∧ (action.after s).AllSucceed actions))

/-- What was told adds up to what was counted. -/
def Balanced (s : Session) : Prop := ∀ m : Meter, (m.told s.events).sum = m.count s.base.tally

theorem Balanced.after (h : s.Balanced) {action : Action} (hsucceeds : action.Succeeds s) :
    (action.after s).Balanced := by
  intro m
  by_cases hreports : action.ReportsWork
  · obtain ⟨⟨sent, hsent, htold⟩, hcounts⟩ := hsucceeds.reports hreports
    rw [hsent, m.told_append, List.sum_append, h m, htold, List.sum_singleton,
      Nat.add_sub_cancel' (hcounts m)]
  · obtain ⟨⟨sent, hsent, htold⟩, hcounts⟩ := Action.idle hreports s
    rw [show (action.after s).events = s.events ++ sent from hsent, m.told_append, htold,
      List.append_nil, h m]
    exact (hcounts m).symm

theorem Balanced.afterAll (h : s.Balanced) {actions : List Action} (hsucceed : s.AllSucceed actions) :
    (s.afterAll actions).Balanced := by
  induction actions generalizing s with
  | nil => exact h
  | cons action actions ih => exact ih (h.after hsucceed.1) hsucceed.2

/-! ## Costs -/

/-- On the way it was told once how many subsets were looked at, and these were all the selections of at
least `kept` of the beliefs but that of all; the checks are one for each of them and two more. -/
structure Costs (s t : Session) (kept : Nat) : Prop where
  subsets : ∃ sent, t.events = s.events ++ sent ∧ sent.filterMap Event.subsets? =
    [∑ k ∈ Ico kept s.base.entries.length, s.base.entries.length.choose k]
  checks : t.base.tally.checks =
    s.base.tally.checks + (∑ k ∈ Ico kept s.base.entries.length, s.base.entries.length.choose k) + 2

end Session

namespace Operation

variable {s t : Session} {removed : List Formula}

theorem costs_of_contract {target : Formula} (h : contract target s = (.ok (.contracted removed), t)) :
    s.Costs t t.base.entries.length := by
  obtain ⟨_, examined, rfl, hchecks, passes, resolvents, hevents⟩ := contract_cost h
  exact ⟨⟨_, hevents, rfl⟩, hchecks⟩

/-- The expansion in a revision makes no check and tells of no subsets. -/
theorem costs_of_revise {φ : Formula} {priority : Nat} {expansion : Expansion}
    (h : revise φ priority s = (.ok ⟨.contracted removed, expansion⟩, t)) :
    ∃ kept, kept + removed.length = s.base.entries.length ∧ s.Costs t kept := by
  obtain ⟨u, v, hcontract, hexpand, rfl⟩ := revise_eq_ok h
  obtain ⟨⟨sent, hsent, hsubsets⟩, hchecks⟩ := costs_of_contract hcontract
  obtain ⟨event, hevent, hnone, htally⟩ : ∃ event : Event, v.events = u.events ++ [event] ∧
      event.subsets? = none ∧ v.base.tally = u.base.tally := by
    cases expandWith_run hexpand with
    | duplicate | added => exact ⟨_, rfl, rfl, rfl⟩
  refine ⟨u.base.entries.length, (contract_cost hcontract).1, ⟨sent ++ [event, .revised φ], ?_, ?_⟩, ?_⟩
  · show v.events ++ [_] = _
    rw [hevent, hsent, List.append_assoc, List.append_assoc]
    rfl
  · rw [List.filterMap_append, hsubsets, List.filterMap_cons_none hnone]
    rfl
  · rw [Session.base_send, htally]
    exact hchecks

end Operation

/-! ## All of it -/

/-- **What is told accounts for the work.** An operation that checks something, and succeeds, tells one
number of passes and one of resolvents; any other operation, and any that fails, tells none. After
operations on an empty base all of which have succeeded, the numbers told add up to the numbers counted.
And a contraction that keeps `m` of `n` beliefs, be it one in a revision, tells one number of subsets,
which is the number of selections of `m` to `n - 1` beliefs, and counts so many checks and two more. -/
theorem work_is_accounted_for (s : Session) (settings : Settings) (actions : List Action) :
    let start : Session := { base := { settings } }
    (∀ action : Action,
      (action.Succeeds s ∧ action.ReportsWork → ∃ sent, (action.after s).events = s.events ++ sent ∧
        ∀ m : Meter, (m.told sent).length = 1) ∧
      (¬ (action.Succeeds s ∧ action.ReportsWork) →
        ∃ sent, (action.after s).events = s.events ++ sent ∧ ∀ m : Meter, m.told sent = [])) ∧
    (start.AllSucceed actions → ∀ m : Meter,
      (m.told (start.afterAll actions).events).sum = m.count (start.afterAll actions).base.tally) ∧
    (∀ target removed t, (Operation.contract target).perform s = (.ok (.contracted removed), t) →
      s.Costs t t.base.entries.length) ∧
    (∀ φ priority removed expansion t,
      (Operation.revise φ priority).perform s = (.ok ⟨.contracted removed, expansion⟩, t) →
        ∃ kept, kept + removed.length = s.base.entries.length ∧ s.Costs t kept) := by
  intro start
  refine ⟨fun action => ⟨?_, Action.tells_nothing⟩, ?_, ?_, ?_⟩
  · rintro ⟨hsucceeds, hreports⟩
    obtain ⟨sent, hsent, htold⟩ := (hsucceeds.reports hreports).told
    exact ⟨sent, hsent, fun m => by rw [htold, List.length_singleton]⟩
  · intro hsucceed
    have hbalanced : start.Balanced := fun m => by cases m <;> rfl
    exact hbalanced.afterAll hsucceed
  · exact fun target removed t => Operation.costs_of_contract
  · exact fun φ priority removed expansion t => Operation.costs_of_revise

/-- From `p` and `p → q` it takes a look at two subsets to give up `q`, and four checks. -/
theorem work_is_accounted_for_of_modus_ponens :
    let p : Formula := .atom "p"
    let q : Formula := .atom "q"
    let actions : List Action := [.expand p, .expand (.binary .implies p q), .entails q, .contract q]
    let s := Session.afterAll {} (actions.take 3)
    Session.AllSucceed {} actions ∧
      (∀ m : Meter, (m.told (Session.afterAll {} actions).events).sum =
        m.count (Session.afterAll {} actions).base.tally) ∧
      ∃ t, (Operation.contract q).perform s = (.ok (.contracted [.binary .implies p q]), t) ∧
        t.base.entries.length = 1 ∧ s.Costs t 1 ∧ t.base.tally.checks = s.base.tally.checks + 4 := by
  intro p q actions s
  have hsucceed : Session.AllSucceed {} actions := by decide +kernel
  have hanswer : ((Operation.contract q).perform s).1 = .ok (.contracted [.binary .implies p q]) := by
    decide +kernel
  have hkept : ((Operation.contract q).perform s).2.base.entries.length = 1 := by decide +kernel
  rcases hrun : (Operation.contract q).perform s with ⟨answer, t⟩
  rw [hrun] at hanswer hkept
  subst hanswer
  obtain ⟨_, hsums, hcontract, _⟩ := work_is_accounted_for s {} actions
  have hcosts := hcontract q _ t hrun
  refine ⟨hsucceed, hsums hsucceed, t, rfl, hkept, hkept ▸ hcosts, ?_⟩
  have hlength : s.base.entries.length = 2 := by decide +kernel
  have hsum : ∑ k ∈ Ico 1 2, Nat.choose 2 k = 2 := by decide
  have hchecks := hcosts.checks
  rw [hkept, hlength, hsum] at hchecks
  exact hchecks

end BeliefRevision
