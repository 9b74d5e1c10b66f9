import Mathlib.Logic.Relation
import BeliefRevision.Base.Remainders
import BeliefRevision.Base.Revision
import BeliefRevision.BeliefFile
import BeliefRevision.Proofs.Changes

/-!
# Operations in steps

Whatever an operation does to a session, it does in steps of a few kinds: it counts work, learns
names from a conversion, adds a belief, takes beliefs out, or sends an event. An event that reports a
change of the beliefs is sent in the step that makes the change, and in no other. So what every step
keeps is kept by every operation, whether it succeeds or fails. Only a change of the settings is no
such step.

* `Session.Step` — the kinds of steps
* `leads_bind`, `proceeds_bind` — operations that run one after the other
* `proceeds_contract`, `proceeds_revise`, `proceeds_readBeliefs`, … — each operation goes in steps
* `Steps.settings`, `Steps.grow`, `Steps.recorded` — what steps keep
-/

namespace BeliefRevision

/-- The event reports no change of the beliefs. -/
def Event.IsNotice : Event → Prop
  | .added .. | .removed _ | .contracted .. => False
  | _ => True

namespace Session

/-- One step of an operation. -/
inductive Step (s : Session) : Session → Prop where
  | counted (tally : Tally) : Step s (s.withTally tally)
  | told (event : Event) (hevent : event.IsNotice) : Step s (s.send event)
  /-- A conversion leaves names behind also when it fails. -/
  | learned (φ : Formula) :
      Step s (s.withVocabulary
        (φ.clauses s.base.settings.clauseLimit.value s.base.vocabulary).2)
  | added {φ : Formula} {priority : Nat} {clauses : ClauseSet} {w : Vocabulary}
      (hpriority : Parameter.defaultPriority.Admits priority) (hnew : φ ∉ s.base.formulas)
      (hclauses : φ.clauses s.base.settings.clauseLimit.value s.base.vocabulary = (.ok clauses, w)) :
      Step s (((s.withVocabulary w).withEntries (s.base.entries ++ [⟨φ, priority, clauses⟩])).send
        (.added φ priority))
  | removed {φ : Formula} (hmem : φ ∈ s.base.formulas) :
      Step s ((s.withEntries (s.base.entries.eraseP (·.formula == φ))).send (.removed φ))
  | contracted (target : Formula) {positions : List Nat}
      (hselection : IsSelection s.base.entries.length positions) :
      Step s ((s.withEntries (entriesAt s.base.entries positions)).send
        (.contracted target ((entriesAt s.base.entries positions).map Entry.formula)))

/-- Steps one after the other. -/
abbrev Steps : Session → Session → Prop := Relation.ReflTransGen Step

/-- A conversion, followed by checks that are only counted. -/
theorem steps_convert (s : Session) {φ : Formula} {w : Vocabulary}
    (hlearned : (φ.clauses s.base.settings.clauseLimit.value s.base.vocabulary).2 = w)
    (tally : Tally) : s.Steps ((s.withVocabulary w).withTally tally) := by
  subst hlearned
  exact (Relation.ReflTransGen.single (.learned φ)).tail (.counted tally)

theorem steps_sendWork (s : Session) (before : Tally) : s.Steps (s.sendWork before) :=
  (Relation.ReflTransGen.single (.told _ trivial)).tail (.told _ trivial)

end Session

/-! ## Operations go in steps -/

namespace Operation

open Relation (ReflTransGen)

section

variable {α β : Type} {R Q : Session → Session → Prop}

/-- The operation, successful or not, leads to a session so related. -/
def Leads (R : Session → Session → Prop) (operation : Operation α) : Prop :=
  ∀ s : Session, R s (operation s).2

theorem Leads.mono {x : Operation α} (hx : Leads R x) (h : ∀ s t, R s t → Q s t) : Leads Q x :=
  fun s => h _ _ (hx s)

variable [IsPreorder Session R]

theorem leads_pure (a : α) : Leads R (pure a : Operation α) := refl_of R

theorem leads_throw (error : Error) : Leads R (throw error : Operation α) := refl_of R

theorem leads_base : Leads R base := refl_of R

/-- One operation after the other leads to where the relation leads in two steps. -/
theorem leads_bind {x : Operation α} {f : α → Operation β} (hx : Leads R x)
    (hf : ∀ a, Leads R (f a)) : Leads R (x >>= f) := by
  intro s
  have hfirst := hx s
  rcases hrun : x s with ⟨error | a, t⟩
  · rw [hrun] at hfirst
    rw [Computation.bind_of_error hrun]
    exact hfirst
  · rw [hrun] at hfirst
    rw [Computation.bind_of_ok hrun]
    exact trans_of R hfirst (hf a t)

end

/-- The operation, successful or not, goes in steps. -/
def Proceeds {α : Type} (operation : Operation α) : Prop := ∀ s : Session, s.Steps (operation s).2

section

variable {α β : Type}

theorem Proceeds.steps {x : Operation α} (hx : Proceeds x) {s t : Session} {outcome : Except Error α}
    (hrun : x.perform s = (outcome, t)) : s.Steps t := by
  have hsteps := hx s
  rwa [show x s = (outcome, t) from hrun] at hsteps

theorem proceeds_pure (a : α) : Proceeds (pure a) := leads_pure (R := Session.Steps) a

theorem proceeds_throw (error : Error) : Proceeds (throw error : Operation α) :=
  leads_throw (R := Session.Steps) error

theorem proceeds_bind {x : Operation α} {f : α → Operation β} (hx : Proceeds x)
    (hf : ∀ a, Proceeds (f a)) : Proceeds (x >>= f) := leads_bind (R := Session.Steps) hx hf

theorem proceeds_base : Proceeds base := leads_base (R := Session.Steps)

theorem proceeds_emit {event : Event} (hevent : event.IsNotice) : Proceeds (emit event) :=
  fun _ => .single (.told event hevent)

theorem OnlyCounts.proceeds {x : Operation α} (hx : OnlyCounts x) : Proceeds x := by
  intro s
  obtain ⟨tally, hcounted⟩ := hx s
  rw [hcounted]
  exact .single (.counted tally)

/-- The operation without its answer. -/
def forget (x : Operation α) : Operation Unit := do
  let _ ← x
  pure ()

theorem leads_forget {R : Session → Session → Prop} [IsPreorder Session R] {x : Operation α}
    (hx : Leads R x) : Leads R (forget x) := leads_bind hx fun _ => leads_pure ()

theorem proceeds_forget {x : Operation α} (hx : Proceeds x) : Proceeds (forget x) :=
  leads_forget (R := Session.Steps) hx

theorem forget_session (x : Operation α) (s : Session) : (forget x s).2 = (x s).2 := by
  rcases h : x s with ⟨error | a, t⟩
  · rw [forget, Computation.bind_of_error h]
  · rw [forget, Computation.bind_of_ok h]
    rfl

end

theorem proceeds_emitWork (before : Tally) : Proceeds (emitWork before) :=
  fun s => s.steps_sendWork before

theorem proceeds_clausesOf (φ : Formula) : Proceeds (clausesOf φ) := fun _ => .single (.learned φ)

theorem proceeds_expandWith (φ : Formula) (priority : Nat) : Proceeds (expandWith φ priority) := by
  intro s
  rcases h : expandWith φ priority s with ⟨result, t⟩
  cases expandWith_run h with
  | invalidPriority => exact .refl
  | duplicate => exact .single (.told (.duplicate φ) trivial)
  | failed _ _ hclauses =>
    have hlearned := Session.Step.learned (s := s) φ
    rw [hclauses] at hlearned
    exact .single hlearned
  | added hpriority hnew hclauses => exact .single (.added hpriority hnew hclauses)

theorem proceeds_contract (φ : Formula) : Proceeds (contract φ) := by
  intro s
  rcases h : contract φ s with ⟨result, t⟩
  cases contract_run h with
  | failed hlearned => exact s.steps_convert hlearned _
  | notEntailed hnegated | tautology hnegated =>
    have hchecked := s.steps_convert (congrArg Prod.snd hnegated)
    exact ((hchecked _).tail (.told (.contractionRejected φ) trivial)).trans (Session.steps_sendWork _ _)
  | @contracted negated w tally search kept remainder hnegated _ _ _ hsearch hkept hremainder =>
    have hselection : IsSelection s.base.entries.length kept := hkept ▸ Search.isSelection_kept hsearch
    subst hremainder
    refine (s.steps_convert (congrArg Prod.snd hnegated) tally).trans ?_
    refine (ReflTransGen.single (.contracted φ hselection)).trans ?_
    refine (ReflTransGen.single (.told (.subsets search.examined) trivial)).trans ?_
    exact (Session.steps_sendWork _ _).tail (.told .timed trivial)

theorem proceeds_expand (φ : Formula) : Proceeds (expand φ) :=
  proceeds_bind proceeds_base fun _ => proceeds_expandWith φ _

theorem proceeds_remove (φ : Formula) : Proceeds (remove φ) := by
  intro s
  unfold remove
  rw [base_bind]
  by_cases hmem : s.base.contains φ
  · rw [if_pos hmem]
    exact .single (.removed (Base.contains_iff.mp hmem))
  · rw [if_neg hmem]
    exact .refl

theorem proceeds_revise (φ : Formula) (priority : Nat) : Proceeds (revise φ priority) := by
  unfold revise
  split
  · refine proceeds_bind (proceeds_contract _) fun contraction => ?_
    refine proceeds_bind (proceeds_expandWith φ priority) fun expansion => ?_
    exact proceeds_bind (proceeds_emit trivial) fun _ => proceeds_pure _
  · exact proceeds_throw _

theorem proceeds_readLines (number : Nat) (summary : FileSummary) (lines : List (List UInt8)) :
    Proceeds (readLines number summary lines) := by
  fun_induction readLines number summary lines with
  | case1 => exact proceeds_pure _
  | case2 => exact proceeds_throw _
  | case3 number summary line lines hline ih => exact ih
  | case4 number summary line lines priority φ hline ih =>
    exact proceeds_bind (proceeds_expandWith φ priority) fun expansion => ih expansion
  | case5 number summary line lines φ hline ih =>
    exact proceeds_bind (proceeds_expand φ) fun expansion => ih expansion

theorem proceeds_readBeliefs (file : List UInt8) : Proceeds (readBeliefs file) := by
  refine proceeds_bind (proceeds_readLines _ _ _) fun summary => ?_
  refine proceeds_bind (proceeds_emit trivial) fun _ => ?_
  exact proceeds_bind (proceeds_emit trivial) fun _ => proceeds_pure _

theorem proceeds_entails (φ : Formula) : Proceeds (entails φ) := by
  refine proceeds_bind proceeds_base fun before => ?_
  refine proceeds_bind (proceeds_clausesOf _) fun negated => ?_
  refine proceeds_bind proceeds_base fun base => ?_
  refine proceeds_bind (onlyCounts_entailedBy _ _).proceeds fun entailed => ?_
  refine proceeds_bind (proceeds_emitWork _) fun _ => ?_
  exact proceeds_bind (proceeds_emit trivial) fun _ => proceeds_pure _

theorem proceeds_isConsistent : Proceeds isConsistent := by
  refine proceeds_bind proceeds_base fun before => ?_
  refine proceeds_bind proceeds_base fun base => ?_
  refine proceeds_bind (onlyCounts_entailedBy _ _).proceeds fun inconsistent => ?_
  exact proceeds_bind (proceeds_emitWork _) fun _ => proceeds_pure _

theorem proceeds_remainders (φ : Formula) : Proceeds (remainders φ) := by
  refine proceeds_bind proceeds_base fun before => ?_
  refine proceeds_bind (proceeds_clausesOf _) fun negated => ?_
  refine proceeds_bind proceeds_base fun base => ?_
  refine proceeds_bind proceeds_base fun base' => ?_
  split
  · exact proceeds_throw _
  · refine proceeds_bind (onlyCounts_remaindersAmong _ _ _ _).proceeds fun found => ?_
    exact proceeds_bind (proceeds_emitWork _) fun _ => proceeds_pure _

end Operation

/-! ## What steps keep -/

namespace Session

variable {s t : Session}

theorem Step.settings (h : s.Step t) : t.base.settings = s.base.settings := by
  cases h <;> rfl

theorem Steps.settings (h : s.Steps t) : t.base.settings = s.base.settings := by
  induction h with
  | refl => rfl
  | tail _ hstep ih => rw [hstep.settings, ih]

/-- Names are only added, at the end. -/
theorem Step.grow (h : s.Step t) : s.base.vocabulary.names <+: t.base.vocabulary.names := by
  cases h with
  | counted | told | removed | contracted => exact List.prefix_rfl
  | learned φ => exact φ.clauses_grow _ _
  | @added φ _ _ _ _ _ hclauses =>
    have hgrow := φ.clauses_grow s.base.settings.clauseLimit.value s.base.vocabulary
    rw [hclauses] at hgrow
    exact hgrow

theorem Steps.grow (h : s.Steps t) : s.base.vocabulary.names <+: t.base.vocabulary.names := by
  induction h with
  | refl => exact List.prefix_rfl
  | tail _ hstep ih => exact ih.trans hstep.grow

/-- A new belief is stored with the clauses that a conversion gives, under the limit of the moment. -/
theorem Step.recorded (h : s.Step t) {entry : Entry} (hentry : entry ∈ t.base.entries) :
    entry ∈ s.base.entries ∨
      entry.formula.clauses s.base.settings.clauseLimit.value t.base.vocabulary =
        (.ok entry.clauses, t.base.vocabulary) := by
  cases h with
  | counted | told | learned => exact .inl hentry
  | removed => exact .inl (List.mem_of_mem_eraseP hentry)
  | contracted => exact .inl (mem_of_mem_entriesAt hentry)
  | added _ _ hclauses =>
    rcases List.mem_append.mp hentry with hold | hnew
    · exact .inl hold
    · obtain rfl := List.mem_singleton.mp hnew
      exact .inr (Formula.clauses_rerun hclauses List.prefix_rfl)

theorem Steps.recorded (h : s.Steps t) {entry : Entry} (hentry : entry ∈ t.base.entries) :
    entry ∈ s.base.entries ∨
      entry.formula.clauses s.base.settings.clauseLimit.value t.base.vocabulary =
        (.ok entry.clauses, t.base.vocabulary) := by
  induction h with
  | refl => exact .inl hentry
  | @tail m u hsteps hstep ih =>
    rcases hstep.recorded hentry with hold | hnew
    · exact (ih hold).imp_right fun hclauses => Formula.clauses_rerun hclauses hstep.grow
    · rw [← Steps.settings hsteps]
      exact .inr hnew

end Session

end BeliefRevision
