import BeliefRevision.Proofs.Reachable

/-!
# The representation of a base

What holds of a base after any operations. Its beliefs are distinct and have positive priorities. Its
vocabulary numbers the names one to one, and what was numbered before still is. The clauses of a
belief, stored when the belief was added, are those that a conversion of its formula would give at any
later time, without a new name.

* `Steps.tidy` — distinct beliefs with admitted priorities
* `Steps.announced` — every new belief is announced, and its formula was converted under the limit of
  that moment
* `representation_invariant` — all of it, after any actions on an empty base
-/

namespace BeliefRevision

/-! ## Distinct beliefs -/

/-- No formula is believed twice, and every priority is one that can be given. -/
structure Base.Tidy (base : Base) : Prop where
  distinct : base.formulas.Nodup
  admitted : ∀ entry ∈ base.entries, Parameter.defaultPriority.Admits entry.priority

theorem Base.Tidy.of_sublist {before after : Base} (h : before.Tidy)
    (hsublist : after.entries.Sublist before.entries) : after.Tidy where
  distinct := h.distinct.sublist (hsublist.map Entry.formula)
  admitted := by
    intro entry hentry
    exact h.admitted entry (hsublist.mem hentry)

namespace Session

variable {s t : Session}

theorem Step.tidy (h : s.Step t) (hs : s.base.Tidy) : t.base.Tidy := by
  cases h with
  | counted | told | learned => exact hs.of_sublist (List.Sublist.refl _)
  | removed => exact hs.of_sublist List.eraseP_sublist
  | contracted target hselection => exact hs.of_sublist (entriesAt_sublist hselection)
  | @added φ priority clauses w hpriority hnew hclauses =>
    constructor
    · show ((s.base.entries ++ [(⟨φ, priority, clauses⟩ : Entry)]).map Entry.formula).Nodup
      rw [List.map_append, List.nodup_append]
      refine ⟨hs.distinct, by simp, ?_⟩
      intro ψ hψ other hother hsame
      simp only [List.map_cons, List.map_nil, List.mem_singleton] at hother
      exact hnew (hother ▸ hsame ▸ hψ)
    · intro entry hentry
      rcases List.mem_append.mp hentry with hold | hentry
      · exact hs.admitted entry hold
      · rw [List.mem_singleton.mp hentry]
        exact hpriority

theorem Steps.tidy (h : s.Steps t) (hs : s.base.Tidy) : t.base.Tidy := by
  induction h with
  | refl => exact hs
  | tail _ hstep ih => exact hstep.tidy ih

theorem Reachable.tidy (h : s.Reachable) : s.base.Tidy := by
  induction h with
  | start settings => exact ⟨List.nodup_nil, by simp⟩
  | @step s _ action ih =>
    rcases action.steps_or_settings s with hsteps | ⟨settings, hsettings⟩
    · exact hsteps.tidy ih
    · rw [hsettings]
      exact ih.of_sublist (List.Sublist.refl _)

/-! ## Announced beliefs -/

/-- A change of the beliefs is announced. An announced formula could be converted under the limit of
the moment, with the names that are known from then on. -/
theorem Step.announced (h : s.Step t) :
    ∃ sent, t.events = s.events ++ sent ∧
      (∀ entry ∈ t.base.entries, entry ∈ s.base.entries ∨
        .added entry.formula entry.priority ∈ sent) ∧
      ∀ φ priority, .added φ priority ∈ sent →
        ∃ clauses, φ.clauses s.base.settings.clauseLimit.value t.base.vocabulary =
          (.ok clauses, t.base.vocabulary) := by
  cases h with
  | counted | learned =>
    refine ⟨[], (List.append_nil _).symm, fun entry hentry => .inl hentry, ?_⟩
    simp
  | told event hevent =>
    refine ⟨[event], rfl, fun entry hentry => .inl hentry, ?_⟩
    intro φ priority hsent
    rw [← List.mem_singleton.mp hsent] at hevent
    exact hevent.elim
  | removed =>
    refine ⟨[_], rfl, fun entry hentry => .inl (List.mem_of_mem_eraseP hentry), ?_⟩
    simp
  | contracted =>
    refine ⟨[_], rfl, fun entry hentry => .inl (mem_of_mem_entriesAt hentry), ?_⟩
    simp
  | @added φ priority clauses w hpriority hnew hclauses =>
    refine ⟨[_], rfl, ?_, ?_⟩
    · intro entry hentry
      rcases List.mem_append.mp hentry with hold | hentry
      · exact .inl hold
      · rw [List.mem_singleton.mp hentry]
        exact .inr (List.mem_singleton_self _)
    · intro ψ other hsent
      cases List.mem_singleton.mp hsent
      exact ⟨clauses, Formula.clauses_rerun hclauses List.prefix_rfl⟩

theorem Steps.announced (h : s.Steps t) :
    ∃ sent, t.events = s.events ++ sent ∧
      (∀ entry ∈ t.base.entries, entry ∈ s.base.entries ∨
        .added entry.formula entry.priority ∈ sent) ∧
      ∀ φ priority, .added φ priority ∈ sent →
        ∃ clauses, φ.clauses s.base.settings.clauseLimit.value t.base.vocabulary =
          (.ok clauses, t.base.vocabulary) := by
  induction h with
  | refl => exact ⟨[], (List.append_nil _).symm, fun _ => .inl, by simp⟩
  | @tail m u hsteps hstep ih =>
    obtain ⟨sent, hevents, hentries, hconverted⟩ := ih
    obtain ⟨more, hmore, hentries', hconverted'⟩ := hstep.announced
    refine ⟨sent ++ more, by rw [hmore, hevents, List.append_assoc], ?_, ?_⟩
    · intro entry hentry
      rcases hentries' entry hentry with hm | hsent
      · exact (hentries entry hm).imp_right (List.mem_append_left more)
      · exact .inr (List.mem_append_right sent hsent)
    · intro φ priority hsent
      rcases List.mem_append.mp hsent with hsent | hsent
      · obtain ⟨clauses, hclauses⟩ := hconverted φ priority hsent
        exact ⟨clauses, Formula.clauses_rerun hclauses hstep.grow⟩
      · rw [← Steps.settings hsteps]
        exact hconverted' φ priority hsent

end Session

/-- The action announces that it adds the belief. -/
def Action.Announces (action : Action) (s : Session) (entry : Entry) : Prop :=
  ∃ sent, (action.after s).events = s.events ++ sent ∧ .added entry.formula entry.priority ∈ sent

namespace Action

variable {action : Action} {s : Session} {entry : Entry}

theorem announces_of_new (hentry : entry ∈ (action.after s).base.entries)
    (hnew : entry ∉ s.base.entries) : action.Announces s entry := by
  rcases action.steps_or_settings s with hsteps | ⟨settings, hsettings⟩
  · obtain ⟨sent, hevents, hentries, _⟩ := hsteps.announced
    exact ⟨sent, hevents, (hentries entry hentry).resolve_left hnew⟩
  · rw [hsettings] at hentry
    exact absurd hentry hnew

/-- What is announced could be converted under the limit that was in force. -/
theorem Announces.converted (h : action.Announces s entry) :
    ∃ clauses, entry.formula.clauses s.base.settings.clauseLimit.value
      (action.after s).base.vocabulary = (.ok clauses, (action.after s).base.vocabulary) := by
  obtain ⟨sent, hevents, hsent⟩ := h
  rcases action.steps_or_settings s with hsteps | ⟨settings, hsettings⟩
  · obtain ⟨sent', hevents', _, hconverted⟩ := hsteps.announced
    obtain rfl : sent = sent' := List.append_cancel_left (hevents.symm.trans hevents')
    exact hconverted _ _ hsent
  · rw [hsettings] at hevents
    have hnone : sent = [] := List.self_eq_append_right.mp hevents
    simp [hnone] at hsent

end Action

/-! ## Any actions -/

namespace Session

theorem afterAll_append (s : Session) (earlier later : List Action) :
    s.afterAll (earlier ++ later) = (s.afterAll earlier).afterAll later := List.foldl_append

theorem grow_afterAll (s : Session) (actions : List Action) :
    s.base.vocabulary.names <+: (s.afterAll actions).base.vocabulary.names := by
  induction actions generalizing s with
  | nil => exact List.prefix_rfl
  | cons action actions ih => exact (action.evolves s).vocabulary.trans (ih (action.after s))

theorem grow_later (s : Session) (earlier later : List Action) :
    (s.afterAll earlier).base.vocabulary.names <+:
      (s.afterAll (earlier ++ later)).base.vocabulary.names := by
  rw [afterAll_append]
  exact grow_afterAll _ later

/-- A belief was there before or was announced on the way. -/
theorem exists_announces {s : Session} {actions : List Action} {entry : Entry}
    (hentry : entry ∈ (s.afterAll actions).base.entries) :
    entry ∈ s.base.entries ∨ ∃ earlier action later, actions = earlier ++ action :: later ∧
      action.Announces (s.afterAll earlier) entry := by
  induction actions generalizing s with
  | nil => exact .inl hentry
  | cons action actions ih =>
    rcases ih hentry with hfirst | ⟨earlier, other, later, rfl, hannounces⟩
    · by_cases hold : entry ∈ s.base.entries
      · exact .inl hold
      · exact .inr ⟨[], action, actions, rfl, Action.announces_of_new hfirst hold⟩
    · exact .inr ⟨action :: earlier, other, later, rfl, hannounces⟩

/-- An announced belief is stored with the clauses that a conversion gives now, under the limit that
was in force then or any higher one. -/
theorem Reachable.clauses_of_announced {s : Session} (h : s.Reachable) {earlier later : List Action}
    {action : Action} {entry : Entry} {limit : Nat}
    (hentry : entry ∈ (s.afterAll (earlier ++ action :: later)).base.entries)
    (hannounces : action.Announces (s.afterAll earlier) entry)
    (hlimit : (s.afterAll earlier).base.settings.clauseLimit.value ≤ limit) :
    entry.formula.clauses limit (s.afterAll (earlier ++ action :: later)).base.vocabulary =
      (.ok entry.clauses, (s.afterAll (earlier ++ action :: later)).base.vocabulary) := by
  obtain ⟨clauses, hclauses⟩ := hannounces.converted
  have hgrow : (action.after (s.afterAll earlier)).base.vocabulary.names <+:
      (s.afterAll (earlier ++ action :: later)).base.vocabulary.names := by
    rw [afterAll_append]
    exact grow_afterAll _ later
  have hnow := Formula.clauses_of_limit_le (Formula.clauses_rerun hclauses hgrow) hlimit
  obtain ⟨_, hstored⟩ := (h.afterAll _).recorded entry hentry
  rwa [Formula.clauses_unique hstored hnow] at hnow

end Session

/-- **What every base keeps to**, after any actions, failed ones included, from an empty base on.

* The formulas are distinct, and every priority is at least 1.
* Names and numbers below the size of the vocabulary belong to each other one to one, and the names of
  every earlier moment stand in front.
* Every belief was announced when it was added. A conversion of its formula with the present
  vocabulary, under the limit that was in force then or any higher one, gives exactly the stored
  clauses and no new name. -/
theorem representation_invariant (settings : Settings) (actions : List Action) :
    let start : Session := { base := { settings } }
    let s := start.afterAll actions
    (s.base.formulas.Nodup ∧ ∀ entry ∈ s.base.entries, 1 ≤ entry.priority) ∧
      ((∀ name atom, s.base.vocabulary.atom? name = some atom ↔
          s.base.vocabulary.name? atom = some name) ∧
        (∀ atom, (s.base.vocabulary.name? atom).isSome ↔ atom < s.base.vocabulary.size) ∧
        ∀ earlier later, actions = earlier ++ later →
          (start.afterAll earlier).base.vocabulary.names <+: s.base.vocabulary.names) ∧
      ∀ entry ∈ s.base.entries,
        (∃ earlier action later, actions = earlier ++ action :: later ∧
          action.Announces (start.afterAll earlier) entry) ∧
        ∀ earlier action later, actions = earlier ++ action :: later →
          action.Announces (start.afterAll earlier) entry →
            ∀ limit, (start.afterAll earlier).base.settings.clauseLimit.value ≤ limit →
              entry.formula.clauses limit s.base.vocabulary =
                (.ok entry.clauses, s.base.vocabulary) := by
  intro start s
  have hreachable : s.Reachable := (Session.Reachable.start settings).afterAll actions
  refine ⟨⟨hreachable.tidy.distinct, ?_⟩, ⟨?_, ?_, ?_⟩, ?_⟩
  · intro entry hentry
    exact (hreachable.tidy.admitted entry hentry).1
  · exact fun name atom => Vocabulary.atom?_eq_some_iff
  · exact fun atom => Vocabulary.name?_isSome_iff
  · rintro earlier later rfl
    exact start.grow_later earlier later
  · intro entry hentry
    constructor
    · rcases Session.exists_announces hentry with hnone | hannounces
      · cases hnone
      · exact hannounces
    · rintro earlier action later rfl hannounces limit hlimit
      exact (Session.Reachable.start settings).clauses_of_announced hentry hannounces hlimit

/-- The clauses of `(a ∧ b) ∨ (c ∧ d)`, stored under a limit of 4, are the same under that limit after
it was lowered to 1 and an expansion by `e ∧ f` has failed. -/
theorem representation_invariant_under_lower_limit :
    let φ : Formula := .binary .or (.binary .and (.atom "a") (.atom "b"))
      (.binary .and (.atom "c") (.atom "d"))
    let actions : List Action := [.configure (.clauseLimit 4), .expandWith φ 7,
      .configure (.clauseLimit 1), .expand (.binary .and (.atom "e") (.atom "f"))]
    let s := Session.afterAll {} actions
    s.base.settings.clauseLimit.value = 1 ∧
      s.base.vocabulary.names = ["a", "b", "c", "d", "e", "f"] ∧ s.base.formulas = [φ] ∧
      ∀ entry ∈ s.base.entries,
        entry.formula.clauses 4 s.base.vocabulary = (.ok entry.clauses, s.base.vocabulary) := by
  intro φ actions s
  have hbeliefs : s.base.entries.map (fun entry => (entry.formula, entry.priority)) = [(φ, 7)] := by
    decide +kernel
  obtain ⟨_, _, hstored⟩ := representation_invariant {} actions
  refine ⟨by decide +kernel, by decide +kernel, by decide +kernel, fun entry hentry => ?_⟩
  have hentry' : (entry.formula, entry.priority) = (φ, 7) :=
    List.mem_singleton.mp (hbeliefs ▸ List.mem_map_of_mem hentry)
  refine (hstored entry hentry).2 [.configure (.clauseLimit 4)] (.expandWith φ 7) _ rfl ?_ 4 ?_
  · refine ⟨[.added φ 7], by decide +kernel, ?_⟩
    rw [(Prod.mk.inj hentry').1, (Prod.mk.inj hentry').2]
    exact List.mem_singleton_self _
  · decide +kernel

end BeliefRevision
