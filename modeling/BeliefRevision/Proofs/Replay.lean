import BeliefRevision.Proofs.Representation
import BeliefRevision.Proofs.Revision

/-!
# Beliefs from events

An observer who is there from the beginning knows what is believed from the events alone: a belief is
appended when it is reported as added, deleted when its formula is reported as removed, and after a
contraction those are kept whose formulas are reported as kept. It is enough to go by formulas, since
no formula is believed twice.

* `Event.replay` — what an observer makes of an event
* `Step.replayed`, `Steps.replayed` — the events of an operation repeat its effect
* `events_replay` — the events since the beginning yield the beliefs
-/

namespace BeliefRevision

/-- The beliefs after an event, if they were the given ones before it. -/
def Event.replay (beliefs : List (Formula × Nat)) : Event → List (Formula × Nat)
  | .added φ priority => beliefs ++ [(φ, priority)]
  | .removed φ => beliefs.filter (·.1 ≠ φ)
  | .contracted _ remainder => beliefs.filter (·.1 ∈ remainder)
  | _ => beliefs

theorem Event.replay_of_isNotice {event : Event} (h : event.IsNotice)
    (beliefs : List (Formula × Nat)) : event.replay beliefs = beliefs := by
  cases event <;> first | rfl | exact h.elim

/-! ## Beliefs by their formulas -/

/-- A part of distinct beliefs is known by its formulas. -/
theorem filter_belief_of_sublist {entries part : List Entry} (h : part.Sublist entries)
    (hdistinct : (entries.map Entry.formula).Nodup) :
    (entries.map Entry.belief).filter (·.1 ∈ part.map Entry.formula) = part.map Entry.belief := by
  induction h with
  | slnil => rfl
  | @cons part rest entry hsublist ih =>
    obtain ⟨hnew, hrest⟩ := List.nodup_cons.mp hdistinct
    have hdropped : entry.formula ∉ part.map Entry.formula :=
      fun hmem => hnew ((hsublist.map Entry.formula).mem hmem)
    rw [List.map_cons, List.filter_cons_of_neg (by simpa [Entry.belief] using hdropped)]
    exact ih hrest
  | @cons_cons part rest entry hsublist ih =>
    obtain ⟨hnew, hrest⟩ := List.nodup_cons.mp hdistinct
    rw [List.map_cons, List.map_cons, List.map_cons, List.filter_cons_of_pos (by simp [Entry.belief])]
    congr 1
    -- the formula in front does not come again
    rw [← ih hrest]
    refine List.filter_congr fun belief hbelief => ?_
    have hne : belief.1 ≠ entry.formula := by
      rintro hsame
      obtain ⟨other, hother, rfl⟩ := List.mem_map.mp hbelief
      exact hnew (hsame ▸ List.mem_map_of_mem hother)
    simp [hne]

theorem filter_belief_of_eraseP {entries : List Entry} {φ : Formula}
    (hdistinct : (entries.map Entry.formula).Nodup) :
    (entries.map Entry.belief).filter (·.1 ≠ φ) =
      (entries.eraseP (·.formula == φ)).map Entry.belief := by
  induction entries with
  | nil => rfl
  | cons entry rest ih =>
    obtain ⟨hnew, hrest⟩ := List.nodup_cons.mp hdistinct
    rw [List.map_cons]
    by_cases hsame : entry.formula = φ
    · rw [List.filter_cons_of_neg (by simp [Entry.belief, hsame]),
        List.eraseP_cons_of_pos (by simpa using hsame)]
      refine List.filter_eq_self.mpr fun belief hbelief => ?_
      obtain ⟨other, hother, rfl⟩ := List.mem_map.mp hbelief
      have hne : other.formula ≠ φ := by
        rintro rfl
        exact hnew (hsame ▸ List.mem_map_of_mem hother)
      simp [Entry.belief, hne]
    · rw [List.filter_cons_of_pos (by simp [Entry.belief, hsame]),
        List.eraseP_cons_of_neg (by simpa using hsame), ih hrest, List.map_cons]

/-! ## Steps -/

namespace Session

variable {s t : Session}

theorem Step.replayed (h : s.Step t) (hs : s.base.Tidy) :
    ∃ sent, t.events = s.events ++ sent ∧
      sent.foldl Event.replay (s.base.entries.map Entry.belief) = t.base.entries.map Entry.belief := by
  cases h with
  | counted | learned => exact ⟨[], (List.append_nil _).symm, rfl⟩
  | told event hevent => exact ⟨[event], rfl, event.replay_of_isNotice hevent _⟩
  | @added φ priority clauses w hpriority hnew hclauses =>
    refine ⟨[.added φ priority], rfl, ?_⟩
    show s.base.entries.map Entry.belief ++ [(φ, priority)] =
      (s.base.entries ++ [(⟨φ, priority, clauses⟩ : Entry)]).map Entry.belief
    rw [List.map_append]
    rfl
  | @removed φ hmem => exact ⟨[.removed φ], rfl, filter_belief_of_eraseP hs.distinct⟩
  | @contracted target positions hselection =>
    exact ⟨[_], rfl, filter_belief_of_sublist (entriesAt_sublist hselection) hs.distinct⟩

theorem Steps.replayed (h : s.Steps t) (hs : s.base.Tidy) :
    ∃ sent, t.events = s.events ++ sent ∧
      sent.foldl Event.replay (s.base.entries.map Entry.belief) = t.base.entries.map Entry.belief := by
  induction h with
  | refl => exact ⟨[], (List.append_nil _).symm, rfl⟩
  | @tail m u hsteps hstep ih =>
    obtain ⟨sent, hevents, hreplay⟩ := ih
    obtain ⟨more, hmore, hreplay'⟩ := hstep.replayed (Steps.tidy hsteps hs)
    refine ⟨sent ++ more, by rw [hmore, hevents, List.append_assoc], ?_⟩
    rw [List.foldl_append, hreplay, hreplay']

theorem replayed_after (action : Action) (hs : s.base.Tidy) :
    ∃ sent, (action.after s).events = s.events ++ sent ∧
      sent.foldl Event.replay (s.base.entries.map Entry.belief) =
        (action.after s).base.entries.map Entry.belief := by
  rcases action.steps_or_settings s with hsteps | ⟨settings, hsettings⟩
  · exact hsteps.replayed hs
  · rw [hsettings]
    exact ⟨[], (List.append_nil _).symm, rfl⟩

theorem Reachable.replayed_afterAll (h : s.Reachable) (actions : List Action) :
    ∃ sent, (s.afterAll actions).events = s.events ++ sent ∧
      sent.foldl Event.replay (s.base.entries.map Entry.belief) =
        (s.afterAll actions).base.entries.map Entry.belief := by
  induction actions generalizing s with
  | nil => exact ⟨[], (List.append_nil _).symm, rfl⟩
  | cons action actions ih =>
    obtain ⟨sent, hevents, hreplay⟩ := replayed_after action h.tidy
    obtain ⟨more, hmore, hreplay'⟩ := ih (h.step action)
    refine ⟨sent ++ more, ?_, ?_⟩
    · show ((action.after s).afterAll actions).events = _
      rw [hmore, hevents, List.append_assoc]
    · rw [List.foldl_append, hreplay, hreplay']
      rfl

end Session

/-- **The events determine the beliefs.** After any actions on an empty base, failed ones included, the
events since the beginning yield the beliefs, with their priorities and in their order, when they are
replayed from no beliefs. Events are only appended, and those of any later actions yield the beliefs
of that later time from the present ones. -/
theorem events_replay (settings : Settings) (earlier later : List Action) :
    let start : Session := { base := { settings } }
    let now := start.afterAll earlier
    let last := start.afterAll (earlier ++ later)
    now.events.foldl Event.replay [] = now.base.entries.map Entry.belief ∧
      ∃ sent, last.events = now.events ++ sent ∧
        sent.foldl Event.replay (now.base.entries.map Entry.belief) =
          last.base.entries.map Entry.belief := by
  intro start now last
  have hstart : start.Reachable := .start settings
  obtain ⟨sent, hevents, hreplay⟩ := hstart.replayed_afterAll earlier
  obtain ⟨more, hmore, hreplay'⟩ := (hstart.afterAll earlier).replayed_afterAll later
  rw [← Session.afterAll_append] at hmore hreplay'
  refine ⟨?_, more, hmore, hreplay'⟩
  rw [← hreplay, hevents]
  rfl

end BeliefRevision
