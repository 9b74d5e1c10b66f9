import BeliefRevision.Base.Remainders
import BeliefRevision.Proofs.Selections
import BeliefRevision.Proofs.Session

/-!
# Searches

A search for a best selection, or for all remainders, is a chain of entailment checks, so it leaves a
session as it is but for the counts. What it finds is a function of the settings and the beliefs.

* `entriesAt_sublist` — the beliefs at a selection of positions keep their order
* `searchAmong_run`, `searchBelow_run`, `remaindersAmong_run` — searches as functions
* `examine_eq_ok`, `descend_eq_ok`, `gatherRemainder_eq_ok` — what comes before a result
* `descend_selects`, `descend_refused` — what a search finds is a selection, and the check for it answered
  no
* `searchBelow_bind` — operations that begin with a search
-/

namespace BeliefRevision

theorem mem_entriesAt {entries : List Entry} {positions : List Nat} {entry : Entry} :
    entry ∈ entriesAt entries positions ↔ ∃ p ∈ positions, entries[p]? = some entry :=
  List.mem_filterMap

theorem mem_of_mem_entriesAt {entries : List Entry} {positions : List Nat} {entry : Entry}
    (h : entry ∈ entriesAt entries positions) : entry ∈ entries := by
  obtain ⟨p, _, hget⟩ := mem_entriesAt.mp h
  exact List.mem_of_getElem? hget

theorem entriesAt_range (entries : List Entry) :
    entriesAt entries (List.range entries.length) = entries := by
  unfold entriesAt
  induction entries with
  | nil => rfl
  | cons entry entries ih =>
    rw [List.length_cons, List.range_succ_eq_map, List.filterMap_cons, List.filterMap_map]
    show entry :: List.filterMap (entries[·]?) (List.range entries.length) = entry :: entries
    rw [ih]

/-- Beliefs at ascending positions stand in the order of the base. -/
theorem entriesAt_sublist {entries : List Entry} {positions : List Nat}
    (h : IsSelection entries.length positions) : (entriesAt entries positions).Sublist entries := by
  have hsublist := h.sublist_range.filterMap (entries[·]?)
  rwa [← entriesAt, ← entriesAt, entriesAt_range] at hsublist

theorem length_entriesAt {entries : List Entry} {positions : List Nat}
    (h : IsSelection entries.length positions) : (entriesAt entries positions).length = positions.length := by
  unfold entriesAt
  refine List.filterMap_length_eq_length.mpr fun p hp => ?_
  rw [List.getElem?_eq_getElem (h.below p hp)]
  rfl

/-! ## Searches as functions -/

section Searching

variable (settings : Settings) (entries : List Entry) (negatedGoal : ClauseSet)

/-- The search after a look at a selection. -/
def Search.examine (search : Search) (positions : List Nat) : Except Error Search :=
  (settings.entailment (entriesAt entries positions) negatedGoal).map fun entailed =>
    let search := { search with examined := search.examined + 1 }
    if entailed then search
    else search.offer positions (prioritySum (entriesAt entries positions))

/-- The search after a look at selections of less than `size` positions, the largest ones first. -/
def Search.descend : Nat → Search → Except Error Search
  | 0, search => .ok search
  | size + 1, search => do
    let search ← (selections entries.length size).toList.foldlM
      (examine settings entries negatedGoal) search
    if search.best.isSome then .ok search else descend size search

variable {settings entries negatedGoal}

theorem Search.examine_eq_ok {search next : Search} {positions : List Nat}
    (h : search.examine settings entries negatedGoal positions = .ok next) :
    ∃ entailed, settings.entailment (entriesAt entries positions) negatedGoal = .ok entailed ∧
      next =
        let search := { search with examined := search.examined + 1 }
        if entailed then search
        else search.offer positions (prioritySum (entriesAt entries positions)) := by
  unfold examine at h
  cases hanswer : settings.entailment (entriesAt entries positions) negatedGoal with
  | error error =>
    rw [hanswer] at h
    cases h
  | ok entailed =>
    rw [hanswer] at h
    exact ⟨entailed, rfl, (Except.ok.inj h).symm⟩

theorem Search.descend_eq_ok {size : Nat} {search found : Search}
    (h : descend settings entries negatedGoal (size + 1) search = .ok found) :
    ∃ middle, (selections entries.length size).toList.foldlM
        (examine settings entries negatedGoal) search = .ok middle ∧
      (if middle.best.isSome then .ok middle
        else descend settings entries negatedGoal size middle) = .ok found := by
  rw [descend] at h
  cases hmiddle : (selections entries.length size).toList.foldlM
    (examine settings entries negatedGoal) search with
  | error error =>
    rw [hmiddle] at h
    cases h
  | ok middle =>
    rw [hmiddle] at h
    exact ⟨middle, rfl, h⟩

theorem Search.mem_best_offer {search : Search} {positions : List Nat} {sum : Nat}
    {pair : List Nat × Nat} (h : pair ∈ (search.offer positions sum).best) :
    pair ∈ search.best ∨ pair = (positions, sum) := by
  unfold offer at h
  cases hbest : search.best with
  | none =>
    rw [hbest] at h
    exact .inr (Option.mem_some.mp h).symm
  | some best =>
    rw [hbest] at h
    by_cases hlt : best.2 < sum
    · simp only [hlt, if_true] at h
      exact .inr (Option.mem_some.mp h).symm
    · simp only [hlt, if_false] at h
      exact .inl (hbest ▸ h)

/-- The selection that a search has found has what selections have that do not entail the goal. -/
theorem Search.best_of_examine {P : List Nat → Prop} {search next : Search} {positions : List Nat}
    (hsearch : ∀ pair ∈ search.best, P pair.1)
    (hpositions : settings.entailment (entriesAt entries positions) negatedGoal = .ok false →
      P positions)
    (h : search.examine settings entries negatedGoal positions = .ok next) :
    ∀ pair ∈ next.best, P pair.1 := by
  obtain ⟨entailed, hanswer, rfl⟩ := examine_eq_ok h
  intro pair hpair
  cases entailed with
  | true => exact hsearch pair hpair
  | false =>
    rcases mem_best_offer hpair with hpair | rfl
    · exact hsearch pair hpair
    · exact hpositions hanswer

theorem Search.best_of_foldlM {P : List Nat → Prop} {items : List (List Nat)} {search found : Search}
    (hP : ∀ positions ∈ items,
      settings.entailment (entriesAt entries positions) negatedGoal = .ok false → P positions)
    (hsearch : ∀ pair ∈ search.best, P pair.1)
    (h : items.foldlM (examine settings entries negatedGoal) search = .ok found) :
    ∀ pair ∈ found.best, P pair.1 := by
  refine Computation.foldlM_invariant (fun _ search => ∀ pair ∈ search.best, P pair.1) ?_ hsearch h
  intro seen positions rest before after hseen hbefore hafter
  exact best_of_examine hbefore
    (hP positions (hseen ▸ List.mem_append_right seen List.mem_cons_self)) hafter

theorem Search.best_of_descend {P : List Nat → Prop} {size : Nat} {search found : Search}
    (hP : ∀ positions, IsSelection entries.length positions →
      settings.entailment (entriesAt entries positions) negatedGoal = .ok false → P positions)
    (hsearch : ∀ pair ∈ search.best, P pair.1)
    (h : descend settings entries negatedGoal size search = .ok found) :
    ∀ pair ∈ found.best, P pair.1 := by
  induction size generalizing search with
  | zero =>
    cases h
    exact hsearch
  | succ size ih =>
    obtain ⟨middle, hmiddle, h⟩ := descend_eq_ok h
    have hfound : ∀ pair ∈ middle.best, P pair.1 :=
      best_of_foldlM (fun positions hmem => hP positions (mem_selections.mp hmem).1) hsearch hmiddle
    by_cases hsome : middle.best.isSome
    · rw [if_pos hsome] at h
      cases h
      exact hfound
    · rw [if_neg hsome] at h
      exact ih hfound h

/-- What a search from scratch has found is a selection. -/
theorem Search.descend_selects {size : Nat} {found : Search}
    (h : descend settings entries negatedGoal size {} = .ok found) :
    ∀ pair ∈ found.best, IsSelection entries.length pair.1 :=
  best_of_descend (fun _ hselection _ => hselection) (by simp) h

/-- The selection found, or that of none of the beliefs. -/
def Search.kept (search : Search) : List Nat := (search.best.map Prod.fst).getD []

theorem Search.isSelection_kept {size : Nat} {found : Search}
    (h : descend settings entries negatedGoal size {} = .ok found) :
    IsSelection entries.length found.kept := by
  rcases hbest : found.best with _ | pair
  · rw [kept, hbest]
    exact ⟨.nil, by simp⟩
  · rw [kept, hbest]
    exact descend_selects h pair hbest

/-- The check for it has answered no. -/
theorem Search.descend_refused {size : Nat} {found : Search}
    (h : descend settings entries negatedGoal size {} = .ok found) :
    ∀ pair ∈ found.best, settings.entailment (entriesAt entries pair.1) negatedGoal = .ok false :=
  best_of_descend (fun _ _ hanswer => hanswer) (by simp) h

variable (settings entries negatedGoal)

/-- The remainders found after a look at a selection, which is passed over inside one of them. -/
def gatherRemainder (found : List (List Nat)) (positions : List Nat) :
    Except Error (List (List Nat)) :=
  if found.any positions.isSublist then .ok found
  else
    (settings.entailment (entriesAt entries positions) negatedGoal).map fun entailed =>
      if entailed then found else found ++ [positions]

variable {settings entries negatedGoal}

/-- A selection is passed over, or else the check for it has an answer. -/
theorem gatherRemainder_eq_ok {found next : List (List Nat)} {positions : List Nat}
    (h : gatherRemainder settings entries negatedGoal found positions = .ok next) :
    (∃ larger ∈ found, positions.Sublist larger) ∧ next = found ∨
      (¬ ∃ larger ∈ found, positions.Sublist larger) ∧
        ∃ entailed, settings.entailment (entriesAt entries positions) negatedGoal = .ok entailed ∧
          next = if entailed then found else found ++ [positions] := by
  have hinside : found.any positions.isSublist = true ↔
      ∃ larger ∈ found, positions.Sublist larger := by
    simp [List.any_eq_true]
  unfold gatherRemainder at h
  by_cases hany : found.any positions.isSublist = true
  · rw [if_pos hany] at h
    exact .inl ⟨hinside.mp hany, (Except.ok.inj h).symm⟩
  · rw [if_neg hany] at h
    refine .inr ⟨fun hlarger => hany (hinside.mpr hlarger), ?_⟩
    cases hanswer : settings.entailment (entriesAt entries positions) negatedGoal with
    | error error =>
      rw [hanswer] at h
      cases h
    | ok entailed =>
      rw [hanswer] at h
      exact ⟨entailed, rfl, (Except.ok.inj h).symm⟩

end Searching

namespace Operation

variable (entries : List Entry) (negatedGoal : ClauseSet)

theorem searchAmong_run (items : Enumeration (List Nat)) (search : Search) (s : Session) :
    ∃ tally, searchAmong entries negatedGoal items search s =
      (items.toList.foldlM (Search.examine s.base.settings entries negatedGoal) search,
        s.withTally tally) := by
  induction items generalizing search s with
  | done => exact ⟨s.base.tally, rfl⟩
  | item positions rest ih =>
    obtain ⟨tally, hcheck⟩ := entailedBy_run (entriesAt entries positions) negatedGoal s
    rw [searchAmong, Enumeration.toList, List.foldlM_cons, Search.examine]
    rcases hanswer : s.base.settings.entailment (entriesAt entries positions) negatedGoal
      with error | entailed
    · rw [hanswer] at hcheck
      exact ⟨tally, Computation.bind_of_error hcheck⟩
    · rw [hanswer] at hcheck
      rw [Computation.bind_of_ok hcheck]
      exact ih () _ (s.withTally tally)

theorem searchBelow_run (size : Nat) (search : Search) (s : Session) :
    ∃ tally, searchBelow entries negatedGoal size search s =
      (Search.descend s.base.settings entries negatedGoal size search, s.withTally tally) := by
  induction size generalizing search s with
  | zero => exact ⟨s.base.tally, rfl⟩
  | succ size ih =>
    obtain ⟨tally, hamong⟩ :=
      searchAmong_run entries negatedGoal (selections entries.length size) search s
    rw [searchBelow, Search.descend]
    rcases hfound : (selections entries.length size).toList.foldlM
      (Search.examine s.base.settings entries negatedGoal) search with error | found
    · rw [hfound] at hamong
      exact ⟨tally, Computation.bind_of_error hamong⟩
    · rw [hfound] at hamong
      rw [Computation.bind_of_ok hamong]
      show ∃ tally', (if found.best.isSome then pure found
          else searchBelow entries negatedGoal size found) (s.withTally tally) =
        (if found.best.isSome then .ok found
          else Search.descend s.base.settings entries negatedGoal size found, s.withTally tally')
      by_cases hsome : found.best.isSome
      · rw [if_pos hsome, if_pos hsome]
        exact ⟨tally, rfl⟩
      · rw [if_neg hsome, if_neg hsome]
        exact ih found (s.withTally tally)

theorem onlyCounts_searchBelow (size : Nat) (search : Search) :
    OnlyCounts (searchBelow entries negatedGoal size search) := by
  intro s
  obtain ⟨tally, hrun⟩ := searchBelow_run entries negatedGoal size search s
  exact ⟨tally, congrArg Prod.snd hrun⟩

theorem searchBelow_bind {α : Type} (size : Nat) (search : Search) (f : Search → Operation α)
    (s : Session) :
    ∃ tally, ((searchBelow entries negatedGoal size search >>= f) s) =
      match Search.descend s.base.settings entries negatedGoal size search with
      | .ok found => f found (s.withTally tally)
      | .error error => (.error error, s.withTally tally) := by
  obtain ⟨tally, hrun⟩ := searchBelow_run entries negatedGoal size search s
  refine ⟨tally, ?_⟩
  cases hfound : Search.descend s.base.settings entries negatedGoal size search with
  | error error =>
    rw [hfound] at hrun
    exact Computation.bind_of_error hrun
  | ok found =>
    rw [hfound] at hrun
    exact Computation.bind_of_ok hrun

theorem remaindersAmong_run (items : Enumeration (List Nat)) (found : List (List Nat))
    (s : Session) :
    ∃ tally, remaindersAmong entries negatedGoal items found s =
      (items.toList.foldlM (gatherRemainder s.base.settings entries negatedGoal) found,
        s.withTally tally) := by
  induction items generalizing found s with
  | done => exact ⟨s.base.tally, rfl⟩
  | item positions rest ih =>
    rw [remaindersAmong, Enumeration.toList, List.foldlM_cons, gatherRemainder]
    by_cases hinside : found.any positions.isSublist
    · rw [if_pos hinside, if_pos hinside]
      exact ih () found s
    · rw [if_neg hinside, if_neg hinside, modifyTally_bind]
      generalize hcounted : s.withTally _ = counted
      obtain ⟨tally, hcheck⟩ := entailedBy_run (entriesAt entries positions) negatedGoal counted
      subst hcounted
      rw [Session.settings_withTally, Session.withTally_withTally] at hcheck
      rcases hanswer : s.base.settings.entailment (entriesAt entries positions) negatedGoal
        with error | entailed
      · rw [hanswer] at hcheck
        exact ⟨tally, Computation.bind_of_error hcheck⟩
      · rw [hanswer] at hcheck
        rw [Computation.bind_of_ok hcheck]
        exact ih () _ (s.withTally tally)

theorem onlyCounts_remaindersAmong (items : Enumeration (List Nat)) (found : List (List Nat)) :
    OnlyCounts (remaindersAmong entries negatedGoal items found) := by
  intro s
  obtain ⟨tally, hrun⟩ := remaindersAmong_run entries negatedGoal items found s
  exact ⟨tally, congrArg Prod.snd hrun⟩

end Operation

end BeliefRevision
