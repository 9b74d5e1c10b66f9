import BeliefRevision.Proofs.Search
import Mathlib.Algebra.BigOperators.Intervals
import Mathlib.Data.Nat.Choose.Basic

/-!
# What a contraction costs

A contraction that keeps `m` of `n` beliefs has looked at all selections of `m` to `n - 1` beliefs, and at
no others: it goes on to smaller ones only if none of one size can be kept, and it ends a size that it has
begun. So the cost can be told from what is left.

* `length_selections` — how many selections there are of one size
* `Search.descend_examined` — a search has looked at all selections down to the size it has found
* `searchBelow_checks` — one check for each selection looked at
* `contract_eq_contracted` — a contraction that gives something up, with what it counts and sends
* `contract_cost` — what that is, told from the number of beliefs that are left
-/

namespace BeliefRevision

open Finset (Ico)

/-! ## Selections counted -/

theorem length_selectionsFrom (start count size : Nat) :
    (selectionsFrom start count size).toList.length = count.choose size := by
  fun_induction selectionsFrom start count size with
  | case1 => simp [Enumeration.toList]
  | case2 => rfl
  | case3 start count size hlt =>
    exact (Nat.choose_eq_zero_of_lt (Nat.succ_lt_succ hlt)).symm
  | case4 start count size hle ihwith ihwithout =>
    rw [Enumeration.toList_append, Enumeration.toList_map, List.length_append, List.length_map, ihwith,
      ihwithout, Nat.choose_succ_succ]

theorem length_selections (count size : Nat) :
    (selections count size).toList.length = count.choose size := length_selectionsFrom 0 count size

/-! ## Selections looked at -/

namespace Search

variable {settings : Settings} {entries : List Entry} {negatedGoal : ClauseSet} {search found : Search}

theorem examined_offer (search : Search) (positions : List Nat) (sum : Nat) :
    (search.offer positions sum).examined = search.examined := by
  unfold offer
  cases search.best with
  | none => rfl
  | some best =>
    dsimp only
    split <;> rfl

theorem examined_of_examine {positions : List Nat}
    (h : search.examine settings entries negatedGoal positions = .ok found) :
    found.examined = search.examined + 1 := by
  obtain ⟨entailed, _, rfl⟩ := examine_eq_ok h
  cases entailed with
  | true => rfl
  | false => exact examined_offer _ _ _

/-- A look at all the selections of one size finds one of that size, if it finds any. -/
theorem examine_selections {size : Nat} (hnone : search.best = none)
    (h : (selections entries.length size).toList.foldlM (examine settings entries negatedGoal) search =
      .ok found) :
    found.examined = search.examined + entries.length.choose size ∧
      ∀ pair ∈ found.best, pair.1.length = size := by
  constructor
  · rw [← length_selections]
    refine Computation.foldlM_invariant
      (fun seen (after : Search) => after.examined = search.examined + seen.length) ?_ rfl h
    intro seen positions rest before after _ hbefore hafter
    rw [examined_of_examine hafter, hbefore, List.length_append, List.length_singleton, Nat.add_assoc]
  · refine best_of_foldlM (P := fun positions => positions.length = size) ?_ (by simp [hnone]) h
    exact fun positions hmem _ => (mem_selections.mp hmem).2

/-- **A search looks at all selections from the largest size down to the one it finds.** -/
theorem descend_examined {size : Nat} (hnone : search.best = none)
    (h : descend settings entries negatedGoal size search = .ok found) :
    found.kept.length ≤ size ∧ found.examined =
      search.examined + ∑ k ∈ Ico found.kept.length size, entries.length.choose k := by
  induction size generalizing search with
  | zero =>
    cases h
    simp [kept, hnone]
  | succ size ih =>
    obtain ⟨middle, hmiddle, h⟩ := descend_eq_ok h
    obtain ⟨hexamined, hlength⟩ := examine_selections hnone hmiddle
    rcases hbest : middle.best with _ | pair
    · rw [if_neg (by simp [hbest])] at h
      obtain ⟨hle, hrest⟩ := ih hbest h
      refine ⟨Nat.le_succ_of_le hle, ?_⟩
      rw [hrest, hexamined, Finset.sum_Ico_succ_top hle]
      omega
    · rw [if_pos (by simp [hbest])] at h
      cases h
      have hkept : found.kept.length = size := by
        rw [kept, hbest]
        exact hlength pair hbest
      rw [hkept, Nat.Ico_succ_singleton, Finset.sum_singleton]
      exact ⟨Nat.le_succ size, hexamined⟩

end Search

/-- What is kept and what is given up are all the beliefs together. -/
theorem length_givenUp {entries : List Entry} {positions : List Nat}
    (h : IsSelection entries.length positions) :
    (entriesAt entries positions).length +
        (entriesAt entries ((List.range entries.length).filter (!positions.contains ·))).length =
      entries.length := by
  have hsplit := List.length_eq_length_filter_add (l := List.range entries.length)
    (positions.contains ·)
  rw [← h.eq_filter, List.length_range] at hsplit
  rw [length_entriesAt h, length_entriesAt (isSelection_filter _ _)]
  exact hsplit.symm

/-! ## Checks counted -/

namespace Operation

variable {entries : List Entry} {negatedGoal : ClauseSet} {s t : Session}

/-- A check is counted, whether it has an answer or not. -/
theorem entailedBy_checks (entries : List Entry) (negatedGoal : ClauseSet) (s : Session) :
    (entailedBy entries negatedGoal s).2.base.tally.checks = s.base.tally.checks + 1 := by
  rw [entailedBy, modifyTally_bind, base_bind]
  dsimp only [Session.withTally]
  rcases Saturation.saturate _ with ⟨error | verdict, saturation⟩
  · rfl
  · rfl

/-- A check that has an answer does nothing but count. -/
theorem entailedBy_counts {entailed : Bool} (h : entailedBy entries negatedGoal s = (.ok entailed, t)) :
    t.base.tally.checks = s.base.tally.checks + 1 ∧ ∃ tally, t = s.withTally tally := by
  obtain ⟨tally, hrun⟩ := onlyCounts_entailedBy entries negatedGoal s
  have hchecks := entailedBy_checks entries negatedGoal s
  rw [h] at hrun hchecks
  exact ⟨hchecks, tally, hrun⟩

theorem searchAmong_checks {items : Enumeration (List Nat)} {search found : Search}
    (h : searchAmong entries negatedGoal items search s = (.ok found, t)) :
    t.base.tally.checks + search.examined = s.base.tally.checks + found.examined := by
  induction items generalizing search s with
  | done =>
    cases h
    rfl
  | item positions rest ih =>
    obtain ⟨entailed, u, hcheck, h⟩ := Computation.bind_eq_ok h
    have hcounted := entailedBy_checks (entriesAt entries positions) negatedGoal s
    rw [hcheck] at hcounted
    dsimp only at hcounted
    have hrest := ih () h
    cases entailed with
    | true =>
      simp only [if_true] at hrest
      omega
    | false =>
      simp only [Bool.false_eq_true, if_false, Search.examined_offer] at hrest
      omega

/-- **A search makes one check for each selection that it looks at.** -/
theorem searchBelow_checks {size : Nat} {search found : Search}
    (h : searchBelow entries negatedGoal size search s = (.ok found, t)) :
    t.base.tally.checks + search.examined = s.base.tally.checks + found.examined := by
  induction size generalizing search s with
  | zero =>
    cases h
    rfl
  | succ size ih =>
    obtain ⟨middle, u, hamong, h⟩ := Computation.bind_eq_ok h
    have hcounted := searchAmong_checks hamong
    by_cases hsome : middle.best.isSome
    · rw [if_pos hsome] at h
      cases h
      exact hcounted
    · rw [if_neg hsome] at h
      have hrest := ih h
      omega

/-! ## Contractions -/

/-- A contraction that gives something up checks all the beliefs and none of them, then searches. -/
theorem contract_eq_contracted {target : Formula} {removed : List Formula}
    (h : contract target s = (.ok (.contracted removed), t)) :
    ∃ (negated : ClauseSet) (search : Search),
      Search.descend s.base.settings s.base.entries negated s.base.entries.length {} = .ok search ∧
      t.base.entries = entriesAt s.base.entries search.kept ∧
      removed = (entriesAt s.base.entries
        ((List.range s.base.entries.length).filter (!search.kept.contains ·))).map Entry.formula ∧
      t.base.tally.checks = s.base.tally.checks + search.examined + 2 ∧
      ∃ passes resolvents, t.events = s.events ++ [.contracted target t.base.formulas,
        .subsets search.examined, .passes passes, .resolvents resolvents, .timed] := by
  rw [contract, base_bind] at h
  obtain ⟨negated, u, hclauses, h⟩ := Computation.bind_eq_ok h
  obtain ⟨learned, rfl⟩ : ∃ learned, u = s.withVocabulary learned :=
    ⟨_, (congrArg Prod.snd hclauses).symm⟩
  rw [base_bind, Session.entries_withVocabulary] at h
  obtain ⟨entailed, v, hall, h⟩ := Computation.bind_eq_ok h
  obtain ⟨hcheckedAll, allTally, rfl⟩ := entailedBy_counts hall
  cases entailed with
  | false => cases h
  | true =>
  rw [if_pos rfl] at h
  obtain ⟨valid, w, hnone, h⟩ := Computation.bind_eq_ok h
  obtain ⟨hcheckedNone, noneTally, rfl⟩ := entailedBy_counts hnone
  cases valid with
  | true => cases h
  | false =>
  rw [if_neg (by decide), base_bind, Session.settings_withTally, Session.settings_withTally,
    Session.settings_withVocabulary] at h
  by_cases hlimit : s.base.settings.contractionLimit.value < s.base.entries.length
  · rw [if_pos hlimit] at h
    cases h
  rw [if_neg hlimit] at h
  obtain ⟨search, x, hsearch, h⟩ := Computation.bind_eq_ok h
  have hchecked := searchBelow_checks hsearch
  obtain ⟨tally, hrun⟩ := searchBelow_run s.base.entries negated s.base.entries.length {} _
  obtain ⟨hdescend, hx⟩ := Prod.mk.inj (hsearch.symm.trans hrun)
  subst hx
  cases h
  refine ⟨negated, search, hdescend.symm, rfl, rfl, ?_, tally.passes - s.base.tally.passes,
    tally.resolvents - s.base.tally.resolvents, ?_⟩
  · show tally.checks = s.base.tally.checks + search.examined + 2
    dsimp only [Session.withTally, Session.withVocabulary] at hcheckedAll hcheckedNone hchecked
    omega
  · show ((((s.events ++ [_]) ++ [_]) ++ [_]) ++ [_]) ++ [_] = _
    simp only [List.append_assoc, List.cons_append, List.nil_append]
    rfl

/-- **What a contraction costs** that keeps `m` of `n` beliefs: a look at each selection of `m` to `n - 1`
of them, which it tells, and a check for each of these, for all the beliefs and for none of them. -/
theorem contract_cost {target : Formula} {removed : List Formula}
    (h : contract target s = (.ok (.contracted removed), t)) :
    t.base.entries.length + removed.length = s.base.entries.length ∧
      ∃ examined, examined = ∑ k ∈ Ico t.base.entries.length s.base.entries.length,
          s.base.entries.length.choose k ∧
        t.base.tally.checks = s.base.tally.checks + examined + 2 ∧
        ∃ passes resolvents, t.events = s.events ++ [.contracted target t.base.formulas,
          .subsets examined, .passes passes, .resolvents resolvents, .timed] := by
  obtain ⟨negated, search, hsearch, hentries, rfl, hchecks, hevents⟩ := contract_eq_contracted h
  have hselection := Search.isSelection_kept hsearch
  obtain ⟨_, hexamined⟩ := Search.descend_examined rfl hsearch
  rw [← length_entriesAt hselection, ← hentries] at hexamined
  refine ⟨?_, search.examined, ?_, hchecks, hevents⟩
  · rw [hentries, List.length_map, length_givenUp hselection]
  · rw [hexamined, Nat.zero_add]

end Operation

end BeliefRevision
