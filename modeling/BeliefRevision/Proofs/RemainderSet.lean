import BeliefRevision.Proofs.Entailment

/-!
# The remainders are the maximal parts

A remainder is a set of beliefs from which the formula does not follow, while it follows from every
larger set around it. The maximality is nowhere tested. It comes from the order of the search: the
sets around one are looked at before it, and those inside a remainder found are passed over.

* `IsRemainder` — what a remainder is, by positions
* `selectionsDown_largerFirst` — the order of the search
* `Gathered` — what a search knows of the sets it has looked at or passed over
* `remainders_exact` — what is listed, and in which order
-/

namespace BeliefRevision

/-- The formulas at the positions do not entail the formula, and those of every larger set around them
do. -/
structure IsRemainder (entries : List Entry) (φ : Formula) (positions : List Nat) : Prop where
  selection : IsSelection entries.length positions
  not_entails : ¬ Entails ((entriesAt entries positions).map Entry.formula) φ
  maximal : ∀ larger, IsSelection entries.length larger → positions ⊆ larger →
    larger ≠ positions → Entails ((entriesAt entries larger).map Entry.formula) φ

/-! ## The order of the search -/

/-- The first list is longer, or as long and lexicographically smaller. -/
def LargerFirst (left right : List Nat) : Prop :=
  right.length < left.length ∨ right.length = left.length ∧ left < right

/-- What comes later is not larger. -/
theorem LargerFirst.eq_of_sublist {left right : List Nat} (h : LargerFirst left right)
    (hsublist : left.Sublist right) : right = left := by
  have hlength : right.length ≤ left.length := by
    rcases h with hless | ⟨hequal, _⟩
    · exact Nat.le_of_lt hless
    · exact Nat.le_of_eq hequal
  exact (hsublist.eq_of_length_le hlength).symm

theorem LargerFirst.ne {left right : List Nat} (h : LargerFirst left right) : left ≠ right := by
  rintro rfl
  rcases h with hless | ⟨_, hbefore⟩
  · exact Nat.lt_irrefl _ hless
  · exact List.lt_irrefl _ hbefore

theorem mem_selectionsDown {count size : Nat} {positions : List Nat} :
    positions ∈ (selectionsDown count size).toList ↔
      IsSelection count positions ∧ positions.length ≤ size := by
  induction size with
  | zero => rw [selectionsDown, mem_selections, Nat.le_zero]
  | succ size ih =>
    rw [selectionsDown, Enumeration.toList_append, List.mem_append, mem_selections, ih, ← and_or_left,
      Nat.le_succ_iff, or_comm]

theorem selections_largerFirst (count size : Nat) :
    (selections count size).toList.Pairwise LargerFirst := by
  refine (selections_ascending count size).imp_of_mem fun hleft hright hbefore => ?_
  have hlength := (mem_selections.mp hleft).2
  exact .inr ⟨(mem_selections.mp hright).2.trans hlength.symm, hbefore⟩

/-- **The search goes from large to small**, and through the sets of one size in lexicographic order. -/
theorem selectionsDown_largerFirst (count size : Nat) :
    (selectionsDown count size).toList.Pairwise LargerFirst := by
  induction size with
  | zero => exact selections_largerFirst count 0
  | succ size ih =>
    rw [selectionsDown, Enumeration.toList_append]
    refine List.pairwise_append.mpr ⟨selections_largerFirst count _, ih, ?_⟩
    intro left hleft right hright
    have hlength := (mem_selections.mp hleft).2
    have hshorter := (mem_selectionsDown.mp hright).2
    exact .inl (by omega)

/-! ## Searching -/

section

variable {settings : Settings} {entries : List Entry} {negatedGoal : ClauseSet}
  {Follows : List Nat → Prop} {seen found : List (List Nat)} {positions : List Nat}

/-- Those found are the maximal ones of those in `seen` from which the goal does not follow, in the
same order, and each of the others is inside one of them. -/
structure Gathered (Follows : List Nat → Prop) (seen found : List (List Nat)) : Prop where
  sublist : found.Sublist seen
  fails : ∀ positions ∈ found, ¬ Follows positions
  maximal : ∀ positions ∈ found, ∀ larger ∈ seen, positions.Sublist larger → larger ≠ positions →
    Follows larger
  covers : ∀ positions ∈ seen, ¬ Follows positions → ∃ larger ∈ found, positions.Sublist larger

theorem Gathered.nil : Gathered Follows [] [] where
  sublist := List.Sublist.refl []
  fails := by simp
  maximal := by simp
  covers := by simp

/-- Those found stay maximal, since what comes later is not larger. -/
theorem Gathered.maximal_before (h : Gathered Follows seen found)
    (hordered : ∀ other ∈ seen, LargerFirst other positions) :
    ∀ remainder ∈ found, ∀ larger ∈ seen ++ [positions], remainder.Sublist larger →
      larger ≠ remainder → Follows larger := by
  intro remainder hremainder
  refine List.forall_mem_append.mpr ⟨h.maximal remainder hremainder, ?_⟩
  refine List.forall_mem_singleton.mpr fun hsublist hne => absurd ?_ hne
  exact (hordered remainder (h.sublist.subset hremainder)).eq_of_sublist hsublist

/-- One more set is not found, since the goal follows from it or since it is inside a remainder. -/
theorem Gathered.skip (h : Gathered Follows seen found)
    (hordered : ∀ other ∈ seen, LargerFirst other positions)
    (hskip : Follows positions ∨ ∃ larger ∈ found, positions.Sublist larger) :
    Gathered Follows (seen ++ [positions]) found where
  sublist := h.sublist.trans (List.sublist_append_left seen [positions])
  fails := h.fails
  maximal := h.maximal_before hordered
  covers := by
    refine List.forall_mem_append.mpr ⟨h.covers, List.forall_mem_singleton.mpr fun hfails => ?_⟩
    rcases hskip with hfollows | hinside
    · exact absurd hfollows hfails
    · exact hinside

/-- One more remainder is found. -/
theorem Gathered.find (h : Gathered Follows seen found)
    (hordered : ∀ other ∈ seen, LargerFirst other positions) (hfails : ¬ Follows positions)
    (hinside : ¬ ∃ larger ∈ found, positions.Sublist larger) :
    Gathered Follows (seen ++ [positions]) (found ++ [positions]) where
  sublist := h.sublist.append (List.Sublist.refl [positions])
  fails := List.forall_mem_append.mpr ⟨h.fails, List.forall_mem_singleton.mpr hfails⟩
  maximal := by
    refine List.forall_mem_append.mpr
      ⟨h.maximal_before hordered, List.forall_mem_singleton.mpr ?_⟩
    refine List.forall_mem_append.mpr ⟨fun larger hlarger hsublist _ => ?_, by simp⟩
    -- otherwise the larger set would be inside a remainder found, and this one with it
    refine Classical.byContradiction fun hnot => hinside ?_
    obtain ⟨remainder, hremainder, hlargest⟩ := h.covers larger hlarger hnot
    exact ⟨remainder, hremainder, hsublist.trans hlargest⟩
  covers := by
    refine List.forall_mem_append.mpr ⟨fun other hother hnot => ?_, List.forall_mem_singleton.mpr ?_⟩
    · obtain ⟨remainder, hremainder, hlargest⟩ := h.covers other hother hnot
      exact ⟨remainder, List.mem_append_left _ hremainder, hlargest⟩
    · exact fun _ => ⟨positions, by simp, List.Sublist.refl positions⟩

/-- A look at one more set, which is passed over inside a remainder. -/
theorem Gathered.look {next : List (List Nat)} (h : Gathered Follows seen found)
    (hordered : ∀ other ∈ seen, LargerFirst other positions)
    (hright : ∀ b, settings.entailment (entriesAt entries positions) negatedGoal = .ok b →
      (b = true ↔ Follows positions))
    (hnext : gatherRemainder settings entries negatedGoal found positions = .ok next) :
    Gathered Follows (seen ++ [positions]) next := by
  rcases gatherRemainder_eq_ok hnext with ⟨hinside, rfl⟩ | ⟨hinside, entailed, hanswer, rfl⟩
  · exact h.skip hordered (.inr hinside)
  · have hentailed := hright entailed hanswer
    cases entailed with
    | true => exact h.skip hordered (.inl (hentailed.mp rfl))
    | false =>
      have hfails : ¬ Follows positions := fun hf => by simpa using hentailed.mpr hf
      exact h.find hordered hfails hinside

/-- **A search from large to small** finds the maximal ones of all the sets. -/
theorem gathered_of_foldlM {items : List (List Nat)} (hordered : items.Pairwise LargerFirst)
    (hright : ∀ positions b,
      settings.entailment (entriesAt entries positions) negatedGoal = .ok b →
        (b = true ↔ Follows positions))
    (h : items.foldlM (gatherRemainder settings entries negatedGoal) [] = .ok found) :
    Gathered Follows items found := by
  refine Computation.foldlM_invariant (Gathered Follows) ?_ .nil h
  intro seen positions rest before after hseen hbefore hafter
  refine hbefore.look (fun other hother => ?_) (hright positions) hafter
  rw [← hseen] at hordered
  exact (List.pairwise_append.mp hordered).2.2 other hother positions List.mem_cons_self

/-- Nothing is lost by passing sets over, and nothing found has a larger set around it. -/
theorem Gathered.mem_iff {φ : Formula}
    (h : Gathered (fun positions => Entails ((entriesAt entries positions).map Entry.formula) φ)
      (selectionsDown entries.length entries.length).toList found) :
    positions ∈ found ↔ IsRemainder entries φ positions := by
  have hall (other : List Nat) (hother : IsSelection entries.length other) :
      other ∈ (selectionsDown entries.length entries.length).toList :=
    mem_selectionsDown.mpr ⟨hother, hother.length_le⟩
  constructor
  · intro hfound
    have hselection := (mem_selectionsDown.mp (h.sublist.subset hfound)).1
    refine ⟨hselection, h.fails positions hfound, fun larger hlarger hsubset hne => ?_⟩
    exact h.maximal positions hfound larger (hall larger hlarger)
      (hselection.sublist_of_subset hlarger hsubset) hne
  · intro hremainder
    obtain ⟨larger, hfound, hsublist⟩ :=
      h.covers positions (hall positions hremainder.selection) hremainder.not_entails
    have hlarger := (mem_selectionsDown.mp (h.sublist.subset hfound)).1
    by_cases hsame : larger = positions
    · exact hsame ▸ hfound
    · exact absurd (hremainder.maximal larger hlarger hsublist.subset hsame)
        (h.fails larger hfound)

end

/-! ## Remainders -/

/-- What a listing of remainders answers, and the beliefs afterwards. -/
theorem Operation.remainders_eq_ok {φ : Formula} {s t : Session} {parts : List (List Entry)}
    (h : (remainders φ).perform s = (.ok parts, t)) :
    t.base.entries = s.base.entries ∧
      ∃ negated w found,
        (Formula.not φ).clauses s.base.settings.clauseLimit.value s.base.vocabulary =
          (.ok negated, w) ∧
        (selectionsDown s.base.entries.length s.base.entries.length).toList.foldlM
          (gatherRemainder s.base.settings s.base.entries negated) [] = .ok found ∧
        parts = found.map (entriesAt s.base.entries) := by
  rw [perform, remainders, base_bind, clausesOf_bind] at h
  rcases hnegated : (Formula.not φ).clauses s.base.settings.clauseLimit.value s.base.vocabulary
    with ⟨error | negated, w⟩
  · rw [hnegated] at h
    cases h
  rw [hnegated] at h
  dsimp only at h
  rw [base_bind, base_bind, Session.settings_withVocabulary, Session.entries_withVocabulary] at h
  by_cases hlimit : s.base.settings.contractionLimit.value < s.base.entries.length
  · rw [if_pos hlimit] at h
    cases h
  rw [if_neg hlimit] at h
  obtain ⟨tally, hrun⟩ := remaindersAmong_run s.base.entries negated
    (selectionsDown s.base.entries.length s.base.entries.length) [] (s.withVocabulary w)
  rw [Session.settings_withVocabulary] at hrun
  cases hfound : (selectionsDown s.base.entries.length s.base.entries.length).toList.foldlM
    (gatherRemainder s.base.settings s.base.entries negated) [] with
  | error error =>
    rw [hfound] at hrun
    rw [Computation.bind_of_error hrun] at h
    cases h
  | ok found =>
    rw [hfound] at hrun
    rw [Computation.bind_of_ok hrun] at h
    cases h
    exact ⟨rfl, negated, w, found, rfl, hfound, rfl⟩

/-- **The remainders are exactly the maximal parts from which the formula does not follow.** Each is
listed once, from large to small and those of one size in lexicographic order of positions; each has
its beliefs as they stand in the base, which stays as it is. -/
theorem remainders_exact {s t : Session} (h : s.Reachable) {φ : Formula}
    {parts : List (List Entry)} (hrun : (Operation.remainders φ).perform s = (.ok parts, t)) :
    (∃ found : List (List Nat), parts = found.map (entriesAt s.base.entries) ∧
      (∀ positions, positions ∈ found ↔ IsRemainder s.base.entries φ positions) ∧
      found.Nodup ∧ found.Pairwise LargerFirst) ∧
    (∀ part ∈ parts, part.Sublist s.base.entries) ∧ t.base.entries = s.base.entries := by
  obtain ⟨hentries, negated, w, found, hnegated, hfound, rfl⟩ := Operation.remainders_eq_ok hrun
  have hordered := selectionsDown_largerFirst s.base.entries.length s.base.entries.length
  have hgathered := gathered_of_foldlM hordered
    (fun positions b => h.entailment_iff (fun _ => mem_of_mem_entriesAt) hnegated) hfound
  have hfoundOrdered := hordered.sublist hgathered.sublist
  refine ⟨⟨found, rfl, fun _ => hgathered.mem_iff, ?_, hfoundOrdered⟩, ?_, hentries⟩
  · exact hfoundOrdered.imp LargerFirst.ne
  · intro part hpart
    obtain ⟨positions, hpositions, rfl⟩ := List.mem_map.mp hpart
    exact entriesAt_sublist (hgathered.mem_iff.mp hpositions).selection

/-- Of `p`, `p → q` and `r`, without `q`: the two parts with `r` and one of the others. -/
theorem remainders_exact_of_modus_ponens :
    let p : Formula := .atom "p"
    let q : Formula := .atom "q"
    let r : Formula := .atom "r"
    let s := Session.afterAll {} [.expand p, .expandWith (.binary .implies p q) 4, .expand r]
    s.Reachable ∧ ∃ parts t, (Operation.remainders q).perform s = (.ok parts, t) ∧
      parts.map (·.map Entry.formula) = [[p, r], [.binary .implies p q, r]] ∧
      (∃ found : List (List Nat), parts = found.map (entriesAt s.base.entries) ∧
        ∀ positions, positions ∈ found ↔ IsRemainder s.base.entries q positions) ∧
      t.base.entries = s.base.entries := by
  intro p q r s
  have hreachable : s.Reachable := (Session.Reachable.start {}).afterAll _
  have hanswer : ((Operation.remainders q).perform s).1.map (·.map (·.map Entry.formula)) =
      .ok [[p, r], [.binary .implies p q, r]] := by decide +kernel
  rcases hrun : (Operation.remainders q).perform s with ⟨error | parts, t⟩
  · rw [hrun] at hanswer
    cases hanswer
  · obtain ⟨⟨found, hparts, hmem, _, _⟩, _, hentries⟩ := remainders_exact hreachable hrun
    rw [hrun] at hanswer
    have hformulas := Except.ok.inj hanswer
    exact ⟨hreachable, parts, t, rfl, hformulas, ⟨found, hparts, hmem⟩, hentries⟩

end BeliefRevision
