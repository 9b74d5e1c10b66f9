import BeliefRevision.Proofs.Remainder
import BeliefRevision.Proofs.RemainderSet
import BeliefRevision.Proofs.Room

/-!
# Contraction agrees with the remainders

If the remainders of a base can be listed, then the base can be contracted, and what a contraction
keeps can be read off the list.

The two look at different sets of beliefs. A listing passes over what is inside a remainder, while a
contraction looks at all sets of the size at hand, and at the empty one. But a set inside a remainder
has no more clauses, so the check for it answers as well: it needs no more room.

* `entailment_of_subset` — a check that answers no, answers no for fewer clauses
* `AllAnswered`, `answered_of_foldlM` — after a listing, every check that a contraction makes has an
  answer
* `contract_succeeds` — a contraction with such checks
* `firstBest?` — the choice among the remainders
* `contract_agrees_with_remainders` — all of it
-/

namespace BeliefRevision

/-! ## Checks that answer -/

theorem Settings.entailment_of_subset {settings : Settings} {entries fewer : List Entry}
    {negatedGoal lesserGoal : ClauseSet} (h : settings.entailment entries negatedGoal = .ok false)
    (hfewer : ∀ c, (c ∈ lesserGoal ∨ ∃ entry ∈ fewer, c ∈ entry.clauses) →
      c ∈ negatedGoal ∨ ∃ entry ∈ entries, c ∈ entry.clauses) :
    settings.entailment fewer lesserGoal = .ok false :=
  isUnsatisfiable_of_subset h fun c hc => mem_checked.mpr (hfewer c (mem_checked.mp hc))

section

variable {settings : Settings} {entries : List Entry} {negatedGoal : ClauseSet}
  {positions : List Nat}

/-- The check for the beliefs at the positions has an answer. -/
def Answered (settings : Settings) (entries : List Entry) (negatedGoal : ClauseSet)
    (positions : List Nat) : Prop :=
  ∃ b, settings.entailment (entriesAt entries positions) negatedGoal = .ok b

theorem answered_of_inside {larger : List Nat}
    (h : settings.entailment (entriesAt entries larger) negatedGoal = .ok false)
    (hinside : positions.Sublist larger) : Answered settings entries negatedGoal positions := by
  refine ⟨false, Settings.entailment_of_subset h fun c => Or.imp_right ?_⟩
  rintro ⟨entry, hentry, hc⟩
  obtain ⟨p, hp, hget⟩ := mem_entriesAt.mp hentry
  exact ⟨entry, mem_entriesAt.mpr ⟨p, hinside.subset hp, hget⟩, hc⟩

/-- All sets seen have an answer, and for those found it is no. -/
structure AllAnswered (settings : Settings) (entries : List Entry) (negatedGoal : ClauseSet)
    (seen found : List (List Nat)) : Prop where
  answered : ∀ positions ∈ seen, Answered settings entries negatedGoal positions
  refused : ∀ positions ∈ found,
    settings.entailment (entriesAt entries positions) negatedGoal = .ok false

/-- One more set is looked at, or passed over inside one that was found. -/
theorem AllAnswered.look {seen found next : List (List Nat)}
    (h : AllAnswered settings entries negatedGoal seen found)
    (hnext : gatherRemainder settings entries negatedGoal found positions = .ok next) :
    AllAnswered settings entries negatedGoal (seen ++ [positions]) next := by
  have hmore (hpositions : Answered settings entries negatedGoal positions) :
      ∀ other ∈ seen ++ [positions], Answered settings entries negatedGoal other :=
    List.forall_mem_append.mpr ⟨h.answered, List.forall_mem_singleton.mpr hpositions⟩
  rcases gatherRemainder_eq_ok hnext with
    ⟨⟨larger, hlarger, hinside⟩, rfl⟩ | ⟨_, entailed, hanswer, rfl⟩
  · exact ⟨hmore (answered_of_inside (h.refused larger hlarger) hinside), h.refused⟩
  · refine ⟨hmore ⟨entailed, hanswer⟩, ?_⟩
    cases entailed with
    | true => exact h.refused
    | false => exact List.forall_mem_append.mpr ⟨h.refused, List.forall_mem_singleton.mpr hanswer⟩

/-- **After a listing of remainders** every set that was looked at or passed over has an answer. -/
theorem answered_of_foldlM {items found : List (List Nat)}
    (h : items.foldlM (gatherRemainder settings entries negatedGoal) [] = .ok found) :
    ∀ positions ∈ items, Answered settings entries negatedGoal positions := by
  have hall : AllAnswered settings entries negatedGoal items found := by
    refine Computation.foldlM_invariant (AllAnswered settings entries negatedGoal) ?_
      ⟨by simp, by simp⟩ h
    intro seen positions rest before after _ hbefore hafter
    exact hbefore.look hafter
  exact hall.answered

theorem Search.descend_succeeds
    (h : ∀ positions, IsSelection entries.length positions →
      Answered settings entries negatedGoal positions) (size : Nat) (search : Search) :
    ∃ found, descend settings entries negatedGoal size search = .ok found := by
  induction size generalizing search with
  | zero => exact ⟨search, rfl⟩
  | succ size ih =>
    have hstep : ∀ positions ∈ (selections entries.length size).toList, ∀ before : Search,
        ∃ after, before.examine settings entries negatedGoal positions = .ok after := by
      intro positions hpositions before
      obtain ⟨b, hanswer⟩ := h positions (mem_selections.mp hpositions).1
      rw [Search.examine, hanswer]
      exact ⟨_, rfl⟩
    obtain ⟨middle, hmiddle⟩ := Computation.foldlM_succeeds hstep search
    rw [descend, hmiddle]
    show ∃ found, (if middle.best.isSome then .ok middle
      else descend settings entries negatedGoal size middle) = .ok found
    split
    · exact ⟨middle, rfl⟩
    · exact ih middle

end

/-! ## Contractions that answer -/

/-- **A contraction whose checks have answers** has one itself. -/
theorem Operation.contract_succeeds {φ : Formula} {s : Session} {negated : ClauseSet}
    {w : Vocabulary}
    (hnegated : (Formula.not φ).clauses s.base.settings.clauseLimit.value s.base.vocabulary =
      (.ok negated, w))
    (hlimit : s.base.entries.length ≤ s.base.settings.contractionLimit.value)
    (hanswered : ∀ positions, IsSelection s.base.entries.length positions →
      Answered s.base.settings s.base.entries negated positions) :
    ∃ outcome t, contract φ s = (.ok outcome, t) := by
  obtain ⟨entailed, hall⟩ := hanswered _ (isSelection_range s.base.entries.length)
  obtain ⟨valid, hnone⟩ := hanswered [] ⟨.nil, by simp⟩
  obtain ⟨search, hsearch⟩ := Search.descend_succeeds hanswered s.base.entries.length {}
  rw [entriesAt_range] at hall
  rw [show entriesAt s.base.entries [] = [] from rfl] at hnone
  suffices h : ∃ outcome, s.base.settings.contraction s.base.entries negated = .ok outcome by
    obtain ⟨outcome, houtcome⟩ := h
    exact ⟨outcome, _, Prod.ext ((contract_answer hnegated).trans houtcome) rfl⟩
  cases entailed with
  | false => exact ⟨_, Settings.contraction_notEntailed hall⟩
  | true =>
    cases valid with
    | true => exact ⟨_, Settings.contraction_tautology hall hnone⟩
    | false =>
      obtain ⟨removed, hcontracted⟩ := Settings.contraction_contracted hall hnone hlimit hsearch
      exact ⟨_, hcontracted⟩

/-- A listing that answers has kept to the limit on beliefs. -/
theorem Operation.remainders_underLimit {φ : Formula} {s t : Session} {parts : List (List Entry)}
    (h : (remainders φ).perform s = (.ok parts, t)) :
    s.base.entries.length ≤ s.base.settings.contractionLimit.value := by
  rw [perform, remainders, base_bind] at h
  obtain ⟨negated, u, hconvert, h⟩ := Computation.bind_eq_ok h
  rw [clausesOf_run] at hconvert
  obtain rfl := congrArg Prod.snd hconvert
  refine Nat.not_lt.mp fun hbeyond => ?_
  rw [base_bind, base_bind, Session.settings_withVocabulary, Session.entries_withVocabulary,
    if_pos hbeyond] at h
  cases h

/-! ## The choice among the remainders -/

/-- The first of the lists that have the greatest sum of priorities among the longest ones. -/
def firstBest? (parts : List (List Entry)) : Option (List Entry) :=
  parts.find? fun part => parts.all fun other =>
    other.length < part.length ||
      other.length == part.length && prioritySum other ≤ prioritySum part

section

variable {entries : List Entry} {φ : Formula} {found : List (List Nat)} {kept : List Nat}

theorem IsBestRemainder.isRemainder (h : IsBestRemainder entries φ kept) :
    IsRemainder entries φ kept where
  selection := h.selection
  not_entails := h.not_entails
  maximal := by
    intro larger hlarger hsubset hne
    refine Classical.byContradiction fun hfails => hne ?_
    have hsublist := h.selection.sublist_of_subset hlarger hsubset
    rcases h.preferred larger hlarger hfails with hsame | hpreferred
    · exact hsame
    · exact (hsublist.eq_of_length_le hpreferred.length_le).symm

/-- The best remainder is the first of the best ones in the list of all remainders. -/
theorem firstBest?_remainders (hordered : found.Pairwise LargerFirst)
    (hfound : ∀ positions, positions ∈ found ↔ IsRemainder entries φ positions)
    (hbest : IsBestRemainder entries φ kept) :
    firstBest? (found.map (entriesAt entries)) = some (entriesAt entries kept) := by
  obtain ⟨before, after, hsplit⟩ := List.append_of_mem ((hfound kept).mpr hbest.isRemainder)
  have hlength {positions : List Nat} (hpositions : positions ∈ found) :
      (entriesAt entries positions).length = positions.length :=
    length_entriesAt ((hfound positions).mp hpositions).selection
  have hkept : kept ∈ found := by simp [hsplit]
  refine List.find?_eq_some_iff_append.mpr ⟨?_, before.map (entriesAt entries),
    after.map (entriesAt entries), by simp [hsplit], ?_⟩
  · rw [List.all_map, List.all_eq_true]
    intro other hother
    have hremainder := (hfound other).mp hother
    simp only [Function.comp_apply, hlength hother, hlength hkept, Bool.or_eq_true, Bool.and_eq_true,
      decide_eq_true_eq, beq_iff_eq]
    rcases hbest.preferred other hremainder.selection hremainder.not_entails with
      rfl | hless | ⟨hequal, hless | ⟨hsame, _⟩⟩
    · exact .inr ⟨rfl, Nat.le_refl _⟩
    · exact .inl hless
    · exact .inr ⟨hequal, Nat.le_of_lt hless⟩
    · exact .inr ⟨hequal, Nat.le_of_eq hsame⟩
  · -- what is listed before is as long at least, so it must have a smaller sum
    rw [List.forall_mem_map]
    intro earlier hearlier
    have hmem : earlier ∈ found := by simp [hsplit, hearlier]
    have hremainder := (hfound earlier).mp hmem
    rw [hsplit] at hordered
    have hfirst : LargerFirst earlier kept :=
      (List.pairwise_append.mp hordered).2.2 earlier hearlier kept List.mem_cons_self
    rw [Bool.not_eq_true', List.all_map, List.all_eq_false]
    refine ⟨kept, hkept, ?_⟩
    simp only [Function.comp_apply, hlength hmem, hlength hkept, Bool.or_eq_true, Bool.and_eq_true,
      decide_eq_true_eq, beq_iff_eq]
    rintro hle
    rcases hbest.preferred earlier hremainder.selection hremainder.not_entails with
      hsame | hpreferred
    · exact hfirst.ne hsame
    · rcases hfirst with hlonger | ⟨hequal, hbefore⟩
      · exact Nat.not_lt.mpr hpreferred.length_le hlonger
      · rcases hpreferred with hless | ⟨_, hsum | ⟨_, hafter⟩⟩
        · omega
        · omega
        · exact List.lt_asymm hbefore hafter

/-- If the formula does not follow, the base is its only remainder. -/
theorem remainders_of_not_entails (hordered : found.Pairwise LargerFirst)
    (hfound : ∀ positions, positions ∈ found ↔ IsRemainder entries φ positions)
    (hall : ¬ Entails (entries.map Entry.formula) φ) :
    found.map (entriesAt entries) = [entries] := by
  have hrange := isSelection_range entries.length
  have hwhole : IsRemainder entries φ (List.range entries.length) := by
    refine ⟨hrange, by rwa [entriesAt_range], fun larger hlarger hsubset hne => absurd ?_ hne⟩
    exact ((hrange.sublist_of_subset hlarger hsubset).eq_of_length_le
      (by simpa using hlarger.length_le)).symm
  have honly : ∀ positions ∈ found, positions = List.range entries.length := by
    intro positions hpositions
    have hremainder := (hfound positions).mp hpositions
    refine Classical.byContradiction fun hne => hall ?_
    rw [← entriesAt_range entries]
    exact hremainder.maximal _ hrange hremainder.selection.sublist_range.subset (Ne.symm hne)
  have hmem := (hfound _).mpr hwhole
  obtain _ | ⟨first, rest⟩ := found
  · cases hmem
  obtain ⟨hfirst, hrest⟩ := List.forall_mem_cons.mp honly
  have hnil : rest = [] := by
    refine List.eq_nil_iff_forall_not_mem.mpr fun other hother => ?_
    exact (List.rel_of_pairwise_cons hordered hother).ne (hfirst.trans (hrest other hother).symm)
  rw [hnil, hfirst, List.map_singleton, entriesAt_range]

end

/-! ## Agreement -/

/-- **Contraction agrees with the remainders.** If the remainders of a base can be listed, a contraction
of the same base has an outcome, whatever was counted and sent before. It finds a tautology if there
are no remainders, and nothing to give up if the base is the only one. Otherwise it keeps the first of
those that have the greatest sum of priorities among the longest ones. -/
theorem contract_agrees_with_remainders {s t : Session} (h : s.Reachable) {φ : Formula}
    {parts : List (List Entry)} (hlist : (Operation.remainders φ).perform s = (.ok parts, t))
    (tally : Tally) (events : List Event) :
    ∃ outcome u,
      (Operation.contract φ).perform ⟨{ s.base with tally }, events⟩ = (.ok outcome, u) ∧
      (parts = [] → outcome = .tautology ∧ u.base.entries = s.base.entries) ∧
      (parts = [s.base.entries] → outcome = .notEntailed ∧ u.base.entries = s.base.entries) ∧
      (parts ≠ [] → parts ≠ [s.base.entries] →
        (∃ removed, outcome = .contracted removed) ∧ firstBest? parts = some u.base.entries) := by
  have hlimit := Operation.remainders_underLimit hlist
  obtain ⟨_, negated, w, found, hnegated, hfold, rfl⟩ := Operation.remainders_eq_ok hlist
  have hdown := selectionsDown_largerFirst s.base.entries.length s.base.entries.length
  have hgathered := gathered_of_foldlM hdown
    (fun positions b => h.entailment_iff (fun _ => mem_of_mem_entriesAt) hnegated) hfold
  have hordered := hdown.sublist hgathered.sublist
  have hfound (positions : List Nat) : positions ∈ found ↔ IsRemainder s.base.entries φ positions :=
    hgathered.mem_iff
  -- the contraction has an outcome
  have hanswered (positions : List Nat) (hselection : IsSelection s.base.entries.length positions) :
      Answered s.base.settings s.base.entries negated positions :=
    answered_of_foldlM hfold positions (mem_selectionsDown.mpr ⟨hselection, hselection.length_le⟩)
  obtain ⟨outcome, u, hrun⟩ := Operation.contract_succeeds
    (s := ⟨{ s.base with tally }, events⟩) hnegated hlimit hanswered
  refine ⟨outcome, u, by rw [Operation.perform, hrun], ?_⟩
  have hresult := h.contract_result tally events hrun
  generalize u.base.entries = kept at hresult
  cases hresult with
  | notEntailed hall =>
    rw [remainders_of_not_entails hordered hfound hall]
    exact ⟨fun hnil => absurd hnil (by simp), fun _ => ⟨rfl, rfl⟩, fun _ hne => absurd rfl hne⟩
  | tautology hnone =>
    have hnil : found = [] := by
      refine List.eq_nil_iff_forall_not_mem.mpr fun positions hpositions => ?_
      exact ((hfound positions).mp hpositions).not_entails (hnone.mono (by simp))
    subst hnil
    exact ⟨fun _ => ⟨rfl, rfl⟩, fun hbase => absurd hbase (by simp), fun hne => absurd rfl hne⟩
  | @contracted removed positions hall hnone hbest =>
    have hmem : positions ∈ found := (hfound positions).mpr hbest.isRemainder
    refine ⟨fun hnil => ?_, fun hbase => ?_, fun _ _ => ⟨⟨removed, rfl⟩, ?_⟩⟩
    · rw [List.map_eq_nil_iff] at hnil
      rw [hnil] at hmem
      cases hmem
    · have hsame : entriesAt s.base.entries positions = s.base.entries :=
        List.mem_singleton.mp (hbase ▸ List.mem_map_of_mem hmem)
      have hfails := hbest.not_entails
      rw [hsame] at hfails
      exact absurd hall hfails
    · exact firstBest?_remainders hordered hfound hbest

/-- Of `p`, `p → q` and `r` the two remainders without `q` are as long as each other; the one that is
listed second has the greater sum and is kept. -/
theorem contract_agrees_with_remainders_of_modus_ponens :
    let p : Formula := .atom "p"
    let q : Formula := .atom "q"
    let s := Session.afterAll {}
      [.expand p, .expandWith (.binary .implies p q) 4, .expand (.atom "r")]
    s.Reachable ∧ ∃ parts t, (Operation.remainders q).perform s = (.ok parts, t) ∧
      parts.map (·.map Entry.priority) = [[1, 1], [4, 1]] ∧
      ∃ removed u, (Operation.contract q).perform s = (.ok (.contracted removed), u) ∧
        firstBest? parts = some u.base.entries := by
  intro p q s
  have hreachable : s.Reachable := (Session.Reachable.start {}).afterAll _
  have hanswer : ((Operation.remainders q).perform s).1.map (·.map (·.map Entry.priority)) =
      .ok [[1, 1], [4, 1]] := by decide +kernel
  have hcount : s.base.entries.map Entry.priority = [1, 4, 1] := by decide +kernel
  clear_value s
  rcases hlist : (Operation.remainders q).perform s with ⟨error | parts, t⟩
  · rw [hlist] at hanswer
    cases hanswer
  rw [hlist] at hanswer
  have hparts : parts.map (·.map Entry.priority) = [[1, 1], [4, 1]] := Except.ok.inj hanswer
  have hnil : parts ≠ [] := by
    rintro rfl
    cases hparts
  have hbase : parts ≠ [s.base.entries] := by
    rintro rfl
    simp [hcount] at hparts
  obtain ⟨outcome, u, hrun, _, _, hcontracted⟩ :=
    contract_agrees_with_remainders hreachable hlist s.base.tally s.events
  obtain ⟨⟨removed, rfl⟩, hbest⟩ := hcontracted hnil hbase
  exact ⟨hreachable, parts, t, rfl, hparts, removed, u, hrun, hbest⟩

end BeliefRevision
