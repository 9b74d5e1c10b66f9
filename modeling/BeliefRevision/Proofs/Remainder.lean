import BeliefRevision.Proofs.Entailment
import BeliefRevision.Proofs.Selections

/-!
# Contraction keeps the best remainder

A set of beliefs is preferred to another one if it is larger, or of the same size and firmer, or of
the same size and sum of priorities and earlier in lexicographic order. A contraction keeps the set
that is preferred to all others from which the formula does not follow.

* `Search.Knows` — what a search has found out about the selections it has looked at
* `descend_knows` — the search ends with the best selection of all sizes, if there is any
* `contract_result`, `contract_keeps_best` — what a contraction comes to
-/

namespace BeliefRevision

/-- The beliefs at the positions `kept` are preferred to those at `other`. -/
def Preferred (entries : List Entry) (kept other : List Nat) : Prop :=
  other.length < kept.length ∨ other.length = kept.length ∧
    (prioritySum (entriesAt entries other) < prioritySum (entriesAt entries kept) ∨
      prioritySum (entriesAt entries other) = prioritySum (entriesAt entries kept) ∧ kept < other)

/-- The formulas at the positions do not entail the formula, and no other such set of positions is as
good. -/
structure IsBestRemainder (entries : List Entry) (φ : Formula) (kept : List Nat) : Prop where
  selection : IsSelection entries.length kept
  not_entails : ¬ Entails ((entriesAt entries kept).map Entry.formula) φ
  preferred : ∀ other, IsSelection entries.length other →
    ¬ Entails ((entriesAt entries other).map Entry.formula) φ →
      other = kept ∨ Preferred entries kept other

/-! ## Searching -/

namespace Search

section

variable {settings : Settings} {entries : List Entry} {negatedGoal : ClauseSet}
  {Follows : List Nat → Prop}

/-- The best selection found so far is the best one of those in `seen` from which the goal does not
follow; if there is none found, it follows from all of them. -/
def Knows (entries : List Entry) (Follows : List Nat → Prop) (seen : List (List Nat))
    (search : Search) : Prop :=
  match search.best with
  | none => ∀ positions ∈ seen, Follows positions
  | some (best, sum) =>
    best ∈ seen ∧ ¬ Follows best ∧ sum = prioritySum (entriesAt entries best) ∧
      ∀ positions ∈ seen, ¬ Follows positions → positions = best ∨
        prioritySum (entriesAt entries positions) < sum ∨
        prioritySum (entriesAt entries positions) = sum ∧ best < positions

theorem Knows.skip {seen : List (List Nat)} {search : Search} {positions : List Nat}
    (h : search.Knows entries Follows seen) (hfollows : Follows positions) (examined : Nat) :
    Knows entries Follows (seen ++ [positions]) { search with examined } := by
  unfold Knows at h ⊢
  cases hbest : search.best with
  | none =>
    rw [hbest] at h
    dsimp only
    exact List.forall_mem_append.mpr ⟨h, List.forall_mem_singleton.mpr hfollows⟩
  | some pair =>
    rw [hbest] at h
    dsimp only
    obtain ⟨hmem, hfails, hsum, hothers⟩ := h
    refine ⟨List.mem_append_left _ hmem, hfails, hsum, List.forall_mem_append.mpr ⟨hothers, ?_⟩⟩
    exact List.forall_mem_singleton.mpr fun hnot => absurd hfollows hnot

theorem Knows.offer {seen : List (List Nat)} {search : Search} {positions : List Nat}
    (h : search.Knows entries Follows seen) (hlater : ∀ other ∈ seen, other < positions)
    (hfails : ¬ Follows positions) :
    Knows entries Follows (seen ++ [positions])
      (search.offer positions (prioritySum (entriesAt entries positions))) := by
  unfold Knows at h
  unfold Search.offer
  have hmem : positions ∈ seen ++ [positions] := List.mem_append_right _ (List.mem_singleton_self _)
  cases hbest : search.best with
  | none =>
    rw [hbest] at h
    refine ⟨hmem, hfails, rfl, List.forall_mem_append.mpr ⟨?_, ?_⟩⟩
    · exact fun other hother hnot => absurd (h other hother) hnot
    · exact List.forall_mem_singleton.mpr fun _ => .inl rfl
  | some pair =>
    obtain ⟨best, sum⟩ := pair
    rw [hbest] at h
    obtain ⟨hbestmem, hbestfails, hsum, hothers⟩ := h
    dsimp only
    by_cases hlt : sum < prioritySum (entriesAt entries positions)
    · -- nothing before it has so great a sum
      rw [if_pos hlt]
      refine ⟨hmem, hfails, rfl, List.forall_mem_append.mpr ⟨fun other hother hnot => ?_, ?_⟩⟩
      · rcases hothers other hother hnot with rfl | hless | ⟨hequal, _⟩
        · exact .inr (.inl (hsum ▸ hlt))
        · exact .inr (.inl (Nat.lt_trans hless hlt))
        · exact .inr (.inl (hequal ▸ hlt))
      · exact List.forall_mem_singleton.mpr fun _ => .inl rfl
    · rw [if_neg hlt]
      simp only [Knows, hbest]
      refine ⟨List.mem_append_left _ hbestmem, hbestfails, hsum,
        List.forall_mem_append.mpr ⟨hothers, List.forall_mem_singleton.mpr fun _ => ?_⟩⟩
      rcases Nat.lt_or_eq_of_le (Nat.not_lt.mp hlt) with hless | hequal
      · exact .inr (.inl hless)
      · exact .inr (.inr ⟨hequal, hlater best hbestmem⟩)

/-- A look at one more selection, which stands behind those already seen. -/
theorem Knows.examine {seen : List (List Nat)} {search next : Search} {positions : List Nat}
    (hsearch : search.Knows entries Follows seen) (hlater : ∀ other ∈ seen, other < positions)
    (hright : ∀ b, settings.entailment (entriesAt entries positions) negatedGoal = .ok b →
      (b = true ↔ Follows positions))
    (h : search.examine settings entries negatedGoal positions = .ok next) :
    next.Knows entries Follows (seen ++ [positions]) := by
  obtain ⟨entailed, hanswer, rfl⟩ := examine_eq_ok h
  have hentailed := hright entailed hanswer
  cases entailed with
  | true => exact hsearch.skip (hentailed.mp rfl) _
  | false =>
    have hfails : ¬ Follows positions := fun hf => by simpa using hentailed.mpr hf
    exact Knows.offer hsearch hlater hfails

/-- **A look at selections in their order.** -/
theorem knows_of_foldlM {items : List (List Nat)} {search found : Search}
    (hnone : search.best = none) (hordered : items.Pairwise (· < ·))
    (hright : ∀ positions b,
      settings.entailment (entriesAt entries positions) negatedGoal = .ok b →
        (b = true ↔ Follows positions))
    (h : items.foldlM (Search.examine settings entries negatedGoal) search = .ok found) :
    found.Knows entries Follows items := by
  have hstart : search.Knows entries Follows [] := by
    unfold Knows
    rw [hnone]
    simp
  refine Computation.foldlM_invariant (Knows entries Follows) ?_ hstart h
  intro seen positions rest before after hseen hbefore hafter
  refine hbefore.examine (fun other hother => ?_) (hright positions) hafter
  rw [← hseen] at hordered
  exact (List.pairwise_append.mp hordered).2.2 other hother positions List.mem_cons_self

/-- The best selection found is the best one of all with less than `size` positions from which the
goal does not follow; if there is none found, it follows from all of them. -/
def KnowsBelow (entries : List Entry) (Follows : List Nat → Prop) (size : Nat)
    (search : Search) : Prop :=
  match search.best with
  | none => ∀ positions, IsSelection entries.length positions → positions.length < size →
      Follows positions
  | some (best, _) => IsSelection entries.length best ∧ ¬ Follows best ∧
      ∀ positions, IsSelection entries.length positions → positions.length < size →
        ¬ Follows positions → positions = best ∨ Preferred entries best positions

theorem Knows.below {size : Nat} {search : Search}
    (h : search.Knows entries Follows (selections entries.length size).toList)
    (hsome : search.best.isSome) : search.KnowsBelow entries Follows (size + 1) := by
  unfold Knows at h
  unfold KnowsBelow
  obtain ⟨⟨best, sum⟩, hbest⟩ := Option.isSome_iff_exists.mp hsome
  rw [hbest] at h ⊢
  obtain ⟨hmem, hfails, rfl, hothers⟩ := h
  obtain ⟨hselection, hlength⟩ := mem_selections.mp hmem
  refine ⟨hselection, hfails, fun positions hother hlengthOther hfailsOther => ?_⟩
  by_cases hequal : positions.length = size
  · have hseen := mem_selections.mpr ⟨hother, hequal⟩
    exact (hothers positions hseen hfailsOther).imp_right fun h => .inr ⟨by omega, h⟩
  · exact .inr (.inl (by omega))

theorem Knows.follows {size : Nat} {search : Search}
    (h : search.Knows entries Follows (selections entries.length size).toList)
    (hnone : search.best = none) {positions : List Nat}
    (hselection : IsSelection entries.length positions) (hlength : positions.length = size) :
    Follows positions := by
  unfold Knows at h
  rw [hnone] at h
  exact h positions (mem_selections.mpr ⟨hselection, hlength⟩)

theorem KnowsBelow.succ {size : Nat} {search : Search}
    (h : search.KnowsBelow entries Follows size)
    (hall : ∀ positions, IsSelection entries.length positions → positions.length = size →
      Follows positions) : search.KnowsBelow entries Follows (size + 1) := by
  unfold KnowsBelow at h ⊢
  cases hbest : search.best with
  | none =>
    rw [hbest] at h
    intro positions hselection hlength
    by_cases hequal : positions.length = size
    · exact hall positions hselection hequal
    · exact h positions hselection (by omega)
  | some pair =>
    rw [hbest] at h
    obtain ⟨hselection, hfails, hothers⟩ := h
    refine ⟨hselection, hfails, fun positions hother hlength hfailsOther => ?_⟩
    by_cases hequal : positions.length = size
    · exact absurd (hall positions hother hequal) hfailsOther
    · exact hothers positions hother (by omega) hfailsOther

/-- **The search from large to small** comes upon the best selection of all. -/
theorem descend_knows {size : Nat} {search found : Search} (hnone : search.best = none)
    (hright : ∀ positions b,
      settings.entailment (entriesAt entries positions) negatedGoal = .ok b →
        (b = true ↔ Follows positions))
    (h : descend settings entries negatedGoal size search = .ok found) :
    found.KnowsBelow entries Follows size := by
  induction size generalizing search with
  | zero =>
    cases h
    unfold KnowsBelow
    rw [hnone]
    exact fun _ _ hlength => absurd hlength (Nat.not_lt_zero _)
  | succ size ih =>
    obtain ⟨middle, hmiddle, h⟩ := descend_eq_ok h
    have hknows : middle.Knows entries Follows (selections entries.length size).toList :=
      knows_of_foldlM hnone (selections_ascending entries.length size) hright hmiddle
    by_cases hsome : middle.best.isSome
    · rw [if_pos hsome] at h
      cases h
      exact hknows.below hsome
    · -- nothing of this size, so the search goes on below it
      rw [if_neg hsome] at h
      have hempty : middle.best = none := by simpa using hsome
      exact (ih hempty h).succ fun _ => hknows.follows hempty

end

end Search

/-! ## Contracting -/

theorem Preferred.length_le {entries : List Entry} {kept other : List Nat}
    (h : Preferred entries kept other) : other.length ≤ kept.length := by
  rcases h with hless | ⟨hequal, _⟩
  · exact Nat.le_of_lt hless
  · exact Nat.le_of_eq hequal

/-- The best remainder is maximal: with any other belief of the base it entails the formula. -/
theorem IsBestRemainder.entails_of_more {entries : List Entry} {φ : Formula} {kept : List Nat}
    (h : IsBestRemainder entries φ kept) {p : Nat} {entry : Entry} (hp : p ∉ kept)
    (hget : entries[p]? = some entry) :
    Entails ((entriesAt entries kept).map Entry.formula ++ [entry.formula]) φ := by
  let more := (List.range entries.length).filter fun q => kept.contains q || q == p
  have hlt : p < entries.length := (List.getElem?_eq_some_iff.mp hget).1
  have hsublist : kept.Sublist more := h.selection.sublist_filter fun q hq => by simp [hq]
  have hmem : p ∈ more := by simp [more, hlt]
  have hlonger : kept.length < more.length := by
    refine Nat.lt_of_le_of_ne hsublist.length_le fun hlength => hp ?_
    rw [hsublist.eq_of_length hlength]
    exact hmem
  have hfollows : Entails ((entriesAt entries more).map Entry.formula) φ := by
    refine Classical.byContradiction fun hfails => ?_
    rcases h.preferred more (isSelection_filter _ _) hfails with hsame | hpreferred
    · exact hp (hsame ▸ hmem)
    · exact Nat.not_lt.mpr hpreferred.length_le hlonger
  refine hfollows.mono fun ψ hψ => ?_
  obtain ⟨other, hother, rfl⟩ := List.mem_map.mp hψ
  obtain ⟨q, hq, hgetq⟩ := mem_entriesAt.mp hother
  have hcases : q ∈ kept ∨ q = p := by simpa [more] using (List.mem_filter.mp hq).2
  rcases hcases with hqkept | rfl
  · exact List.mem_append_left _ (List.mem_map_of_mem (mem_entriesAt.mpr ⟨q, hqkept, hgetq⟩))
  · rw [hget] at hgetq
    cases hgetq
    exact List.mem_append_right _ (List.mem_singleton_self _)

/-- What the search of a contraction finds is the best remainder. -/
theorem Session.Reachable.descend_best {s : Session} (h : s.Reachable) {φ : Formula}
    {limit : Nat} {negated : ClauseSet} {w : Vocabulary} {search : Search}
    (hnegated : (Formula.not φ).clauses limit s.base.vocabulary = (.ok negated, w))
    (hall : Entails s.base.formulas φ) (hnone : ¬ Entails [] φ)
    (hsearch : Search.descend s.base.settings s.base.entries negated s.base.entries.length {} =
      .ok search) :
    IsBestRemainder s.base.entries φ ((search.best.map Prod.fst).getD []) := by
  let Follows (positions : List Nat) : Prop :=
    Entails ((entriesAt s.base.entries positions).map Entry.formula) φ
  have hknows : search.KnowsBelow s.base.entries Follows s.base.entries.length :=
    Search.descend_knows rfl
      (fun positions b => h.entailment_iff (fun _ => mem_of_mem_entriesAt) hnegated) hsearch
  have hfull : ∀ positions, IsSelection s.base.entries.length positions →
      ¬ Follows positions → positions.length < s.base.entries.length := by
    intro positions hselection hfails
    refine Nat.lt_of_not_le fun hle => hfails ?_
    show Entails ((entriesAt s.base.entries positions).map Entry.formula) φ
    rw [hselection.sublist_range.eq_of_length_le (by simpa using hle), entriesAt_range]
    exact hall
  unfold Search.KnowsBelow at hknows
  rcases hbest : search.best with _ | ⟨best, sum⟩
  · -- the empty selection would have been found
    rw [hbest] at hknows
    have hempty : IsSelection s.base.entries.length [] := ⟨.nil, by simp⟩
    exact absurd (hknows [] hempty (hfull [] hempty hnone)) hnone
  · rw [hbest] at hknows
    obtain ⟨hselection, hfails, hothers⟩ := hknows
    refine ⟨hselection, hfails, fun other hother hfailsOther => ?_⟩
    exact hothers other hother (hfull other hother hfailsOther) hfailsOther

/-- What a contraction comes to: its outcome, and the beliefs afterwards. -/
inductive ContractionResult (entries : List Entry) (φ : Formula) :
    Contraction → List Entry → Prop where
  | notEntailed (hall : ¬ Entails (entries.map Entry.formula) φ) :
      ContractionResult entries φ .notEntailed entries
  | tautology (hnone : Entails [] φ) : ContractionResult entries φ .tautology entries
  | contracted {removed : List Formula} {kept : List Nat}
      (hall : Entails (entries.map Entry.formula) φ) (hnone : ¬ Entails [] φ)
      (hbest : IsBestRemainder entries φ kept) :
      ContractionResult entries φ (.contracted removed) (entriesAt entries kept)

/-- **A contraction comes to one of these**, whatever was counted and sent before. -/
theorem Session.Reachable.contract_result {s t : Session} (h : s.Reachable) {φ : Formula}
    {outcome : Contraction} (tally : Tally) (events : List Event)
    (hrun : Operation.contract φ ⟨{ s.base with tally }, events⟩ = (.ok outcome, t)) :
    ContractionResult s.base.entries φ outcome t.base.entries := by
  cases Operation.contract_run hrun with
  | notEntailed hnegated hall =>
    refine .notEntailed fun hfollows => ?_
    simpa using (h.entailment_iff (fun _ => id) hnegated hall).mpr hfollows
  | tautology hnegated hall hnone =>
    exact .tautology ((h.entailment_iff (by simp) hnegated hnone).mp rfl)
  | contracted hnegated hall hnone hlimit hsearch hkept hremainder =>
    have hfollows : Entails s.base.formulas φ := (h.entailment_iff (fun _ => id) hnegated hall).mp rfl
    have hfails : ¬ Entails [] φ := fun hf => by
      simpa using (h.entailment_iff (by simp) hnegated hnone).mpr hf
    subst hkept hremainder
    exact .contracted hfollows hfails (h.descend_best hnegated hfollows hfails hsearch)

/-- **Contraction keeps exactly the best remainder.** -/
theorem contract_keeps_best {s : Session} (h : s.Reachable) {φ : Formula} {outcome : Contraction}
    (hok : ((Operation.contract φ).perform s).1 = .ok outcome) :
    let after := ((Operation.contract φ).perform s).2
    (outcome = .notEntailed ↔ ¬ Entails s.base.formulas φ) ∧
      (outcome = .tautology ↔ ∀ v, φ.Holds v) ∧
      (outcome = .notEntailed ∨ outcome = .tautology → after.base.entries = s.base.entries) ∧
      ∀ removed, outcome = .contracted removed →
        ∃ kept, IsBestRemainder s.base.entries φ kept ∧
          after.base.entries = entriesAt s.base.entries kept ∧
          removed = (entriesAt s.base.entries
            ((List.range s.base.entries.length).filter (!kept.contains ·))).map Entry.formula ∧
          ¬ Entails after.base.formulas φ ∧
          ∀ ψ ∈ removed, Entails (after.base.formulas ++ [ψ]) φ := by
  intro after
  have hrun : Operation.contract φ s = (.ok outcome, after) := Prod.ext hok rfl
  rw [← entails_nil_iff]
  -- the answers of the two checks in front are right
  have hcheck {entries : List Entry} {negated : ClauseSet} {w : Vocabulary} {b : Bool}
      (hsub : ∀ entry ∈ entries, entry ∈ s.base.entries)
      (hnegated : (Formula.not φ).clauses s.base.settings.clauseLimit.value s.base.vocabulary =
        (.ok negated, w))
      (hanswer : s.base.settings.entailment entries negated = .ok b) :
      b = true ↔ Entails (entries.map Entry.formula) φ :=
    h.entailment_iff hsub hnegated hanswer
  generalize after = t at hrun
  cases Operation.contract_run hrun with
  | notEntailed hnegated hall =>
    have hfails : ¬ Entails s.base.formulas φ := fun hf => by
      simpa using (hcheck (fun _ => id) hnegated hall).mpr hf
    have hnone : ¬ Entails [] φ := fun hf => hfails (hf.mono (by simp))
    simp [hfails, hnone]
  | tautology hnegated hall hnone =>
    have hfollows : Entails s.base.formulas φ := (hcheck (fun _ => id) hnegated hall).mp rfl
    have hvalid : Entails [] φ := (hcheck (by simp) hnegated hnone).mp rfl
    simp [hfollows, hvalid]
  | @contracted negated w tally search kept remainder hnegated hall hnone hlimit hsearch hkept
      hremainder =>
    have hfollows : Entails s.base.formulas φ := (hcheck (fun _ => id) hnegated hall).mp rfl
    have hfails : ¬ Entails [] φ := fun hf => by simpa using (hcheck (by simp) hnegated hnone).mpr hf
    subst hremainder
    have hbest : IsBestRemainder s.base.entries φ kept :=
      hkept ▸ h.descend_best hnegated hfollows hfails hsearch
    refine ⟨by simp [hfollows], by simp [hfails], by simp, fun removed hremoved => ?_⟩
    cases hremoved
    refine ⟨kept, hbest, rfl, rfl, hbest.not_entails, fun ψ hψ => ?_⟩
    obtain ⟨entry, hentry, rfl⟩ := List.mem_map.mp hψ
    obtain ⟨p, hp, hget⟩ := mem_entriesAt.mp hentry
    have hp : p ∉ kept := by simpa using (List.mem_filter.mp hp).2
    exact hbest.entails_of_more hp hget

/-- Of `p` and `p → q`, which are equally firm, the later one is given up, and `r` stays. -/
theorem contract_keeps_best_of_equals :
    let p : Formula := .atom "p"
    let q : Formula := .atom "q"
    let s := Session.afterAll {}
      [.expandWith p 2, .expandWith (.binary .implies p q) 2, .expand (.atom "r")]
    s.Reachable ∧
      ((Operation.contract q).perform s).1 = .ok (.contracted [.binary .implies p q]) ∧
      ∃ kept, IsBestRemainder s.base.entries q kept ∧
        ((Operation.contract q).perform s).2.base.entries = entriesAt s.base.entries kept ∧
        ¬ Entails ((Operation.contract q).perform s).2.base.formulas q := by
  intro p q s
  have hreachable : s.Reachable := (Session.Reachable.start {}).afterAll _
  have hanswer : ((Operation.contract q).perform s).1 =
      .ok (.contracted [.binary .implies p q]) := by decide +kernel
  obtain ⟨_, _, _, hcontracted⟩ := contract_keeps_best hreachable hanswer
  obtain ⟨kept, hbest, hentries, _, hfails, _⟩ := hcontracted _ rfl
  exact ⟨hreachable, hanswer, kept, hbest, hentries, hfails⟩

end BeliefRevision
