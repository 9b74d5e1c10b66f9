import BeliefRevision.Proofs.Decision

/-!
# Saturations that were interrupted

A pass that stops early leaves what it found known but not listed. To later calls such a clause counts
as found already, so it is never resolved with anything: it is lost. The answer that the clauses are
satisfiable then only says that the listed clauses lead to nothing unknown, and it can be wrong.

* `satisfiable_answer_iff` — without an earlier limit error a satisfiable answer is right; after one
  it is right exactly if all known clauses, the lost ones with them, can hold together
* `wrong_answer_after_limit` — three clauses whose saturation is wrong on the second call

A verdict, on the other hand, stays: the next call goes over the listed clauses in vain and comes to the
same end (`saturate_again`).
-/

namespace BeliefRevision

/-! ## Repeating a pass -/

namespace Harvest

variable {resolvents listed added others : List Clause} {harvest found : Harvest}

/-- Resolvents that are tautologies or known leave no trace. -/
theorem absorb_idle (h : ∀ r ∈ resolvents, r ≠ [] ∧ (r.isTautology = true ∨ r ∈ harvest.known)) :
    absorb resolvents harvest = (none, harvest) := by
  fun_induction absorb resolvents harvest with
  | case1 => rfl
  | case2 resolvent rest known fresh room hempty =>
    exact absurd (List.isEmpty_iff.mp hempty) (h resolvent List.mem_cons_self).1
  | case3 resolvent rest known fresh room hempty hskip ih =>
    exact ih (List.forall_mem_cons.mp h).2
  | case4 resolvent rest known fresh hempty hskip
  | case5 resolvent rest known fresh hempty hskip room ih =>
    refine absurd ?_ hskip
    rw [Bool.or_eq_true, Std.ExtTreeSet.contains_iff_mem]
    exact (h resolvent List.mem_cons_self).2

theorem pass_idle (h : (listed ++ added).Pairwise (Resolved harvest.known)) :
    pass listed added harvest = (none, harvest) := by
  induction added generalizing listed with
  | nil => rfl
  | cons clause added ih =>
    have hround : absorb (listed.flatMap (Clause.resolvents · clause)) harvest = (none, harvest) := by
      refine absorb_idle fun r hr => ?_
      obtain ⟨c, hc, hr⟩ := List.mem_flatMap.mp hr
      exact (List.pairwise_append.mp h).2.2 c hc clause List.mem_cons_self r hr
    rw [pass, hround]
    exact ih (by simpa using h)

theorem pass_append (h : pass listed added harvest = (none, found)) :
    pass listed (added ++ others) harvest = pass (listed ++ added) others found := by
  fun_induction pass listed added harvest with
  | case1 => cases h; simp
  | case2 listed clause added harvest between hround ih =>
    rw [List.cons_append, pass, hround]
    simpa using ih h
  | case3 => cases h

theorem absorb_append (h : absorb resolvents harvest = (none, found)) :
    absorb (resolvents ++ others) harvest = absorb others found := by
  fun_induction absorb resolvents harvest with
  | case1 => cases h; rfl
  | case2 | case4 => cases h
  | case3 resolvent rest known fresh room hempty hskip ih =>
    rw [List.cons_append, absorb.eq_def]
    simp only [if_neg hempty, if_pos hskip]
    exact ih h
  | case5 resolvent rest known fresh hempty hskip room ih =>
    rw [List.cons_append, absorb.eq_def]
    simp only [if_neg hempty, if_neg hskip]
    exact ih h

/-- What comes before the empty clause is seen to. -/
theorem absorb_refuted_split (h : absorb resolvents harvest = (some .refuted, found)) :
    ∃ before rest : List Clause, resolvents = before ++ [] :: rest ∧
      ∀ r ∈ before, r ≠ [] ∧ (r.isTautology = true ∨ r ∈ found.known) := by
  have hknown := absorb_known_subset h
  fun_induction absorb resolvents harvest with
  | case1 | case4 => cases h
  | case2 resolvent rest known fresh room hempty =>
    exact ⟨[], rest, by rw [List.isEmpty_iff.mp hempty]; rfl, by simp⟩
  | case3 resolvent rest known fresh room hempty hskip ih =>
    obtain ⟨before, rest, hsplit, hbefore⟩ := ih h (absorb_known_subset h)
    refine ⟨resolvent :: before, rest, by rw [hsplit]; rfl, List.forall_mem_cons.mpr ⟨?_, hbefore⟩⟩
    rw [Bool.or_eq_true, Std.ExtTreeSet.contains_iff_mem] at hskip
    exact ⟨by simpa using hempty, hskip.imp_right (hknown resolvent)⟩
  | case5 resolvent rest known fresh hempty hskip room ih =>
    have hknown := absorb_known_subset h
    obtain ⟨before, rest, hsplit, hbefore⟩ := ih h hknown
    refine ⟨resolvent :: before, rest, by rw [hsplit]; rfl, List.forall_mem_cons.mpr ⟨?_, hbefore⟩⟩
    exact ⟨by simpa using hempty, .inr (hknown resolvent (ClauseSet.mem_insert.mpr (.inl rfl)))⟩

/-- Whoever knows what was found up to the empty clause finds the empty clause next. -/
theorem absorb_refuted_again {later : Harvest}
    (h : absorb resolvents harvest = (some .refuted, found))
    (hlater : ∀ c ∈ found.known, c ∈ later.known) :
    absorb resolvents later = (some .refuted, later) := by
  obtain ⟨before, rest, rfl, hbefore⟩ := absorb_refuted_split h
  have hidle : absorb before later = (none, later) :=
    absorb_idle fun r hr => ⟨(hbefore r hr).1, (hbefore r hr).2.imp_right (hlater r)⟩
  rw [absorb_append hidle]
  rfl

/-- A pass that did not run out of room is repeated in vain by whoever knows what it found. -/
theorem pass_again {later : Harvest} {halt : Option Halt}
    (h : pass listed added harvest = (halt, found)) (hhalt : halt ≠ some .full)
    (hlater : ∀ c ∈ found.known, c ∈ later.known) : pass listed added later = (halt, later) := by
  fun_induction pass listed added harvest with
  | case1 => cases h; rfl
  | case2 listed clause added harvest between hround ih =>
    have hidle : absorb (listed.flatMap (Clause.resolvents · clause)) later = (none, later) := by
      refine absorb_idle fun r hr => ?_
      obtain ⟨hne, hseen⟩ := absorb_done hround r hr
      exact ⟨hne, hseen.imp_right fun hr => hlater r (pass_known_subset h r hr)⟩
    rw [pass, hidle]
    exact ih h
  | case3 listed clause added harvest stop between hround =>
    cases h
    cases stop with
    | refuted => rw [pass, absorb_refuted_again hround hlater]
    | full => exact absurd rfl hhalt

end Harvest

namespace Saturation

/-- The state after a call in vain: one more pass, or none if the empty clause was given. -/
def idle (s : Saturation) : Saturation :=
  { s with passes := s.passes + if s.containsEmpty then 0 else 1 }

/-- **A verdict is repeated by the next call**, which finds nothing new. -/
theorem saturate_again {s t : Saturation} {verdict : Verdict}
    (h : s.saturate = (.ok verdict, t)) : t.saturate = (.ok verdict, t.idle) := by
  rcases saturate_cases h with ⟨hgiven, _, rfl⟩ | ⟨_, _, hanswer, _⟩ | ⟨hnone, hroom, hpasses⟩
  · rw [h, idle, if_pos hgiven]
    rfl
  · cases hanswer
  · have hstep : ∀ u listed added found, u.clauses = listed ++ added →
        (s.Extends u ∧ listed.Pairwise (Resolved u.known) ∧ u.clauses.length ≤ u.clauseLimit) →
        Harvest.pass listed added u.harvest = (none, found) →
        s.Extends (u.extend found) ∧ u.clauses.Pairwise (Resolved (u.extend found).known) ∧
          (u.extend found).clauses.length ≤ (u.extend found).clauseLimit := by
      rintro u listed added found hclauses ⟨hu, hlisted, hulimit⟩ hpass
      exact ⟨hu.trans (extends_extend hpass), hclauses ▸ Harvest.pass_pairwise hpass hlisted,
        length_extend_le hulimit hpass⟩
    obtain ⟨u, listed, added, halt, found, hclauses, ⟨hu, hlisted, hulimit⟩, hlast, _, hanswer, rfl⟩ :=
      makePasses_last (Q := fun u listed _ => s.Extends u ∧ listed.Pairwise (Resolved u.known) ∧
        u.clauses.length ≤ u.clauseLimit) hpasses rfl ⟨.refl s, .nil, hroom⟩ hstep
    have hhalt : halt ≠ some .full := by
      rintro rfl
      cases hanswer
    have hknown := Harvest.pass_known_subset hlast
    -- the pairs of the earlier passes lead to nothing unknown, and the last pass is made again
    have hidle : Harvest.pass [] listed (u.close found).harvest = (none, (u.close found).harvest) :=
      Harvest.pass_idle (hlisted.imp (Resolved.mono · hknown))
    have hagain : Harvest.pass listed added (u.close found).harvest =
        (halt, (u.close found).harvest) :=
      Harvest.pass_again hlast hhalt fun _ hc => hc
    have hwhole : Harvest.pass [] (u.close found).clauses (u.close found).harvest =
        (halt, (u.close found).harvest) := by
      have happend : Harvest.pass [] (listed ++ added) _ = Harvest.pass ([] ++ listed) added _ :=
        Harvest.pass_append hidle
      rw [List.nil_append, ← hclauses] at happend
      exact happend.trans hagain
    have hempty : ¬ (u.close found).containsEmpty = true := by
      show ¬ u.containsEmpty = true
      rw [hu.containsEmpty, hnone]
      simp
    have hlimit : ¬ (u.close found).clauseLimit < (u.close found).clauses.length :=
      Nat.not_lt.mpr hulimit
    rw [saturate, if_neg hempty, if_neg hlimit, makePasses_of_halt rfl hwhole fun _ => rfl,
      ← hanswer, idle, if_neg hempty]
    rfl

/-! ## Repeated calls -/

/-- The state after a number of calls. -/
def after (s : Saturation) : Nat → Saturation
  | 0 => s
  | calls + 1 => (s.after calls).saturate.2

/-- What the call answers that comes after a number of calls. -/
def answer (s : Saturation) (calls : Nat) : Except Error Verdict := (s.after calls).saturate.1

theorem saturate_after (s : Saturation) (calls : Nat) :
    (s.after calls).saturate = (s.answer calls, s.after (calls + 1)) := rfl

theorem after_extends (s : Saturation) {m n : Nat} (h : m ≤ n) :
    (s.after m).Extends (s.after n) := by
  induction h with
  | refl => exact .refl _
  | step _ ih => exact ih.trans (saturate_extends (s.saturate_after _))

theorem after_all {P : Clause → Prop} (hP : ResolutionInvariant P) {s : Saturation} (hs : s.All P)
    (calls : Nat) : (s.after calls).All P := by
  induction calls with
  | zero => exact hs
  | succ calls ih => exact saturate_all (s.saturate_after calls) hP ih

theorem answer_again {s : Saturation} {m n : Nat} {verdict : Verdict} (h : m ≤ n)
    (hm : s.answer m = .ok verdict) : s.answer n = .ok verdict := by
  induction h with
  | refl => exact hm
  | step _ ih => exact congrArg Prod.fst (saturate_again (Prod.ext ih rfl))

/-- The only error of a call is that of the limit. -/
theorem eq_saturationLimit {s t : Saturation} {error : Error}
    (h : s.saturate = (.error error, t)) : error = .saturationLimit := by
  rcases saturate_cases h with ⟨_, hanswer, _⟩ | ⟨_, _, hanswer, _⟩ | ⟨_, _, hpasses⟩
  · cases hanswer
  · cases hanswer
    rfl
  · obtain ⟨u, listed, added, halt, found, _, _, _, _, hanswer, _⟩ :=
      makePasses_last (Q := fun _ _ _ => True) hpasses rfl trivial fun _ _ _ _ _ _ _ => trivial
    match halt, hanswer with
    | some .full, hanswer => cases hanswer; rfl

/-- Up to a satisfiable answer without a limit error nothing is lost. -/
theorem after_settled {s : Saturation} (hs : s.Settled) {n : Nat}
    (hn : s.answer n = .ok .satisfiable)
    (herrors : ∀ m < n, s.answer m ≠ .error .saturationLimit) : (s.after (n + 1)).Settled := by
  have hanswers : ∀ m ≤ n, s.answer m = .ok .satisfiable := by
    intro m hm
    rcases Nat.lt_or_eq_of_le hm with hlt | rfl
    · cases hanswer : s.answer m with
      | error error =>
        have : error = .saturationLimit := eq_saturationLimit (Prod.ext hanswer rfl)
        exact absurd (this ▸ hanswer) (herrors m hlt)
      | ok verdict =>
        cases verdict with
        | satisfiable => rfl
        | unsatisfiable =>
          have hfinal := answer_again hm hanswer
          rw [hn] at hfinal
          cases hfinal
    · exact hn
  have hsettled : ∀ m ≤ n + 1, (s.after m).Settled := by
    intro m
    induction m with
    | zero => exact fun _ => hs
    | succ m ih =>
      intro hm
      exact saturate_settled (Prod.ext (hanswers m (by omega)) rfl) (ih (by omega))
  exact hsettled (n + 1) (Nat.le_refl _)

/-! ## Lost clauses -/

/-- A clause that is known without being listed. -/
def Lost (s : Saturation) (c : Clause) : Prop := c ∈ s.known ∧ c ∉ s.clauses

theorem Lost.mono {s t : Saturation} {c : Clause} (hc : s.Lost c) (h : s.Extends t) : t.Lost c := by
  obtain ⟨more, hmore, hnew⟩ := h.clauses
  refine ⟨h.known c hc.1, ?_⟩
  rw [hmore, List.mem_append, not_or]
  exact ⟨hc.2, fun hm => (hnew c hm).2.2 hc.1⟩

/-- The listed clauses are known. -/
def Coherent (s : Saturation) : Prop := ∀ c ∈ s.clauses, c ∈ s.known

theorem Coherent.extend {u : Saturation} {listed added : List Clause} {found : Harvest}
    (hu : u.Coherent) (hpass : Harvest.pass listed added u.harvest = (none, found)) :
    (u.extend found).Coherent := by
  intro c hc
  refine (Harvest.pass_accounted hpass u.accounted_harvest c).mpr ?_
  rcases List.mem_append.mp hc with hc | hc
  · exact .inl (hu c hc)
  · exact .inr (List.mem_reverse.mp hc)

theorem saturate_coherent {s t : Saturation} {answer : Except Error Verdict}
    (h : s.saturate = (answer, t)) (hs : s.Coherent) : t.Coherent := by
  rcases saturate_cases h with ⟨_, _, rfl⟩ | ⟨_, _, _, rfl⟩ | ⟨_, _, hpasses⟩
  · exact hs
  · exact hs
  · obtain ⟨u, listed, added, halt, found, _, hu, hlast, _, _, rfl⟩ :=
      makePasses_last (Q := fun u _ _ => u.Coherent) hpasses rfl hs
        fun u listed added found _ hu hpass => hu.extend hpass
    exact fun c hc => Harvest.pass_known_subset hlast c (hu c hc)

theorem after_coherent {s : Saturation} (hs : s.Coherent) (calls : Nat) :
    (s.after calls).Coherent := by
  induction calls with
  | zero => exact hs
  | succ calls ih => exact saturate_coherent (s.saturate_after calls) ih

/-- A call that the limit stops in a pass loses a clause. -/
theorem exists_lost {s t : Saturation} {error : Error} (h : s.saturate = (.error error, t))
    (hs : s.Coherent) (hroom : s.clauses.length ≤ s.clauseLimit) : ∃ c, t.Lost c := by
  rcases saturate_cases h with ⟨_, hanswer, _⟩ | ⟨_, hlimit, _, _⟩ | ⟨_, _, hpasses⟩
  · cases hanswer
  · omega
  · obtain ⟨u, listed, added, halt, found, _, hu, hlast, _, hanswer, rfl⟩ :=
      makePasses_last (Q := fun u _ _ => u.Coherent) hpasses rfl hs
        fun u listed added found _ hu hpass => hu.extend hpass
    match halt, hanswer with
    | some .full, _ =>
      obtain ⟨c, hc, hnew⟩ := Harvest.pass_full hlast
      exact ⟨c, hc, fun hlisted => hnew (hu c hlisted)⟩

/-- Before a satisfiable answer the listed clauses are within the limit. -/
theorem length_le_of_satisfiable {s t : Saturation} (h : s.saturate = (.ok .satisfiable, t)) :
    s.clauses.length ≤ s.clauseLimit := by
  rcases saturate_cases h with ⟨_, hanswer, _⟩ | ⟨_, _, hanswer, _⟩ | ⟨_, hroom, _⟩
  · cases hanswer
  · cases hanswer
  · exact hroom

/-- After a limit error, a call that finds the clauses satisfiable leaves a lost clause behind. -/
theorem exists_lost_of_limit {s : Saturation} (hs : s.Coherent) {m n : Nat} (hmn : m < n)
    (hm : s.answer m = .error .saturationLimit) (hn : s.answer n = .ok .satisfiable) :
    ∃ c, (s.after (n + 1)).Lost c := by
  have hroom : (s.after m).clauses.length ≤ (s.after m).clauseLimit := by
    have hext := after_extends s (Nat.le_of_lt hmn)
    obtain ⟨more, hmore, _⟩ := hext.clauses
    have hlater := length_le_of_satisfiable (s.saturate_after n |>.trans (by rw [hn]))
    rw [hmore, hext.clauseLimit, List.length_append] at hlater
    omega
  obtain ⟨c, hc⟩ := exists_lost (s.saturate_after m |>.trans (by rw [hm])) (after_coherent hs m) hroom
  exact ⟨c, hc.mono (after_extends s (by omega))⟩

/-! ## What a satisfiable answer means -/

/-- The given clauses can hold together exactly if all clauses known after some calls can. -/
theorem satisfiable_given_iff {given : List Clause} (hcanonical : ∀ c ∈ given, c.Canonical)
    (limit : Nat) (eliminate : Bool) (calls : Nat) :
    Satisfiable given ↔
      ∃ v : Nat → Bool, ∀ c ∈ ((start limit eliminate given).after calls).known, c.Holds v := by
  have hsettled := start_settled limit eliminate given
  constructor
  · rintro ⟨v, hv⟩
    exact ⟨v, (after_all (holds_invariant v) (start_all limit eliminate given hv) calls).known⟩
  · rintro ⟨v, hv⟩
    refine ⟨v, fun c hc => ?_⟩
    cases htaut : c.isTautology with
    | true => exact Clause.holds_of_isTautology (hcanonical c hc) htaut
    | false =>
      have hlisted := (mem_start_clauses limit eliminate given).mpr ⟨hc, fun _ => htaut⟩
      refine hv c ((after_extends _ (Nat.zero_le calls)).known c ?_)
      exact (hsettled c).mpr hlisted

/-- **What a satisfiable answer means, call by call.** If no earlier call ended with the limit error,
the given clauses are satisfiable. If one did, clauses are lost, and the answer only says that the
resolvents of listed clauses are known. Then the given clauses are satisfiable exactly if all known
clauses, the lost ones with them, can hold together, and a fresh run on these can tell. -/
theorem satisfiable_answer_iff {given : List Clause} (hcanonical : ∀ c ∈ given, c.Canonical)
    {limit : Nat} {eliminate : Bool} {calls : Nat}
    (h : (start limit eliminate given).answer calls = .ok .satisfiable) :
    ((∀ m < calls, (start limit eliminate given).answer m ≠ .error .saturationLimit) →
        Satisfiable given) ∧
      ((∃ m < calls, (start limit eliminate given).answer m = .error .saturationLimit) →
        (∃ c, ((start limit eliminate given).after (calls + 1)).Lost c) ∧
          ((start limit eliminate given).after (calls + 1)).clauses.Pairwise
            (Resolved ((start limit eliminate given).after (calls + 1)).known) ∧
          (Satisfiable given ↔ ∃ v : Nat → Bool,
            ∀ c ∈ ((start limit eliminate given).after (calls + 1)).known, c.Holds v) ∧
          ∀ limit' eliminate' b,
            isUnsatisfiable limit' eliminate'
              ((start limit eliminate given).after (calls + 1)).known.toList = .ok b →
            (b = false ↔ Satisfiable given)) := by
  have hsettled := start_settled limit eliminate given
  have hiff := satisfiable_given_iff hcanonical limit eliminate (calls + 1)
  have hcall := (saturate_after (start limit eliminate given) calls).trans (by rw [h])
  constructor
  · intro herrors
    have hlast := after_settled hsettled h herrors
    have hext : (start limit eliminate given).Extends ((start limit eliminate given).after calls) :=
      after_extends _ (Nat.zero_le calls)
    have hmodel : Satisfiable ((start limit eliminate given).after (calls + 1)).clauses := by
      refine satisfiable_of_settled hcall
        (after_all canonical_invariant (start_all limit eliminate given hcanonical) calls) ?_ hlast
      intro hempty
      rw [hext.containsEmpty, start_containsEmpty]
      obtain ⟨more, hmore, hnew⟩ := hext.clauses
      rw [hmore, List.mem_append] at hempty
      exact hempty.resolve_right fun hm => (hnew [] hm).1 rfl
    obtain ⟨v, hv⟩ := hmodel
    exact hiff.mpr ⟨v, fun c hc => hv c ((hlast c).mp hc)⟩
  · rintro ⟨m, hm, herror⟩
    refine ⟨exists_lost_of_limit (fun c hc => (hsettled c).mpr hc) hm herror h,
      saturate_pairwise hcall, hiff, fun limit' eliminate' b hb => ?_⟩
    have hknown := after_all canonical_invariant (start_all limit eliminate given hcanonical)
      (calls + 1)
    have hfresh := isUnsatisfiable_iff
      (fun c hc => hknown.known c (Std.ExtTreeSet.mem_toList.mp hc)) hb
    rw [← Bool.not_eq_true, hfresh, Classical.not_not, hiff]
    simp only [Satisfiable, Std.ExtTreeSet.mem_toList]

/-- The clauses `p`, `¬p ∨ q` and `¬q`. -/
def chain : List Clause := [[⟨0, true⟩], [⟨0, false⟩, ⟨1, true⟩], [⟨1, false⟩]]

/-- With room for one more clause the first call on the chain finds `q`, and `¬p` does not fit. The
second call finds nothing new. -/
theorem satisfiable_answer_iff_chain :
    (∀ c ∈ chain, c.Canonical) ∧ (start 4 true chain).answer 0 = .error .saturationLimit ∧
      (start 4 true chain).answer 1 = .ok .satisfiable ∧
      (∃ c, ((start 4 true chain).after 2).Lost c) ∧
      ¬ ∃ v : Nat → Bool, ∀ c ∈ ((start 4 true chain).after 2).known, c.Holds v := by
  have hcanonical : ∀ c ∈ chain, c.Canonical := by decide
  have hfirst : (start 4 true chain).answer 0 = .error .saturationLimit := by decide +kernel
  have hsecond : (start 4 true chain).answer 1 = .ok .satisfiable := by decide +kernel
  have hrefuted : isUnsatisfiable 8 true chain = .ok true := by decide +kernel
  obtain ⟨hlost, _, hiff, _⟩ :=
    (satisfiable_answer_iff hcanonical hsecond).2 ⟨0, by decide, hfirst⟩
  exact ⟨hcanonical, hfirst, hsecond, hlost,
    fun h => (isUnsatisfiable_iff hcanonical hrefuted).mp rfl (hiff.mpr h)⟩

/-- **A satisfiable answer after a limit error can be wrong.** -/
theorem wrong_answer_after_limit :
    ¬ ∀ (given : List Clause) (limit : Nat) (eliminate : Bool) (m n : Nat),
      (∀ c ∈ given, c.Canonical) → m < n →
        (start limit eliminate given).answer m = .error .saturationLimit →
          (start limit eliminate given).answer n = .ok .satisfiable → Satisfiable given := by
  intro h
  have hcanonical : ∀ c ∈ chain, c.Canonical := by decide
  have hrefuted : isUnsatisfiable 8 true chain = .ok true := by decide +kernel
  refine (isUnsatisfiable_iff hcanonical hrefuted).mp rfl ?_
  exact h chain 4 true 0 1 hcanonical (by decide) (by decide +kernel) (by decide +kernel)

end Saturation

end BeliefRevision
