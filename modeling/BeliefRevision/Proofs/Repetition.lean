import Mathlib.Data.List.Nodup
import BeliefRevision.Proofs.Interruption

/-!
# Any number of calls

Calls on one saturation follow each other, and any of them may have been stopped by the limit. Through all
of them the list grows by new clauses at its end, which are counted, keep to the limit and follow from
the given clauses. So a refutation is right whenever it comes. Once a call has come to a verdict, right or
wrong, nothing changes any more but the number of passes.

* `Tidy` — what the list and its counts keep to: `Tidy.extend` through a pass, `saturate_tidy` through a
  call, `after_tidy` through any number of calls
* `calls_keep_to_consequences` — this and the meaning of the listed clauses together
* `verdict_is_final` — all calls after a verdict
-/

namespace BeliefRevision

/-! ## Distinct clauses -/

namespace Harvest

variable {resolvents listed added : List Clause} {harvest found : Harvest} {halt : Option Halt}

/-- The clauses found are distinct, and they are known. -/
structure Distinct (harvest : Harvest) : Prop where
  nodup : harvest.fresh.Nodup
  known : ∀ c ∈ harvest.fresh, c ∈ harvest.known

theorem absorb_distinct (h : absorb resolvents harvest = (halt, found)) (hstart : harvest.Distinct) :
    found.Distinct := by
  fun_induction absorb resolvents harvest with
  | case1 | case2 => cases h; exact hstart
  | case3 resolvent rest known fresh room hempty hskip ih => exact ih h hstart
  | case4 resolvent rest known fresh hempty hskip =>
    cases h
    exact ⟨hstart.nodup, fun c hc => ClauseSet.mem_insert.mpr (.inr (hstart.known c hc))⟩
  | case5 resolvent rest known fresh hempty hskip room ih =>
    rw [Bool.or_eq_true, not_or, Std.ExtTreeSet.contains_iff_mem] at hskip
    have hnew : resolvent ∉ fresh := fun hc => hskip.2 (hstart.known resolvent hc)
    refine ih h ⟨List.nodup_cons.mpr ⟨hnew, hstart.nodup⟩, fun c hc => ?_⟩
    exact ClauseSet.mem_insert.mpr ((List.mem_cons.mp hc).imp_right (hstart.known c))

theorem pass_distinct (h : pass listed added harvest = (halt, found)) (hstart : harvest.Distinct) :
    found.Distinct := by
  fun_induction pass listed added harvest with
  | case1 => cases h; exact hstart
  | case2 listed clause added harvest between hround ih =>
    exact ih h (absorb_distinct hround hstart)
  | case3 listed clause added harvest stop between hround =>
    cases h
    exact absorb_distinct hround hstart

end Harvest

namespace Saturation

theorem collect_nodup (keep : Clause → Bool) (known : ClauseSet) (found given : List Clause)
    (h : ∀ c, c ∈ known ↔ c ∈ found) (hfound : found.Nodup) :
    (collect keep known found given).1.Nodup := by
  fun_induction collect keep known found given with
  | case1 => exact List.nodup_reverse.mpr hfound
  | case2 known found clause rest hnew ih =>
    obtain ⟨_, hnew⟩ := (collected_iff h).mp hnew
    exact ih (mem_insert_iff_mem_cons h clause) (List.nodup_cons.mpr ⟨hnew, hfound⟩)
  | case3 known found clause rest hold ih => exact ih h hfound

/-! ## The list and its counts -/

/-- The listed clauses are distinct and known. They are as many as there were initially and resolvents
have been counted since, and they keep to the limit unless there were more from the start. -/
structure Tidy (initial : Nat) (s : Saturation) : Prop where
  distinct : s.clauses.Nodup
  coherent : s.Coherent
  counted : s.clauses.length = initial + s.resolvents
  bounded : s.clauses.length ≤ max s.clauseLimit initial

variable {initial : Nat} {s t : Saturation}

theorem Tidy.extend {u : Saturation} {listed added : List Clause} {found : Harvest}
    (hu : u.Tidy initial) (hroom : u.clauses.length ≤ u.clauseLimit)
    (hpass : Harvest.pass listed added u.harvest = (none, found)) :
    (u.extend found).Tidy initial where
  distinct := by
    have hfound : found.Distinct := Harvest.pass_distinct hpass ⟨.nil, by simp [harvest]⟩
    refine List.nodup_append.mpr ⟨hu.distinct, List.nodup_reverse.mpr hfound.nodup, ?_⟩
    rintro c hc _ hfresh rfl
    obtain ⟨_, _, hnew⟩ := (Harvest.pass_fresh hpass c (List.mem_reverse.mp hfresh)).resolve_left
      (by simp [harvest])
    exact hnew (hu.coherent c hc)
  coherent := hu.coherent.extend hpass
  counted := by
    show (u.clauses ++ found.fresh.reverse).length =
      initial + (u.resolvents + found.fresh.reverse.length)
    rw [List.length_append, hu.counted, Nat.add_assoc]
  bounded := Nat.le_trans (length_extend_le hroom hpass) (Nat.le_max_left _ _)

/-- What a pass leaves known but not listed touches neither the list nor its counts. -/
theorem Tidy.close {u : Saturation} {listed added : List Clause} {halt : Option Halt}
    {found : Harvest} (hu : u.Tidy initial)
    (hpass : Harvest.pass listed added u.harvest = (halt, found)) : (u.close found).Tidy initial where
  distinct := hu.distinct
  coherent := fun c hc => Harvest.pass_known_subset hpass c (hu.coherent c hc)
  counted := hu.counted
  bounded := hu.bounded

theorem saturate_tidy {answer : Except Error Verdict} (h : s.saturate = (answer, t))
    (hs : s.Tidy initial) : t.Tidy initial := by
  rcases saturate_cases h with ⟨_, _, rfl⟩ | ⟨_, _, _, rfl⟩ | ⟨_, hroom, hpasses⟩
  · exact hs
  · exact hs
  · have hpass : ∀ (u : Saturation) listed added found, u.clauses = listed ++ added →
        (u.Tidy initial ∧ u.clauses.length ≤ u.clauseLimit) →
        Harvest.pass listed added u.harvest = (none, found) →
        (u.extend found).Tidy initial ∧
          (u.extend found).clauses.length ≤ (u.extend found).clauseLimit := by
      rintro u listed added found _ ⟨hu, hulimit⟩ hpass
      exact ⟨hu.extend hulimit hpass, length_extend_le hulimit hpass⟩
    obtain ⟨u, listed, added, halt, found, _, ⟨hu, _⟩, hlast, _, _, rfl⟩ :=
      makePasses_last (Q := fun u _ _ => u.Tidy initial ∧ u.clauses.length ≤ u.clauseLimit) hpasses
        rfl ⟨hs, hroom⟩ hpass
    exact hu.close hlast

theorem after_tidy (hs : s.Tidy initial) (calls : Nat) : (s.after calls).Tidy initial := by
  induction calls with
  | zero => exact hs
  | succ calls ih => exact saturate_tidy (s.saturate_after calls) ih

theorem start_tidy (limit : Nat) (eliminate : Bool) (given : List Clause) :
    (start limit eliminate given).Tidy (start limit eliminate given).clauses.length where
  distinct := collect_nodup _ ∅ [] given (by simp) .nil
  coherent := fun c hc => (start_settled limit eliminate given c).mpr hc
  counted := (Nat.add_zero _).symm
  bounded := Nat.le_max_right _ _

/-- **What any number of calls keeps to**, whatever they answer. The listed clauses are canonical and
distinct, begin with those of the start and follow from the given ones. Each one added is counted, and
they keep to the limit unless there were more from the start. A refutation is right. -/
theorem calls_keep_to_consequences {given : List Clause} (hcanonical : ∀ c ∈ given, c.Canonical)
    (limit : Nat) (eliminate : Bool) (calls : Nat) :
    let s := start limit eliminate given
    let t := s.after calls
    (∀ c ∈ t.clauses, c.Canonical) ∧ t.clauses.Nodup ∧ s.clauses <+: t.clauses ∧
      (∀ c ∈ t.clauses, ∀ v : Nat → Bool, (∀ g ∈ given, g.Holds v) → c.Holds v) ∧
      t.clauses.length = s.clauses.length + t.resolvents ∧
      t.clauses.length ≤ max limit s.clauses.length ∧
      (s.answer calls = .ok .unsatisfiable → ¬ Satisfiable given) := by
  intro s t
  have htidy : t.Tidy s.clauses.length := after_tidy (start_tidy limit eliminate given) calls
  have hext : s.Extends t := after_extends s (Nat.zero_le calls)
  have hcanonical' : t.All Clause.Canonical :=
    after_all canonical_invariant (start_all limit eliminate given hcanonical) calls
  have hholds : ∀ v : Nat → Bool, (∀ g ∈ given, g.Holds v) → t.All (Clause.Holds v) :=
    fun v hv => after_all (holds_invariant v) (start_all limit eliminate given hv) calls
  obtain ⟨more, hmore, _⟩ := hext.clauses
  refine ⟨hcanonical'.clauses, htidy.distinct, ⟨more, hmore.symm⟩, ?_, htidy.counted, ?_, ?_⟩
  · exact fun c hc v hv => (hholds v hv).clauses c hc
  · have hbounded := htidy.bounded
    rwa [hext.clauseLimit] at hbounded
  · rintro hrefuted ⟨v, hv⟩
    have hcall := (saturate_after s calls).trans (by rw [hrefuted])
    have hempty : t.containsEmpty = true → [] ∈ t.clauses := by
      intro hgiven
      rw [hext.containsEmpty] at hgiven
      rw [hmore]
      exact List.mem_append_left more ((start_containsEmpty limit eliminate given).mp hgiven)
    exact not_holds_of_refuted hcall hempty (hholds v hv)

/-- `p`, `¬p ∨ q` and `¬q ∨ r` under a limit of 5: the first call lists `q` and `¬p ∨ r`, and `r` does not
fit. -/
theorem calls_keep_to_consequences_when_interrupted :
    let given : List Clause := [[⟨0, true⟩], [⟨0, false⟩, ⟨1, true⟩], [⟨1, false⟩, ⟨2, true⟩]]
    let s := start 5 true given
    (∀ c ∈ given, c.Canonical) ∧ s.answer 0 = .error .saturationLimit ∧
      (s.after 1).clauses = given ++ [[⟨1, true⟩], [⟨0, false⟩, ⟨2, true⟩]] ∧
      (s.after 1).Lost [⟨2, true⟩] ∧ (s.after 1).resolvents = 2 ∧
      ∀ c ∈ (s.after 1).clauses, ∀ v : Nat → Bool, (∀ g ∈ given, g.Holds v) → c.Holds v := by
  intro given s
  have hcanonical : ∀ c ∈ given, c.Canonical := by decide
  have hlisted : (s.after 1).clauses = given ++ [[⟨1, true⟩], [⟨0, false⟩, ⟨2, true⟩]] := by
    decide +kernel
  have hlost : (s.after 1).known.contains [⟨2, true⟩] = true ∧ [⟨2, true⟩] ∉ (s.after 1).clauses := by
    decide +kernel
  obtain ⟨_, _, _, hfollows, hcounted, _, _⟩ := calls_keep_to_consequences hcanonical 5 true 1
  have hcounted' : (s.after 1).clauses.length = s.clauses.length + (s.after 1).resolvents := hcounted
  have hstart : s.clauses.length = 3 := by decide +kernel
  rw [hlisted, hstart] at hcounted'
  have hresolvents : (s.after 1).resolvents = 2 := (Nat.add_left_cancel hcounted').symm
  exact ⟨hcanonical, by decide +kernel, hlisted,
    ⟨Std.ExtTreeSet.contains_iff_mem.mp hlost.1, hlost.2⟩, hresolvents, hfollows⟩

/-! ## After a verdict -/

theorem after_again {m : Nat} {verdict : Verdict} (h : s.answer m = .ok verdict) (later : Nat) :
    s.after (m + later + 1) =
      { s.after (m + 1) with
        passes := (s.after (m + 1)).passes + if (s.after (m + 1)).containsEmpty then 0 else later } := by
  induction later with
  | zero =>
    rw [ite_self]
    rfl
  | succ later ih =>
    have hanswer : s.answer (m + later) = .ok verdict := answer_again (Nat.le_add_right m later) h
    have hcall : (s.after (m + later + 1)).saturate = (.ok verdict, (s.after (m + later + 1)).idle) :=
      saturate_again ((s.saturate_after (m + later)).trans (by rw [hanswer]))
    have hnext : s.after (m + (later + 1) + 1) = (s.after (m + later + 1)).idle :=
      congrArg Prod.snd hcall
    rw [hnext, ih]
    unfold idle
    split
    · rfl
    · rfl

theorem containsEmpty_after {limit : Nat} {eliminate : Bool} {given : List Clause} {calls : Nat} :
    ((start limit eliminate given).after calls).containsEmpty = true ↔ [] ∈ given := by
  have hext : (start limit eliminate given).Extends ((start limit eliminate given).after calls) :=
    after_extends _ (Nat.zero_le calls)
  rw [hext.containsEmpty]
  simp [start]

/-- **A verdict is final.** Every call after it has the same verdict. It leaves everything as it is but for
the number of passes, which grows by one with each call unless the empty clause was given. -/
theorem verdict_is_final {limit : Nat} {eliminate : Bool} {given : List Clause} {m : Nat}
    {verdict : Verdict} (h : (start limit eliminate given).answer m = .ok verdict) (later : Nat) :
    let s := start limit eliminate given
    s.answer (m + later) = .ok verdict ∧
      s.after (m + later + 1) =
        { s.after (m + 1) with
          passes := (s.after (m + 1)).passes + if [] ∈ given then 0 else later } := by
  intro s
  refine ⟨answer_again (Nat.le_add_right m later) h, ?_⟩
  have hafter := after_again h later
  simp only [containsEmpty_after] at hafter
  exact hafter

/-- Of `q`, `p`, `¬q ∨ r` and `¬p` the first call finds `r` and then the empty clause, and loses `r`. On
`p`, `¬p ∨ q` and `¬q`, under a limit of 4, the second call takes the clauses for satisfiable. Neither
verdict is revised. -/
theorem verdict_is_final_though_clauses_are_lost :
    let given : List Clause := [[⟨1, true⟩], [⟨0, true⟩], [⟨1, false⟩, ⟨2, true⟩], [⟨0, false⟩]]
    let s := start 8 true given
    let t := start 4 true chain
    (s.answer 0 = .ok .unsatisfiable ∧ (s.after 1).Lost [⟨2, true⟩] ∧
        s.answer 9 = .ok .unsatisfiable ∧ s.after 10 = { s.after 1 with passes := 10 }) ∧
      t.answer 0 = .error .saturationLimit ∧ t.answer 1 = .ok .satisfiable ∧
        t.answer 9 = .ok .satisfiable ∧ t.after 10 = { t.after 2 with passes := 10 } := by
  intro given s t
  have hrefuted : s.answer 0 = .ok .unsatisfiable := by decide +kernel
  have hlost : (s.after 1).known.contains [⟨2, true⟩] = true ∧ [⟨2, true⟩] ∉ (s.after 1).clauses := by
    decide +kernel
  have hwrong : t.answer 1 = .ok .satisfiable := by decide +kernel
  obtain ⟨hrefuted', hs⟩ := verdict_is_final hrefuted 9
  obtain ⟨hwrong', ht⟩ := verdict_is_final hwrong 8
  have hspasses : (s.after 1).passes = 1 := by decide +kernel
  have htpasses : (t.after 2).passes = 2 := by decide +kernel
  refine ⟨⟨hrefuted, ⟨Std.ExtTreeSet.contains_iff_mem.mp hlost.1, hlost.2⟩, hrefuted', ?_⟩,
    by decide +kernel, hwrong, hwrong', ?_⟩
  · rw [hs, hspasses]
    rfl
  · rw [ht, htpasses]
    rfl

end Saturation

end BeliefRevision
