import Mathlib.Control.Monad.Basic
import BeliefRevision.Proofs.ClauseSet
import BeliefRevision.Proofs.Resolution
import BeliefRevision.Saturation

/-!
# What a saturation knows and lists

The facts about a saturation that hold in every state, and those that hold as long as no pass has
stopped early. They are proved for one round of resolvents, then for one pass, then for a whole call.

* Whatever a property of clauses passes on to resolvents, `ResolutionInvariant`, is passed on to all
  clauses that a saturation knows or lists (`saturate_all`); a refutation passes it on to the empty
  clause (`saturate_refuted`).
* An answer that the clauses are satisfiable means that the resolvents of any two listed clauses are
  known (`saturate_pairwise`).
* A pass that comes to its end lists all that it has found, so an undisturbed saturation knows the
  clauses it lists and no others (`saturate_settled`).
-/

namespace BeliefRevision

/-- A property of clauses that resolvents inherit. -/
def ResolutionInvariant (P : Clause → Prop) : Prop :=
  ∀ left right : Clause, P left → P right → ∀ r ∈ left.resolvents right, P r

theorem canonical_invariant : ResolutionInvariant Clause.Canonical := by
  intro left right hleft hright r hr
  obtain ⟨pivot, _, rfl⟩ := List.mem_map.mp hr
  exact hleft.resolve hright pivot

theorem holds_invariant (v : Nat → Bool) : ResolutionInvariant (Clause.Holds v) := by
  intro left right hleft hright r hr
  obtain ⟨pivot, _, rfl⟩ := List.mem_map.mp hr
  exact hleft.resolve hright pivot

/-- The resolvents of two clauses are tautologies or known, and none of them is empty. -/
def Resolved (known : ClauseSet) (earlier later : Clause) : Prop :=
  ∀ r ∈ earlier.resolvents later, r ≠ [] ∧ (r.isTautology = true ∨ r ∈ known)

theorem Resolved.mono {known more : ClauseSet} {earlier later : Clause}
    (h : Resolved known earlier later) (hsub : ∀ c ∈ known, c ∈ more) :
    Resolved more earlier later :=
  fun r hr => ⟨(h r hr).1, (h r hr).2.imp_right (hsub r)⟩

namespace Harvest

/-- What is known beyond `base` is what was found. -/
def Accounted (base : ClauseSet) (harvest : Harvest) : Prop :=
  ∀ c, c ∈ harvest.known ↔ c ∈ base ∨ c ∈ harvest.fresh

/-! ## One round of resolvents -/

section Absorb

variable {resolvents : List Clause} {harvest found : Harvest} {halt : Option Halt}

theorem absorb_known_subset (h : absorb resolvents harvest = (halt, found)) :
    ∀ c ∈ harvest.known, c ∈ found.known := by
  intro c hc
  fun_induction absorb resolvents harvest with
  | case1 | case2 => cases h; exact hc
  | case3 resolvent rest known fresh room hempty hskip ih => exact ih h hc
  | case4 => cases h; exact ClauseSet.mem_insert.mpr (.inr hc)
  | case5 resolvent rest known fresh hempty hskip room ih =>
    exact ih h (ClauseSet.mem_insert.mpr (.inr hc))

theorem absorb_all {P : Clause → Prop} (h : absorb resolvents harvest = (halt, found))
    (hresolvents : ∀ r ∈ resolvents, P r) (hknown : ∀ c ∈ harvest.known, P c)
    (hfresh : ∀ c ∈ harvest.fresh, P c) :
    (∀ c ∈ found.known, P c) ∧ ∀ c ∈ found.fresh, P c := by
  fun_induction absorb resolvents harvest with
  | case1 | case2 => cases h; exact ⟨hknown, hfresh⟩
  | case3 resolvent rest known fresh room hempty hskip ih =>
    exact ih h (fun r hr => hresolvents r (List.mem_cons_of_mem _ hr)) hknown hfresh
  | case4 resolvent rest known fresh hempty hskip =>
    cases h
    refine ⟨fun c hc => ?_, hfresh⟩
    rcases ClauseSet.mem_insert.mp hc with rfl | hc
    · exact hresolvents c List.mem_cons_self
    · exact hknown c hc
  | case5 resolvent rest known fresh hempty hskip room ih =>
    obtain ⟨hr, hrest⟩ := List.forall_mem_cons.mp hresolvents
    refine ih h hrest ?_ (List.forall_mem_cons.mpr ⟨hr, hfresh⟩)
    intro c hc
    rcases ClauseSet.mem_insert.mp hc with rfl | hc
    · exact hr
    · exact hknown c hc

theorem absorb_refuted (h : absorb resolvents harvest = (some .refuted, found)) :
    [] ∈ resolvents := by
  fun_induction absorb resolvents harvest with
  | case1 | case4 => cases h
  | case2 resolvent rest known fresh room hempty =>
    rw [List.isEmpty_iff] at hempty
    exact hempty ▸ List.mem_cons_self
  | case3 resolvent rest known fresh room hempty hskip ih => exact List.mem_cons_of_mem _ (ih h)
  | case5 resolvent rest known fresh hempty hskip room ih => exact List.mem_cons_of_mem _ (ih h)

/-- A round that stops for want of room has come to know a clause that was not known before. -/
theorem absorb_full (h : absorb resolvents harvest = (some .full, found)) :
    ∃ c ∈ found.known, c ∉ harvest.known := by
  fun_induction absorb resolvents harvest with
  | case1 | case2 => cases h
  | case3 resolvent rest known fresh room hempty hskip ih => exact ih h
  | case4 resolvent rest known fresh hempty hskip =>
    cases h
    rw [Bool.or_eq_true, not_or, Std.ExtTreeSet.contains_iff_mem] at hskip
    exact ⟨resolvent, ClauseSet.mem_insert.mpr (.inl rfl), hskip.2⟩
  | case5 resolvent rest known fresh hempty hskip room ih =>
    obtain ⟨c, hc, hnew⟩ := ih h
    exact ⟨c, hc, fun hknown => hnew (ClauseSet.mem_insert.mpr (.inr hknown))⟩

/-- A round that comes to its end has seen to every resolvent. -/
theorem absorb_done (h : absorb resolvents harvest = (none, found)) :
    ∀ r ∈ resolvents, r ≠ [] ∧ (r.isTautology = true ∨ r ∈ found.known) := by
  fun_induction absorb resolvents harvest with
  | case1 => simp
  | case2 | case4 => cases h
  | case3 resolvent rest known fresh room hempty hskip ih =>
    refine List.forall_mem_cons.mpr ⟨⟨by simpa using hempty, ?_⟩, ih h⟩
    rw [Bool.or_eq_true, Std.ExtTreeSet.contains_iff_mem] at hskip
    exact hskip.imp_right (absorb_known_subset h resolvent)
  | case5 resolvent rest known fresh hempty hskip room ih =>
    refine List.forall_mem_cons.mpr ⟨⟨by simpa using hempty, .inr ?_⟩, ih h⟩
    exact absorb_known_subset h resolvent (ClauseSet.mem_insert.mpr (.inl rfl))

theorem absorb_accounted {base : ClauseSet} (h : absorb resolvents harvest = (none, found))
    (hbase : harvest.Accounted base) : found.Accounted base := by
  fun_induction absorb resolvents harvest with
  | case1 => cases h; exact hbase
  | case2 | case4 => cases h
  | case3 resolvent rest known fresh room hempty hskip ih => exact ih h hbase
  | case5 resolvent rest known fresh hempty hskip room ih =>
    refine ih h fun c => ?_
    have hc : c ∈ known ↔ c ∈ base ∨ c ∈ fresh := hbase c
    simp only [ClauseSet.mem_insert, hc, List.mem_cons]
    exact or_left_comm

/-- What is found is neither empty nor a tautology, and was not known before. -/
theorem absorb_fresh (h : absorb resolvents harvest = (halt, found)) :
    ∀ c ∈ found.fresh,
      c ∈ harvest.fresh ∨ c ≠ [] ∧ c.isTautology = false ∧ c ∉ harvest.known := by
  fun_induction absorb resolvents harvest with
  | case1 | case2 | case4 => cases h; exact fun c hc => .inl hc
  | case3 resolvent rest known fresh room hempty hskip ih => exact ih h
  | case5 resolvent rest known fresh hempty hskip room ih =>
    rw [Bool.or_eq_true, not_or, Bool.not_eq_true, Std.ExtTreeSet.contains_iff_mem] at hskip
    intro c hc
    rcases ih h c hc with hc | ⟨hne, htaut, hnew⟩
    · rcases List.mem_cons.mp hc with rfl | hc
      · exact .inr ⟨by simpa using hempty, hskip⟩
      · exact .inl hc
    · exact .inr ⟨hne, htaut, fun hc => hnew (ClauseSet.mem_insert.mpr (.inr hc))⟩

end Absorb

/-! ## One pass -/

section Pass

variable {listed added : List Clause} {harvest found : Harvest} {halt : Option Halt}

theorem forall_mem_resolvents {P : Clause → Prop} (hP : ResolutionInvariant P) {clause : Clause}
    (hlisted : ∀ c ∈ listed, P c) (hclause : P clause) :
    ∀ r ∈ listed.flatMap (Clause.resolvents · clause), P r := by
  intro r hr
  obtain ⟨c, hc, hr⟩ := List.mem_flatMap.mp hr
  exact hP c clause (hlisted c hc) hclause r hr

theorem forall_mem_listed {P : Clause → Prop} {clause : Clause} (hlisted : ∀ c ∈ listed, P c)
    (hclause : P clause) : ∀ c ∈ listed ++ [clause], P c :=
  List.forall_mem_append.mpr ⟨hlisted, List.forall_mem_singleton.mpr hclause⟩

theorem pass_known_subset (h : pass listed added harvest = (halt, found)) :
    ∀ c ∈ harvest.known, c ∈ found.known := by
  intro c hc
  fun_induction pass listed added harvest with
  | case1 => cases h; exact hc
  | case2 listed clause added harvest between hround ih =>
    exact ih h (absorb_known_subset hround c hc)
  | case3 listed clause added harvest stop between hround =>
    cases h
    exact absorb_known_subset hround c hc

theorem pass_all {P : Clause → Prop} (h : pass listed added harvest = (halt, found))
    (hP : ResolutionInvariant P) (hlisted : ∀ c ∈ listed, P c) (hadded : ∀ c ∈ added, P c)
    (hknown : ∀ c ∈ harvest.known, P c) (hfresh : ∀ c ∈ harvest.fresh, P c) :
    (∀ c ∈ found.known, P c) ∧ ∀ c ∈ found.fresh, P c := by
  fun_induction pass listed added harvest with
  | case1 => cases h; exact ⟨hknown, hfresh⟩
  | case2 listed clause added harvest between hround ih =>
    obtain ⟨hclause, hadded⟩ := List.forall_mem_cons.mp hadded
    have hbetween := absorb_all hround (forall_mem_resolvents hP hlisted hclause) hknown hfresh
    exact ih h (forall_mem_listed hlisted hclause) hadded hbetween.1 hbetween.2
  | case3 listed clause added harvest stop between hround =>
    cases h
    have hclause := hadded clause List.mem_cons_self
    exact absorb_all hround (forall_mem_resolvents hP hlisted hclause) hknown hfresh

/-- A pass that is refuted has met two clauses with an empty resolvent. -/
theorem pass_refuted (h : pass listed added harvest = (some .refuted, found)) :
    ∃ a ∈ listed ++ added, ∃ b ∈ listed ++ added, [] ∈ a.resolvents b := by
  fun_induction pass listed added harvest with
  | case1 => cases h
  | case2 listed clause added harvest between hround ih =>
    rw [List.append_cons]
    exact ih h
  | case3 listed clause added harvest stop between hround =>
    cases h
    obtain ⟨c, hc, hempty⟩ := List.mem_flatMap.mp (absorb_refuted hround)
    exact ⟨c, List.mem_append_left _ hc, clause, by simp, hempty⟩

theorem pass_full (h : pass listed added harvest = (some .full, found)) :
    ∃ c ∈ found.known, c ∉ harvest.known := by
  fun_induction pass listed added harvest with
  | case1 => cases h
  | case2 listed clause added harvest between hround ih =>
    obtain ⟨c, hc, hnew⟩ := ih h
    exact ⟨c, hc, fun hknown => hnew (absorb_known_subset hround c hknown)⟩
  | case3 listed clause added harvest stop between hround =>
    cases h
    exact absorb_full hround

/-- **A pass that comes to its end has resolved all pairs.** Those among the clauses listed at first
were resolved before. -/
theorem pass_pairwise (h : pass listed added harvest = (none, found))
    (hlisted : listed.Pairwise (Resolved harvest.known)) :
    (listed ++ added).Pairwise (Resolved found.known) := by
  fun_induction pass listed added harvest with
  | case1 => cases h; simpa using hlisted
  | case2 listed clause added harvest between hround ih =>
    have hclause : (listed ++ [clause]).Pairwise (Resolved between.known) := by
      refine List.pairwise_append.mpr
        ⟨hlisted.imp (Resolved.mono · (absorb_known_subset hround)), by simp, ?_⟩
      intro c hc d hd r hr
      obtain rfl := List.mem_singleton.mp hd
      exact absorb_done hround r (List.mem_flatMap.mpr ⟨c, hc, hr⟩)
    simpa using ih h hclause
  | case3 => cases h

theorem pass_accounted {base : ClauseSet} (h : pass listed added harvest = (none, found))
    (hbase : harvest.Accounted base) : found.Accounted base := by
  fun_induction pass listed added harvest with
  | case1 => cases h; exact hbase
  | case2 listed clause added harvest between hround ih =>
    exact ih h (absorb_accounted hround hbase)
  | case3 => cases h

theorem pass_fresh (h : pass listed added harvest = (halt, found)) :
    ∀ c ∈ found.fresh,
      c ∈ harvest.fresh ∨ c ≠ [] ∧ c.isTautology = false ∧ c ∉ harvest.known := by
  fun_induction pass listed added harvest with
  | case1 => cases h; exact fun c hc => .inl hc
  | case2 listed clause added harvest between hround ih =>
    intro c hc
    rcases ih h c hc with hc | ⟨hne, htaut, hnew⟩
    · exact absorb_fresh hround c hc
    · exact .inr ⟨hne, htaut, fun hknown => hnew (absorb_known_subset hround c hknown)⟩
  | case3 listed clause added harvest stop between hround =>
    cases h
    exact absorb_fresh hround

end Pass

end Harvest

namespace Saturation

/-! ## The passes of one call -/

/-- The first round of a pass has found nothing yet. -/
def harvest (s : Saturation) : Harvest := ⟨s.known, [], s.clauseLimit - s.clauses.length⟩

/-- The state after a pass that came to its end: what it found is listed. -/
def extend (s : Saturation) (found : Harvest) : Saturation :=
  { s with
    clauses := s.clauses ++ found.fresh.reverse
    known := found.known
    passes := s.passes + 1
    resolvents := s.resolvents + found.fresh.reverse.length }

/-- The state after the last pass of a call: what it found is known but not listed. -/
def close (s : Saturation) (found : Harvest) : Saturation :=
  { s with known := found.known, passes := s.passes + 1 }

/-- What a call answers after its last pass. -/
def outcome : Option Halt → Except Error Verdict
  | some .refuted => .ok .unsatisfiable
  | some .full => .error .saturationLimit
  | none => .ok .satisfiable

theorem accounted_harvest (s : Saturation) : s.harvest.Accounted s.known := fun c => by simp [harvest]

/-- **What a call does, pass by pass.** What holds at first and is kept by every pass that comes to
its end with something found holds before the last pass, and this one decides the answer. -/
theorem makePasses_last {s t : Saturation} {listed added : List Clause}
    {answer : Except Error Verdict} {Q : Saturation → List Clause → List Clause → Prop}
    (h : s.makePasses listed added = (answer, t)) (hclauses : s.clauses = listed ++ added)
    (hs : Q s listed added)
    (hpass : ∀ u listed added found, u.clauses = listed ++ added → Q u listed added →
      Harvest.pass listed added u.harvest = (none, found) →
      Q (u.extend found) u.clauses found.fresh.reverse) :
    ∃ u listed added halt found, u.clauses = listed ++ added ∧ Q u listed added ∧
      Harvest.pass listed added u.harvest = (halt, found) ∧ (halt = none → found.fresh = []) ∧
      answer = outcome halt ∧ t = u.close found := by
  fun_induction makePasses s listed added with
  | case1 s listed added found hlast =>
    cases h
    rw [← hclauses] at hlast
    exact ⟨s, listed, added, some .refuted, found, hclauses, hs, hlast, by simp, rfl, rfl⟩
  | case2 s listed added found hlast =>
    cases h
    rw [← hclauses] at hlast
    exact ⟨s, listed, added, some .full, found, hclauses, hs, hlast, by simp, rfl, rfl⟩
  | case3 s listed added known room hlast =>
    cases h
    rw [← hclauses] at hlast
    exact ⟨s, listed, added, none, _, hclauses, hs, hlast, fun _ => rfl, rfl, rfl⟩
  | case4 s listed added known last others room hfirst fresh ih =>
    have hnext := hpass s listed added _ hclauses hs (by rw [harvest, hclauses]; exact hfirst)
    rw [extend, hclauses] at hnext
    exact ih h rfl hnext

/-- A pass is the last one if it stops early or finds nothing. -/
theorem makePasses_of_halt {s : Saturation} {listed added : List Clause} {halt : Option Halt}
    {found : Harvest} (hclauses : s.clauses = listed ++ added)
    (h : Harvest.pass listed added s.harvest = (halt, found)) (hlast : halt = none → found.fresh = []) :
    s.makePasses listed added = (outcome halt, s.close found) := by
  rw [harvest, hclauses] at h
  rw [makePasses]
  split
  · next hpass => rw [h] at hpass; cases hpass; rfl
  · next hpass => rw [h] at hpass; cases hpass; rfl
  · next hpass => rw [h] at hpass; cases hpass; rfl
  · next hpass => rw [h] at hpass; cases hpass; cases hlast rfl

/-- Otherwise another one follows, over what was found. -/
theorem makePasses_of_fresh {s : Saturation} {listed added : List Clause} {found : Harvest}
    (hclauses : s.clauses = listed ++ added)
    (h : Harvest.pass listed added s.harvest = (none, found)) (hfresh : found.fresh ≠ []) :
    s.makePasses listed added = (s.extend found).makePasses s.clauses found.fresh.reverse := by
  rw [harvest, hclauses] at h
  rw [makePasses]
  split
  · next hpass => rw [h] at hpass; cases hpass
  · next hpass => rw [h] at hpass; cases hpass
  · next hpass => rw [h] at hpass; cases hpass; exact absurd rfl hfresh
  · next hpass => rw [h] at hpass; cases hpass; rw [extend, hclauses]

/-- What a pass finds is within the limit. -/
theorem length_extend_le {u : Saturation} {listed added : List Clause} {found : Harvest}
    (hroom : u.clauses.length ≤ u.clauseLimit)
    (hpass : Harvest.pass listed added u.harvest = (none, found)) :
    (u.extend found).clauses.length ≤ (u.extend found).clauseLimit := by
  have hfound := Harvest.pass_room listed added u.harvest
  rw [hpass] at hfound
  simp only [harvest, List.length_nil] at hfound
  simp only [extend, List.length_append, List.length_reverse]
  omega

/-! ## One call -/

/-- A call answers at once, or it makes passes over all clauses. -/
theorem saturate_cases {s t : Saturation} {answer : Except Error Verdict}
    (h : s.saturate = (answer, t)) :
    s.containsEmpty = true ∧ answer = .ok .unsatisfiable ∧ t = s ∨
      s.containsEmpty = false ∧ s.clauseLimit < s.clauses.length ∧
        answer = .error .saturationLimit ∧ t = s ∨
      s.containsEmpty = false ∧ s.clauses.length ≤ s.clauseLimit ∧
        s.makePasses [] s.clauses = (answer, t) := by
  unfold saturate at h
  split at h
  · next hempty => cases h; exact .inl ⟨hempty, rfl, rfl⟩
  · next hempty =>
    rw [Bool.not_eq_true] at hempty
    split at h
    · next hlimit => cases h; exact .inr (.inl ⟨hempty, hlimit, rfl, rfl⟩)
    · next hlimit => exact .inr (.inr ⟨hempty, Nat.le_of_not_lt hlimit, h⟩)

/-- The property holds of all clauses, listed or not. -/
structure All (P : Clause → Prop) (s : Saturation) : Prop where
  clauses : ∀ c ∈ s.clauses, P c
  known : ∀ c ∈ s.known, P c

theorem All.extend {P : Clause → Prop} {s : Saturation} {listed added : List Clause}
    {found : Harvest} (hP : ResolutionInvariant P) (hs : s.All P)
    (hclauses : s.clauses = listed ++ added)
    (hpass : Harvest.pass listed added s.harvest = (none, found)) : (s.extend found).All P := by
  obtain ⟨hlisted, hadded⟩ := List.forall_mem_append.mp (hclauses ▸ hs.clauses)
  obtain ⟨hknown, hfresh⟩ := Harvest.pass_all hpass hP hlisted hadded hs.known (by simp [harvest])
  refine ⟨List.forall_mem_append.mpr ⟨hs.clauses, ?_⟩, hknown⟩
  exact fun c hc => hfresh c (List.mem_reverse.mp hc)

theorem saturate_all {P : Clause → Prop} {s t : Saturation} {answer : Except Error Verdict}
    (h : s.saturate = (answer, t)) (hP : ResolutionInvariant P) (hs : s.All P) : t.All P := by
  rcases saturate_cases h with ⟨_, _, rfl⟩ | ⟨_, _, _, rfl⟩ | ⟨_, _, hpasses⟩
  · exact hs
  · exact hs
  · obtain ⟨u, listed, added, halt, found, hclauses, hu, hlast, _, _, rfl⟩ :=
      makePasses_last (Q := fun u _ _ => u.All P) hpasses rfl hs
        fun u listed added found hclauses hu hpass => hu.extend hP hclauses hpass
    obtain ⟨hlisted, hadded⟩ := List.forall_mem_append.mp (hclauses ▸ hu.clauses)
    exact ⟨hu.clauses,
      (Harvest.pass_all hlast hP hlisted hadded hu.known (by simp [harvest])).1⟩

/-- **A refutation hands a property of all clauses down to the empty clause.** -/
theorem saturate_refuted {P : Clause → Prop} {s t : Saturation}
    (h : s.saturate = (.ok .unsatisfiable, t)) (hP : ResolutionInvariant P) (hs : s.All P)
    (hempty : s.containsEmpty = true → [] ∈ s.clauses) : P [] := by
  rcases saturate_cases h with ⟨hgiven, _, _⟩ | ⟨_, _, hanswer, _⟩ | ⟨_, _, hpasses⟩
  · exact hs.clauses [] (hempty hgiven)
  · cases hanswer
  · obtain ⟨u, listed, added, halt, found, hclauses, hu, hlast, _, hanswer, rfl⟩ :=
      makePasses_last (Q := fun u _ _ => u.All P) hpasses rfl hs
        fun u listed added found hclauses hu hpass => hu.extend hP hclauses hpass
    match halt, hanswer with
    | some .refuted, _ =>
      obtain ⟨a, ha, b, hb, hempty⟩ := Harvest.pass_refuted hlast
      rw [← hclauses] at ha hb
      exact hP a b (hu.clauses a ha) (hu.clauses b hb) [] hempty

/-- **At a satisfiable answer the resolvents of any two listed clauses are known.** -/
theorem saturate_pairwise {s t : Saturation} (h : s.saturate = (.ok .satisfiable, t)) :
    t.clauses.Pairwise (Resolved t.known) := by
  rcases saturate_cases h with ⟨_, hanswer, _⟩ | ⟨_, _, hanswer, _⟩ | ⟨_, _, hpasses⟩
  · cases hanswer
  · cases hanswer
  · obtain ⟨u, listed, added, halt, found, hclauses, hu, hlast, _, hanswer, rfl⟩ :=
      makePasses_last (Q := fun u listed _ => listed.Pairwise (Resolved u.known)) hpasses rfl .nil
        fun u listed added found hclauses hu hpass => hclauses ▸ Harvest.pass_pairwise hpass hu
    match halt, hanswer with
    | none, _ =>
      have hpairs := Harvest.pass_pairwise hlast hu
      rw [← hclauses] at hpairs
      exact hpairs

/-! ## Known and listed clauses -/

/-- The listed clauses are known, and no others. -/
def Settled (s : Saturation) : Prop := ∀ c, c ∈ s.known ↔ c ∈ s.clauses

theorem Settled.extend {s : Saturation} {listed added : List Clause} {found : Harvest}
    (hs : s.Settled) (hpass : Harvest.pass listed added s.harvest = (none, found)) :
    (s.extend found).Settled := by
  intro c
  have hc := Harvest.pass_accounted hpass s.accounted_harvest c
  simp only [Saturation.extend, List.mem_append, List.mem_reverse]
  rw [hc, hs c]

/-- **A call that is not stopped early knows the clauses it lists and no others.** -/
theorem saturate_settled {s t : Saturation} (h : s.saturate = (.ok .satisfiable, t))
    (hs : s.Settled) : t.Settled := by
  rcases saturate_cases h with ⟨_, hanswer, _⟩ | ⟨_, _, hanswer, _⟩ | ⟨_, _, hpasses⟩
  · cases hanswer
  · cases hanswer
  · obtain ⟨u, listed, added, halt, found, hclauses, hu, hlast, hnone, hanswer, rfl⟩ :=
      makePasses_last (Q := fun u _ _ => u.Settled) hpasses rfl hs
        fun u listed added found hclauses hu hpass => hu.extend hpass
    match halt, hanswer with
    | none, _ =>
      intro c
      have hc := Harvest.pass_accounted hlast u.accounted_harvest c
      rw [hnone rfl] at hc
      simp only [close, hc, ← hu c]
      simp

/-- Nothing is forgotten. What comes to be listed is neither empty nor a tautology, and was not known
before. -/
structure Extends (s t : Saturation) : Prop where
  known : ∀ c ∈ s.known, c ∈ t.known
  clauses : ∃ more, t.clauses = s.clauses ++ more ∧
    ∀ c ∈ more, c ≠ [] ∧ c.isTautology = false ∧ c ∉ s.known
  containsEmpty : t.containsEmpty = s.containsEmpty
  clauseLimit : t.clauseLimit = s.clauseLimit

theorem Extends.refl (s : Saturation) : s.Extends s := ⟨fun _ hc => hc, ⟨[], by simp⟩, rfl, rfl⟩

theorem Extends.trans {s t u : Saturation} (hst : s.Extends t) (htu : t.Extends u) :
    s.Extends u := by
  obtain ⟨more, hmore, hnew⟩ := hst.clauses
  obtain ⟨others, hothers, hnew'⟩ := htu.clauses
  refine ⟨fun c hc => htu.known c (hst.known c hc), ⟨more ++ others, ?_, ?_⟩,
    htu.containsEmpty.trans hst.containsEmpty, htu.clauseLimit.trans hst.clauseLimit⟩
  · rw [hothers, hmore, List.append_assoc]
  · refine List.forall_mem_append.mpr ⟨hnew, fun c hc => ?_⟩
    obtain ⟨hne, htaut, hc⟩ := hnew' c hc
    exact ⟨hne, htaut, fun hs => hc (hst.known c hs)⟩

theorem extends_extend {u : Saturation} {listed added : List Clause} {found : Harvest}
    (hpass : Harvest.pass listed added u.harvest = (none, found)) : u.Extends (u.extend found) := by
  refine ⟨Harvest.pass_known_subset hpass, ⟨found.fresh.reverse, rfl, fun c hc => ?_⟩, rfl, rfl⟩
  exact (Harvest.pass_fresh hpass c (List.mem_reverse.mp hc)).resolve_left (by simp [harvest])

theorem extends_close {u : Saturation} {listed added : List Clause} {halt : Option Halt}
    {found : Harvest} (hpass : Harvest.pass listed added u.harvest = (halt, found)) :
    u.Extends (u.close found) :=
  ⟨Harvest.pass_known_subset hpass, ⟨[], by simp [close]⟩, rfl, rfl⟩

theorem saturate_extends {s t : Saturation} {answer : Except Error Verdict}
    (h : s.saturate = (answer, t)) : s.Extends t := by
  rcases saturate_cases h with ⟨_, _, rfl⟩ | ⟨_, _, _, rfl⟩ | ⟨_, _, hpasses⟩
  · exact .refl _
  · exact .refl _
  · obtain ⟨u, listed, added, halt, found, _, hu, hlast, _, _, rfl⟩ :=
      makePasses_last (Q := fun u _ _ => s.Extends u) hpasses rfl (.refl s)
        fun u listed added found _ hu hpass => hu.trans (extends_extend hpass)
    exact hu.trans (extends_close hlast)

end Saturation

end BeliefRevision
