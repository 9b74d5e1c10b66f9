import Mathlib.Order.Bounds.Basic
import BeliefRevision.Proofs.Room

/-!
# Saturation reaches the closure under resolution

A pass resolves the clauses of the pass before with the earlier ones, and no others. Nothing is lost by
that: when a first call ends with the answer that the clauses are satisfiable, the resolvents of any two
listed clauses are listed too, but for tautologies. Nothing else is listed: whatever set contains the
given clauses and is closed in this sense contains all that any call comes to list.

* `start_clauses` — the list at the start, by the filter and the first occurrences of a list
* `saturate_stays` — no call leaves a closed set
* `closed_of_settled` — at a satisfiable answer the listed clauses are such a set
* `saturate_reaches_closure` — both together, for the first call
-/

namespace BeliefRevision

/-! ## The list at the start -/

namespace Saturation

theorem collect_clauses (keep : Clause → Bool) (known : ClauseSet) (found given : List Clause)
    (h : ∀ c, c ∈ known ↔ c ∈ found) :
    (collect keep known found given).1 =
      found.reverse ++ ((given.filter keep).filter fun c => c ∉ found).eraseDups := by
  fun_induction collect keep known found given with
  | case1 => simp
  | case2 known found clause rest hnew ih =>
    obtain ⟨hkeep, hnew⟩ := (collected_iff h).mp hnew
    -- the later occurrences are dropped by either of the two filters
    have hsame (clauses : List Clause) : (clauses.filter fun c => c ∉ clause :: found) =
        (clauses.filter fun c => c ∉ found).filter fun c => !c == clause := by
      rw [List.filter_filter]
      refine List.filter_congr fun c _ => ?_
      simp [beq_eq_decide]
    rw [ih (mem_insert_iff_mem_cons h clause), hsame, List.reverse_cons, List.append_assoc,
      List.filter_cons_of_pos hkeep, List.filter_cons_of_pos (by simpa using hnew),
      List.eraseDups_cons]
    rfl
  | case3 known found clause rest hold ih =>
    rw [collected_iff h, not_and, Classical.not_not] at hold
    rw [ih h]
    by_cases hkeep : keep clause = true
    · have hmem : clause ∈ found := hold hkeep
      rw [List.filter_cons_of_pos hkeep, List.filter_cons_of_neg (by simpa using hmem)]
    · rw [List.filter_cons_of_neg hkeep]

/-- The list begins with the first occurrences of the clauses that are kept, in their order. -/
theorem start_clauses (limit : Nat) (eliminate : Bool) (given : List Clause) :
    (start limit eliminate given).clauses =
      (given.filter fun c => !(eliminate && c.isTautology)).eraseDups := by
  have h := collect_clauses (fun c => !(eliminate && c.isTautology)) ∅ [] given (by simp)
  rw [start, h]
  simp

end Saturation

/-! ## Closed sets -/

/-- With any two clauses the set contains their resolvents, but for tautologies. -/
def ResolutionClosed (S : Set Clause) : Prop :=
  ∀ c ∈ S, ∀ d ∈ S, ∀ pivot ∈ c.pivots d,
    (c.resolve d pivot).isTautology = false → c.resolve d pivot ∈ S

namespace Harvest

variable {S : Set Clause} {resolvents listed added : List Clause} {harvest found : Harvest}
  {halt : Option Halt}

/-- What a round finds is among the resolvents. -/
theorem absorb_finds (h : absorb resolvents harvest = (halt, found)) :
    ∀ c ∈ found.fresh, c ∈ harvest.fresh ∨ c ∈ resolvents ∧ c.isTautology = false := by
  have horigin := (absorb_all
    (P := fun c => c ∈ harvest.known ∨ c ∈ harvest.fresh ∨ c ∈ resolvents) h
    (fun r hr => .inr (.inr hr)) (fun c hc => .inl hc) (fun c hc => .inr (.inl hc))).2
  intro c hc
  rcases absorb_fresh h c hc with hold | ⟨_, htaut, hnew⟩
  · exact .inl hold
  · rcases horigin c hc with hknown | hold | hr
    · exact absurd hknown hnew
    · exact .inl hold
    · exact .inr ⟨hr, htaut⟩

theorem absorb_stays (hS : ResolutionClosed S) {clause : Clause}
    (h : absorb (listed.flatMap (Clause.resolvents · clause)) harvest = (halt, found))
    (hlisted : ∀ c ∈ listed, c ∈ S) (hclause : clause ∈ S) (hfresh : ∀ c ∈ harvest.fresh, c ∈ S) :
    ∀ c ∈ found.fresh, c ∈ S := by
  intro r hr
  rcases absorb_finds h r hr with hold | ⟨hmem, htaut⟩
  · exact hfresh r hold
  · obtain ⟨c, hc, hmem⟩ := List.mem_flatMap.mp hmem
    obtain ⟨pivot, hpivot, rfl⟩ := List.mem_map.mp hmem
    exact hS c (hlisted c hc) clause hclause pivot hpivot htaut

theorem pass_stays (hS : ResolutionClosed S) (h : pass listed added harvest = (halt, found))
    (hlisted : ∀ c ∈ listed, c ∈ S) (hadded : ∀ c ∈ added, c ∈ S)
    (hfresh : ∀ c ∈ harvest.fresh, c ∈ S) : ∀ c ∈ found.fresh, c ∈ S := by
  fun_induction pass listed added harvest with
  | case1 => cases h; exact hfresh
  | case2 listed clause added harvest between hround ih =>
    obtain ⟨hclause, hadded⟩ := List.forall_mem_cons.mp hadded
    have hbetween := absorb_stays hS hround hlisted hclause hfresh
    exact ih h (forall_mem_listed hlisted hclause) hadded hbetween
  | case3 listed clause added harvest stop between hround =>
    cases h
    exact absorb_stays hS hround hlisted (hadded clause List.mem_cons_self) hfresh

end Harvest

namespace Saturation

variable {S : Set Clause} {s t : Saturation}

/-- **A call lists nothing that is not in every closed set around the clauses that it starts with**,
whatever it answers. -/
theorem saturate_stays {answer : Except Error Verdict} (hS : ResolutionClosed S)
    (h : s.saturate = (answer, t)) (hs : ∀ c ∈ s.clauses, c ∈ S) : ∀ c ∈ t.clauses, c ∈ S := by
  rcases saturate_cases h with ⟨_, _, rfl⟩ | ⟨_, _, _, rfl⟩ | ⟨_, _, hpasses⟩
  · exact hs
  · exact hs
  · have hpass : ∀ (u : Saturation) listed added found, u.clauses = listed ++ added →
        (∀ c ∈ u.clauses, c ∈ S) → Harvest.pass listed added u.harvest = (none, found) →
        ∀ c ∈ (u.extend found).clauses, c ∈ S := by
      intro u listed added found hclauses hu hpass
      obtain ⟨hlisted, hadded⟩ := List.forall_mem_append.mp (hclauses ▸ hu)
      have hfresh := Harvest.pass_stays hS hpass hlisted hadded (by simp [harvest])
      exact List.forall_mem_append.mpr ⟨hu, fun c hc => hfresh c (List.mem_reverse.mp hc)⟩
    obtain ⟨u, listed, added, halt, found, _, hu, _, _, _, rfl⟩ :=
      makePasses_last (Q := fun u _ _ => ∀ c ∈ u.clauses, c ∈ S) hpasses rfl hs hpass
    exact hu

/-- **At a satisfiable answer the listed clauses are closed**, if nothing is known beyond them. -/
theorem closed_of_settled (h : s.saturate = (.ok .satisfiable, t)) (ht : t.Settled) :
    ResolutionClosed {c | c ∈ t.clauses} := by
  intro c hc d hd pivot hpivot htaut
  have hresolved := resolved_of_saturated h ht c ((ht c).mpr hc) d ((ht d).mpr hd)
  obtain ⟨_, htaut' | hknown⟩ := hresolved (c.resolve d pivot) (List.mem_map_of_mem hpivot)
  · rw [htaut] at htaut'
    cases htaut'
  · exact (ht _).mp hknown

/-- **A first call that finds the clauses satisfiable has reached their closure under resolution.** What
is listed begins with the clauses that are kept from the given ones, each where it first occurs, and it is
the least set that contains these and is closed. -/
theorem saturate_reaches_closure {limit : Nat} {eliminate : Bool} {given : List Clause}
    (h : (start limit eliminate given).saturate.1 = .ok .satisfiable) :
    let kept := (given.filter fun c => !(eliminate && c.isTautology)).eraseDups
    let listed := (start limit eliminate given).saturate.2.clauses
    kept <+: listed ∧
      IsLeast {S : Set Clause | (∀ c ∈ kept, c ∈ S) ∧ ResolutionClosed S} {c | c ∈ listed} := by
  intro kept listed
  obtain ⟨t, hrun⟩ : ∃ t, (start limit eliminate given).saturate = (.ok .satisfiable, t) :=
    ⟨_, Prod.ext h rfl⟩
  have hlisted : listed = t.clauses := by
    show (start limit eliminate given).saturate.2.clauses = t.clauses
    rw [hrun]
  have hkept : (start limit eliminate given).clauses = kept := start_clauses limit eliminate given
  obtain ⟨more, hmore, _⟩ := (saturate_extends hrun).clauses
  have hbegins : kept <+: listed := ⟨more, by rw [hlisted, hmore, hkept]⟩
  refine ⟨hbegins, ⟨fun c hc => hbegins.mem hc, ?_⟩, ?_⟩
  · rw [hlisted]
    exact closed_of_settled hrun (saturate_settled hrun (start_settled limit eliminate given))
  · rintro S ⟨hgiven, hS⟩ c hc
    rw [← hkept] at hgiven
    exact saturate_stays hS hrun hgiven c (hlisted ▸ hc)

/-- `p ∨ ¬p`, `p`, `¬p ∨ q`, `p` again and `¬q ∨ r`: the tautology and the repetition are left out, and
`q`, `¬p ∨ r` and `r` are derived. -/
theorem saturate_reaches_closure_of_implications :
    let given : List Clause := [[⟨0, false⟩, ⟨0, true⟩], [⟨0, true⟩], [⟨0, false⟩, ⟨1, true⟩],
      [⟨0, true⟩], [⟨1, false⟩, ⟨2, true⟩]]
    let kept : List Clause := [[⟨0, true⟩], [⟨0, false⟩, ⟨1, true⟩], [⟨1, false⟩, ⟨2, true⟩]]
    let listed : List Clause := kept ++ [[⟨1, true⟩], [⟨0, false⟩, ⟨2, true⟩], [⟨2, true⟩]]
    (start 6 true given).saturate.1 = .ok .satisfiable ∧
      (start 6 true given).saturate.2.clauses = listed ∧
      IsLeast {S : Set Clause | (∀ c ∈ kept, c ∈ S) ∧ ResolutionClosed S} {c | c ∈ listed} := by
  intro given kept listed
  have hanswer : (start 6 true given).saturate.1 = .ok .satisfiable := by decide +kernel
  have hkept : (given.filter fun c => !(true && c.isTautology)).eraseDups = kept := by
    decide +kernel
  have hlisted : (start 6 true given).saturate.2.clauses = listed := by decide +kernel
  have hleast := (saturate_reaches_closure hanswer).2
  rw [hkept, hlisted] at hleast
  exact ⟨hanswer, hlisted, hleast⟩

end Saturation

end BeliefRevision
