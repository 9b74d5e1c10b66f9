import BeliefRevision.Proofs.Decision

/-!
# Room in a saturation

A saturation that fails does so for want of room. Room has no other part in it: where a pass does not
run out of it, more room changes nothing. And clauses that are taken from satisfiable ones need no more
room than these, since whatever they lead to is reached from the larger list, too.

* `saturate_widen` — a call that answers does the same work under every higher limit
* `Encloses`, `makePasses_fits` — with room for all that its clauses can lead to, a saturation comes to a
  verdict
* `isUnsatisfiable_of_subset` — some of the clauses of a satisfiable list are found satisfiable
-/

namespace BeliefRevision

/-! ## More room -/

namespace Harvest

variable {resolvents listed added : List Clause} {harvest found : Harvest} {halt : Option Halt}

/-- The harvest with room for more clauses. -/
def widen (more : Nat) (harvest : Harvest) : Harvest := { harvest with room := harvest.room + more }

theorem absorb_widen (h : absorb resolvents harvest = (halt, found)) (hhalt : halt ≠ some .full)
    (more : Nat) : absorb resolvents (harvest.widen more) = (halt, found.widen more) := by
  fun_induction absorb resolvents harvest with
  | case1 => cases h; rfl
  | case2 resolvent rest known fresh room hempty =>
    cases h
    rw [absorb.eq_def]
    exact if_pos hempty
  | case3 resolvent rest known fresh room hempty hskip ih =>
    rw [absorb.eq_def]
    exact (if_neg hempty).trans ((if_pos hskip).trans (ih h))
  | case4 => cases h; exact absurd rfl hhalt
  | case5 resolvent rest known fresh hempty hskip room ih =>
    show absorb (resolvent :: rest) ⟨known, fresh, room + 1 + more⟩ = _
    rw [Nat.add_right_comm, absorb, if_neg hempty, if_neg hskip]
    exact ih h

theorem pass_widen (h : pass listed added harvest = (halt, found)) (hhalt : halt ≠ some .full)
    (more : Nat) : pass listed added (harvest.widen more) = (halt, found.widen more) := by
  fun_induction pass listed added harvest with
  | case1 => cases h; rfl
  | case2 listed clause added harvest between hround ih =>
    rw [pass, absorb_widen hround (by simp)]
    exact ih h
  | case3 listed clause added harvest stop between hround =>
    cases h
    rw [pass, absorb_widen hround hhalt]

end Harvest

namespace Saturation

/-- The saturation under a higher limit. -/
def widen (more : Nat) (s : Saturation) : Saturation :=
  { s with clauseLimit := s.clauseLimit + more }

theorem harvest_widen {s : Saturation} (hroom : s.clauses.length ≤ s.clauseLimit) (more : Nat) :
    (s.widen more).harvest = s.harvest.widen more := by
  show (⟨s.known, [], s.clauseLimit + more - s.clauses.length⟩ : Harvest) =
    ⟨s.known, [], s.clauseLimit - s.clauses.length + more⟩
  rw [Nat.sub_add_comm hroom]

/-- A pass that does not run out of room is the same under a higher limit. -/
theorem pass_harvest_widen {s : Saturation} {listed added : List Clause} {halt : Option Halt}
    {found : Harvest} (h : Harvest.pass listed added s.harvest = (halt, found))
    (hhalt : halt ≠ some .full) (hroom : s.clauses.length ≤ s.clauseLimit) (more : Nat) :
    Harvest.pass listed added (s.widen more).harvest = (halt, found.widen more) := by
  rw [harvest_widen hroom]
  exact Harvest.pass_widen h hhalt more

theorem makePasses_widen {s t : Saturation} {listed added : List Clause} {verdict : Verdict}
    (h : s.makePasses listed added = (.ok verdict, t)) (hclauses : s.clauses = listed ++ added)
    (hroom : s.clauses.length ≤ s.clauseLimit) (more : Nat) :
    (s.widen more).makePasses listed added = (.ok verdict, t.widen more) := by
  fun_induction makePasses s listed added with
  | case1 s listed added found hlast =>
    cases h
    rw [← hclauses] at hlast
    have hwide := pass_harvest_widen hlast (by simp) hroom more
    exact makePasses_of_halt (s := s.widen more) hclauses hwide (by simp)
  | case2 => cases h
  | case3 s listed added known room hlast =>
    cases h
    rw [← hclauses] at hlast
    have hwide := pass_harvest_widen hlast (by simp) hroom more
    exact makePasses_of_halt (s := s.widen more) hclauses hwide fun _ => rfl
  | case4 s listed added known last others room hfirst fresh ih =>
    rw [← hclauses] at hfirst
    have hwide := pass_harvest_widen hfirst (by simp) hroom more
    have hroom' := length_extend_le hroom hfirst
    rw [makePasses_of_fresh (s := s.widen more) hclauses hwide (by simp [Harvest.widen])]
    rw [extend, hclauses] at hroom'
    have hnext := ih h rfl hroom'
    show ((s.extend ⟨known, last :: others, room⟩).widen more).makePasses s.clauses fresh = _
    rw [extend, hclauses]
    exact hnext

/-- **A call that answers gives the same answer under a higher limit**, after the same work. -/
theorem saturate_widen {s t : Saturation} {verdict : Verdict}
    (h : s.saturate = (.ok verdict, t)) (more : Nat) :
    (s.widen more).saturate = (.ok verdict, t.widen more) := by
  unfold saturate
  rcases saturate_cases h with ⟨hempty, hanswer, rfl⟩ | ⟨_, _, hanswer, _⟩ | ⟨hnone, hroom, hpasses⟩
  · rw [if_pos (show (t.widen more).containsEmpty = true from hempty), hanswer]
  · cases hanswer
  · have hempty : ¬ (s.widen more).containsEmpty = true := by
      rw [Bool.not_eq_true]
      exact hnone
    have hlimit : ¬ (s.widen more).clauseLimit < (s.widen more).clauses.length :=
      Nat.not_lt.mpr (Nat.le_add_right_of_le hroom)
    rw [if_neg hempty, if_neg hlimit]
    exact makePasses_widen hpasses rfl hroom more

end Saturation

/-! ## Fewer clauses -/

instance (known : ClauseSet) : Std.Symm (Resolved known) where
  symm left right h := by
    rw [Resolved, Clause.resolvents_comm]
    exact h

/-- The resolvents of members of the set are members again, but for tautologies and the empty clause, which
takes no room. -/
def Encloses (bound : ClauseSet) : Prop :=
  ∀ a ∈ bound, ∀ b ∈ bound, ∀ r ∈ a.resolvents b, r = [] ∨ r.isTautology = true ∨ r ∈ bound

namespace Harvest

variable {bound : ClauseSet} {resolvents listed added : List Clause} {harvest : Harvest}

/-- Nothing is known but members of a set, and there is room for all the others. -/
structure FitsIn (bound : ClauseSet) (harvest : Harvest) : Prop where
  known : ∀ c ∈ harvest.known, c ∈ bound
  room : bound.size ≤ harvest.known.size + harvest.room

/-- The set has room for one more of its members. -/
theorem FitsIn.insert {known : ClauseSet} {fresh : List Clause} {room : Nat} {c : Clause}
    (h : FitsIn bound ⟨known, fresh, room⟩) (hc : c ∈ bound) (hnew : c ∉ known) :
    ∃ rest, room = rest + 1 ∧ FitsIn bound ⟨known.insert c, c :: fresh, rest⟩ := by
  have hknown : ∀ d ∈ known.insert c, d ∈ bound := by
    intro d hd
    rcases ClauseSet.mem_insert.mp hd with rfl | hd
    · exact hc
    · exact h.known d hd
  have hsize : (known.insert c).size = known.size + 1 := by
    rw [Std.ExtTreeSet.size_insert, if_neg (by rwa [Std.ExtTreeSet.contains_iff_mem])]
  have hbound : (known.insert c).size ≤ bound.size := by
    rw [← Std.ExtTreeSet.length_toList (t := bound)]
    exact ClauseSet.size_le_length fun d hd => ClauseSet.mem_toList.mpr (hknown d hd)
  have hroom : bound.size ≤ known.size + room := h.room
  refine ⟨room - 1, by omega, hknown, ?_⟩
  show bound.size ≤ (known.insert c).size + (room - 1)
  omega

/-- Resolvents that belong to the set find room. -/
theorem absorb_fits {halt : Option Halt} {found : Harvest} (h : harvest.FitsIn bound)
    (hresolvents : ∀ r ∈ resolvents, r = [] ∨ r.isTautology = true ∨ r ∈ bound)
    (hrun : absorb resolvents harvest = (halt, found)) : halt ≠ some .full ∧ found.FitsIn bound := by
  have hnext {resolvent : Clause} {known : ClauseSet} {fresh : List Clause} {room : Nat}
      (h : FitsIn bound ⟨known, fresh, room⟩) (hempty : ¬ resolvent.isEmpty = true)
      (hskip : ¬ (resolvent.isTautology || known.contains resolvent) = true)
      (hr : resolvent = [] ∨ resolvent.isTautology = true ∨ resolvent ∈ bound) :
      ∃ rest, room = rest + 1 ∧
        FitsIn bound ⟨known.insert resolvent, resolvent :: fresh, rest⟩ := by
    rw [List.isEmpty_iff] at hempty
    rw [Bool.or_eq_true, not_or, Std.ExtTreeSet.contains_iff_mem] at hskip
    exact h.insert ((hr.resolve_left hempty).resolve_left hskip.1) hskip.2
  fun_induction absorb resolvents harvest with
  | case1 | case2 => cases hrun; exact ⟨by simp, h⟩
  | case3 resolvent rest known fresh room hempty hskip ih =>
    exact ih h (List.forall_mem_cons.mp hresolvents).2 hrun
  | case4 resolvent rest known fresh hempty hskip =>
    obtain ⟨_, hroom, _⟩ := hnext h hempty hskip (List.forall_mem_cons.mp hresolvents).1
    cases hroom
  | case5 resolvent rest known fresh hempty hskip room ih =>
    obtain ⟨hr, hrest⟩ := List.forall_mem_cons.mp hresolvents
    obtain ⟨_, hroom, hfits⟩ := hnext h hempty hskip hr
    cases hroom
    exact ih hfits hrest hrun

theorem pass_fits {halt : Option Halt} {found : Harvest} (h : harvest.FitsIn bound)
    (hbound : Encloses bound) (hlisted : ∀ c ∈ listed, c ∈ bound) (hadded : ∀ c ∈ added, c ∈ bound)
    (hrun : pass listed added harvest = (halt, found)) : halt ≠ some .full ∧ found.FitsIn bound := by
  have hresolvents {listed : List Clause} {clause : Clause} (hlisted : ∀ c ∈ listed, c ∈ bound)
      (hclause : clause ∈ bound) : ∀ r ∈ listed.flatMap (Clause.resolvents · clause),
        r = [] ∨ r.isTautology = true ∨ r ∈ bound := by
    intro r hr
    obtain ⟨c, hc, hr⟩ := List.mem_flatMap.mp hr
    exact hbound c (hlisted c hc) clause hclause r hr
  fun_induction pass listed added harvest with
  | case1 => cases hrun; exact ⟨by simp, h⟩
  | case2 listed clause added harvest between hround ih =>
    obtain ⟨hclause, hadded⟩ := List.forall_mem_cons.mp hadded
    have hbetween := (absorb_fits h (hresolvents hlisted hclause) hround).2
    exact ih hbetween (forall_mem_listed hlisted hclause) hadded hrun
  | case3 listed clause added harvest stop between hround =>
    cases hrun
    exact absorb_fits h (hresolvents hlisted (hadded clause List.mem_cons_self)) hround

end Harvest

namespace Saturation

theorem length_le_of_saturated {s t : Saturation} (h : s.saturate = (.ok .satisfiable, t)) :
    t.clauses.length ≤ t.clauseLimit := by
  rcases saturate_cases h with ⟨_, hanswer, _⟩ | ⟨_, _, hanswer, _⟩ | ⟨_, hroom, hpasses⟩
  · cases hanswer
  · cases hanswer
  · obtain ⟨u, listed, added, halt, found, _, hu, _, _, _, rfl⟩ :=
      makePasses_last (Q := fun u _ _ => u.clauses.length ≤ u.clauseLimit) hpasses rfl hroom
        fun u listed added found _ hu hpass => length_extend_le hu hpass
    exact hu

/-- At a satisfiable answer the resolvents of all listed clauses are known. -/
theorem resolved_of_saturated {s t : Saturation} (h : s.saturate = (.ok .satisfiable, t))
    (ht : t.Settled) : ∀ a ∈ t.known, ∀ b ∈ t.known, Resolved t.known a b := by
  have hself : ∀ c ∈ t.clauses, Resolved t.known c c := by
    intro c _ r hr
    rw [Clause.resolvents_self] at hr
    cases hr
  intro a ha b hb
  exact (saturate_pairwise h).forall_of_forall hself ((ht a).mp ha) ((ht b).mp hb)

theorem fitsIn_extend {u : Saturation} {bound : ClauseSet} {listed added : List Clause}
    {found : Harvest} (hpass : Harvest.pass listed added u.harvest = (none, found))
    (hfound : found.FitsIn bound) : (u.extend found).harvest.FitsIn bound := by
  have hroom := Harvest.pass_room listed added u.harvest
  rw [hpass] at hroom
  simp only [harvest, List.length_nil] at hroom
  refine ⟨hfound.known, ?_⟩
  have hbound := hfound.room
  simp only [harvest, extend, List.length_append, List.length_reverse]
  omega

/-- A saturation whose clauses belong to an enclosing set, with room for all of it, comes to a verdict. Where
they are refuted, two members of the set have an empty resolvent. -/
theorem makePasses_fits {s t : Saturation} {bound : ClauseSet} {answer : Except Error Verdict}
    (h : s.harvest.FitsIn bound) (hclauses : ∀ c ∈ s.clauses, c ∈ bound) (hbound : Encloses bound)
    (hrun : s.makePasses [] s.clauses = (answer, t)) :
    answer = .ok .satisfiable ∨
      answer = .ok .unsatisfiable ∧ ∃ a ∈ bound, ∃ b ∈ bound, [] ∈ a.resolvents b := by
  have hpass {u : Saturation} {listed added : List Clause} {halt : Option Halt} {found : Harvest}
      (husplit : u.clauses = listed ++ added) (hu : u.harvest.FitsIn bound)
      (huclauses : ∀ c ∈ u.clauses, c ∈ bound)
      (hrun : Harvest.pass listed added u.harvest = (halt, found)) :
      halt ≠ some .full ∧ found.FitsIn bound := by
    obtain ⟨hlisted, hadded⟩ := List.forall_mem_append.mp (husplit ▸ huclauses)
    exact Harvest.pass_fits hu hbound hlisted hadded hrun
  have hnext : ∀ (u : Saturation) listed added found, u.clauses = listed ++ added →
      (u.harvest.FitsIn bound ∧ ∀ c ∈ u.clauses, c ∈ bound) →
      Harvest.pass listed added u.harvest = (none, found) →
      (u.extend found).harvest.FitsIn bound ∧ ∀ c ∈ (u.extend found).clauses, c ∈ bound := by
    rintro u listed added found husplit ⟨hu, huclauses⟩ hrun
    obtain ⟨_, hfound⟩ := hpass husplit hu huclauses hrun
    refine ⟨fitsIn_extend hrun hfound, List.forall_mem_append.mpr ⟨huclauses, fun c hc => ?_⟩⟩
    have hknown := Harvest.pass_accounted hrun u.accounted_harvest c
    exact hfound.known c (hknown.mpr (.inr (List.mem_reverse.mp hc)))
  obtain ⟨u, listed, added, halt, found, husplit, ⟨hu, huclauses⟩, hlast, _, rfl, _⟩ :=
    makePasses_last (Q := fun u _ _ => u.harvest.FitsIn bound ∧ ∀ c ∈ u.clauses, c ∈ bound)
      hrun rfl ⟨h, hclauses⟩ hnext
  obtain ⟨hroom, _⟩ := hpass husplit hu huclauses hlast
  match halt with
  | none => exact .inl rfl
  | some .full => exact absurd rfl hroom
  | some .refuted =>
    obtain ⟨a, ha, b, hb, hempty⟩ := Harvest.pass_refuted hlast
    rw [← husplit] at ha hb
    exact .inr ⟨rfl, a, huclauses a ha, b, huclauses b hb, hempty⟩

/-- Each clause that is kept at the start is new. -/
theorem collect_size (keep : Clause → Bool) (known : ClauseSet) (found given : List Clause)
    (h : known.size = found.length) :
    (collect keep known found given).2.size = (collect keep known found given).1.length := by
  fun_induction collect keep known found given with
  | case1 known found => rw [h, List.length_reverse]
  | case2 known found clause rest hnew ih =>
    rw [Bool.and_eq_true, Bool.not_eq_true'] at hnew
    refine ih ?_
    rw [Std.ExtTreeSet.size_insert, hnew.2, List.length_cons, h]
    rfl
  | case3 known found clause rest hold ih => exact ih h

/-- Some of the clauses of a saturated list fit into what was reached with all of them. -/
theorem fitsIn_start {limit : Nat} {eliminate : Bool} {given fewer : List Clause} {t : Saturation}
    (h : (start limit eliminate given).saturate = (.ok .satisfiable, t))
    (hfewer : ∀ c ∈ fewer, c ∈ given) :
    (∀ c ∈ (start limit eliminate fewer).clauses, c ∈ t.known) ∧
      (start limit eliminate fewer).clauses.length ≤ limit ∧
      (start limit eliminate fewer).harvest.FitsIn t.known := by
  have ht : t.Settled := saturate_settled h (start_settled limit eliminate given)
  have hextends := saturate_extends h
  have hclauses : ∀ c ∈ (start limit eliminate fewer).clauses, c ∈ t.known := by
    intro c hc
    obtain ⟨hc, hkept⟩ := (mem_start_clauses limit eliminate fewer).mp hc
    have hgiven := (mem_start_clauses limit eliminate given).mpr ⟨hfewer c hc, hkept⟩
    exact hextends.known c ((start_settled limit eliminate given c).mpr hgiven)
  have hknown : ∀ c ∈ (start limit eliminate fewer).known, c ∈ t.known := fun c hc =>
    hclauses c ((start_settled limit eliminate fewer c).mp hc)
  have hsize : (start limit eliminate fewer).known.size =
      (start limit eliminate fewer).clauses.length := collect_size _ _ _ _ rfl
  have hlimit : t.known.size ≤ limit := by
    have hlength := length_le_of_saturated h
    rw [hextends.clauseLimit] at hlength
    exact Nat.le_trans (ClauseSet.size_le_length fun c hc => (ht c).mp hc) hlength
  have hfits : (start limit eliminate fewer).known.size ≤ t.known.size := by
    rw [← Std.ExtTreeSet.length_toList (t := t.known)]
    exact ClauseSet.size_le_length fun c hc => ClauseSet.mem_toList.mpr (hknown c hc)
  refine ⟨hclauses, by omega, hknown, ?_⟩
  show t.known.size ≤ (start limit eliminate fewer).known.size +
    (limit - (start limit eliminate fewer).clauses.length)
  omega

/-- **Some of the clauses of a list that is found satisfiable are found satisfiable**, under the same
limit. -/
theorem saturate_start_of_subset {limit : Nat} {eliminate : Bool} {given fewer : List Clause}
    (h : (start limit eliminate given).saturate.1 = .ok .satisfiable)
    (hfewer : ∀ c ∈ fewer, c ∈ given) :
    (start limit eliminate fewer).saturate.1 = .ok .satisfiable := by
  obtain ⟨t, hrun⟩ : ∃ t, (start limit eliminate given).saturate = (.ok .satisfiable, t) :=
    ⟨_, Prod.ext h rfl⟩
  obtain ⟨hclauses, hlimit, hfits⟩ := fitsIn_start hrun hfewer
  have hclosed := resolved_of_saturated hrun
    (saturate_settled hrun (start_settled limit eliminate given))
  have hempty : ¬ (start limit eliminate fewer).containsEmpty = true := by
    intro hempty
    obtain ⟨c, hc, hnil⟩ := List.any_eq_true.mp hempty
    have hgiven : (start limit eliminate given).containsEmpty = true :=
      List.any_eq_true.mpr ⟨c, hfewer c hc, hnil⟩
    rw [saturate, if_pos hgiven] at hrun
    cases hrun
  have hnot : ¬ (start limit eliminate fewer).clauseLimit < (start limit eliminate fewer).clauses.length :=
    Nat.not_lt.mpr hlimit
  rw [saturate, if_neg hempty, if_neg hnot]
  have hbound : Encloses t.known := fun a ha b hb r hr => .inr (hclosed a ha b hb r hr).2
  obtain hanswer | ⟨_, a, ha, b, hb, hrefuted⟩ := makePasses_fits hfits hclauses hbound rfl
  · exact hanswer
  · exact absurd rfl (hclosed a ha b hb [] hrefuted).1

end Saturation

theorem isUnsatisfiable_eq_false_iff {limit : Nat} {eliminate : Bool} {given : List Clause} :
    isUnsatisfiable limit eliminate given = .ok false ↔
      (Saturation.start limit eliminate given).saturate.1 = .ok .satisfiable := by
  rw [isUnsatisfiable_eq]
  rcases (Saturation.start limit eliminate given).saturate.1 with error | _ | _ <;> simp [Except.map]

theorem isUnsatisfiable_of_subset {limit : Nat} {eliminate : Bool} {given fewer : List Clause}
    (h : isUnsatisfiable limit eliminate given = .ok false) (hfewer : ∀ c ∈ fewer, c ∈ given) :
    isUnsatisfiable limit eliminate fewer = .ok false := by
  rw [isUnsatisfiable_eq_false_iff] at h ⊢
  exact Saturation.saturate_start_of_subset h hfewer

end BeliefRevision
