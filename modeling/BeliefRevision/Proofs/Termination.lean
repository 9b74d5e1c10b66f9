import Mathlib.Data.Finset.Sort
import BeliefRevision.Proofs.Repetition
import BeliefRevision.Proofs.Room

/-!
# A bound on the work of a saturation

A resolvent can be longer than both its clauses, so nothing gets smaller while clauses are resolved. What
ends the work is that there are only so many clauses to find: over `m` atoms there are `3 ^ m` canonical
clauses that are no tautologies, since each atom is left out, negated or not, and the empty one of them is
never listed. Every pass but the last lists a new one. No limit on the clauses has a part in this.

* `clausesOver`, `mem_clausesOver` — the clauses over some atoms
* `Clause.DrawnFrom`, `saturate_drawn` — what comes to be known is drawn from the given clauses
* `makePasses_passes` — every pass but the last lists a clause
* `saturate_within_bound` — the passes and the clauses of one call
* `saturate_decides`, `isUnsatisfiable_total` — with room for all clauses over the atoms, a call comes to a
  verdict
-/

namespace BeliefRevision

/-! ## Clauses over some atoms -/

/-- The atoms of some clauses. -/
def atomsOf (clauses : List Clause) : Finset Nat := (clauses.flatten.map Literal.atom).toFinset

theorem mem_atomsOf {atom : Nat} {clauses : List Clause} :
    atom ∈ atomsOf clauses ↔ ∃ c ∈ clauses, ∃ l ∈ c, l.atom = atom := by
  simp only [atomsOf, List.mem_toFinset, List.mem_map, List.mem_flatten]
  grind

/-- The clauses over some atoms: each atom is left out, negated or not. -/
def clausesOver : List Nat → List Clause
  | [] => [[]]
  | atom :: atoms =>
    clausesOver atoms ++ ((clausesOver atoms).map (⟨atom, false⟩ :: ·) ++
      (clausesOver atoms).map (⟨atom, true⟩ :: ·))

theorem length_clausesOver (atoms : List Nat) : (clausesOver atoms).length = 3 ^ atoms.length := by
  induction atoms with
  | nil => rfl
  | cons atom atoms ih =>
    rw [clausesOver, List.length_append, List.length_append, List.length_map, List.length_map, ih,
      List.length_cons, Nat.pow_succ]
    omega

theorem mem_clausesOver_cons {c : Clause} {atom : Nat} {atoms : List Nat} :
    c ∈ clausesOver (atom :: atoms) ↔
      c ∈ clausesOver atoms ∨ ∃ l rest, c = l :: rest ∧ l.atom = atom ∧ rest ∈ clausesOver atoms := by
  rw [clausesOver, List.mem_append, List.mem_append, List.mem_map, List.mem_map]
  refine or_congr_right ⟨?_, ?_⟩
  · rintro (⟨rest, hrest, rfl⟩ | ⟨rest, hrest, rfl⟩)
    · exact ⟨_, rest, rfl, rfl, hrest⟩
    · exact ⟨_, rest, rfl, rfl, hrest⟩
  · rintro ⟨⟨_, polarity⟩, rest, rfl, rfl, hrest⟩
    cases polarity with
    | false => exact .inl ⟨rest, hrest, rfl⟩
    | true => exact .inr ⟨rest, hrest, rfl⟩

/-- **The clauses over ascending atoms are those whose own atoms ascend.** -/
theorem mem_clausesOver {atoms : List Nat} (hatoms : atoms.Pairwise (· < ·)) {c : Clause} :
    c ∈ clausesOver atoms ↔ c.Pairwise (·.atom < ·.atom) ∧ ∀ l ∈ c, l.atom ∈ atoms := by
  induction atoms generalizing c with
  | nil =>
    rw [clausesOver, List.mem_singleton]
    constructor
    · rintro rfl
      exact ⟨.nil, by simp⟩
    · rintro ⟨_, hnone⟩
      exact List.eq_nil_iff_forall_not_mem.mpr fun l hl => List.not_mem_nil (hnone l hl)
  | cons atom atoms ih =>
    obtain ⟨hatom, hascend⟩ := List.pairwise_cons.mp hatoms
    rw [mem_clausesOver_cons, ih hascend]
    constructor
    · rintro (⟨hc, hmem⟩ | ⟨l, rest, rfl, rfl, hrest⟩)
      · exact ⟨hc, fun l hl => List.mem_cons_of_mem _ (hmem l hl)⟩
      · obtain ⟨hrest, hmem⟩ := (ih hascend).mp hrest
        refine ⟨List.pairwise_cons.mpr ⟨fun k hk => hatom _ (hmem k hk), hrest⟩, ?_⟩
        exact List.forall_mem_cons.mpr
          ⟨List.mem_cons_self, fun k hk => List.mem_cons_of_mem _ (hmem k hk)⟩
    · rintro ⟨hc, hmem⟩
      match c with
      | [] => exact .inl ⟨.nil, by simp⟩
      | l :: rest =>
        obtain ⟨hl, hrest⟩ := List.pairwise_cons.mp hc
        obtain ⟨hlmem, hmem⟩ := List.forall_mem_cons.mp hmem
        -- the atoms behind `l` are larger than that of `l`, so none of them is `atom`
        rcases List.mem_cons.mp hlmem with rfl | hlmem
        · refine .inr ⟨l, rest, rfl, rfl, (ih hascend).mpr ⟨hrest, fun k hk => ?_⟩⟩
          exact (List.mem_cons.mp (hmem k hk)).resolve_left (Nat.ne_of_gt (hl k hk))
        · refine .inl ⟨hc, List.forall_mem_cons.mpr ⟨hlmem, fun k hk => ?_⟩⟩
          have hlt := Nat.lt_trans (hatom _ hlmem) (hl k hk)
          exact (List.mem_cons.mp (hmem k hk)).resolve_left (Nat.ne_of_gt hlt)

/-! ## What can be found -/

/-- Canonical, not empty, without a literal and its negation, and made of literals that occur in the given
clauses. -/
structure Clause.DrawnFrom (given : List Clause) (clause : Clause) : Prop where
  canonical : clause.Canonical
  ne_nil : clause ≠ []
  not_clashes : ¬ clause.Clashes
  occurs : ∀ l ∈ clause, ∃ g ∈ given, l ∈ g

/-- Over these literals there are as many clauses as the atoms allow, the empty one not counted. -/
theorem length_lt_of_drawn {given clauses : List Clause} (hnodup : clauses.Nodup)
    (hdrawn : ∀ c ∈ clauses, c.DrawnFrom given) : clauses.length < 3 ^ (atomsOf given).card := by
  have hatoms := (atomsOf given).sortedLT_sort.pairwise
  have hempty : [] ∉ clauses := fun h => (hdrawn [] h).ne_nil rfl
  have hover : ([] :: clauses) ⊆ clausesOver ((atomsOf given).sort (· ≤ ·)) := by
    refine List.cons_subset.mpr ⟨(mem_clausesOver hatoms).mpr ⟨.nil, by simp⟩, fun (c : Clause) hc => ?_⟩
    have hc := hdrawn c hc
    have htaut := (Clause.not_clashes_iff hc.canonical).mp hc.not_clashes
    refine (mem_clausesOver hatoms).mpr ⟨hc.canonical.pairwise_atom htaut, fun l hl => ?_⟩
    obtain ⟨g, hg, hlg⟩ := hc.occurs l hl
    exact (Finset.mem_sort _).mpr (mem_atomsOf.mpr ⟨g, hg, l, hlg, rfl⟩)
  have hlength := (List.subperm_of_subset (List.nodup_cons.mpr ⟨hempty, hnodup⟩) hover).length_le
  rwa [length_clausesOver, Finset.length_sort] at hlength

/-- Resolvents have no literals but those of their clauses. -/
theorem literals_invariant (P : Literal → Prop) : ResolutionInvariant fun c => ∀ l ∈ c, P l := by
  intro left right hleft hright r hr l hl
  obtain ⟨pivot, _, rfl⟩ := List.mem_map.mp hr
  rcases Clause.mem_resolve.mp hl with ⟨hl, _⟩ | ⟨hl, _⟩
  · exact hleft l hl
  · exact hright l hl

namespace Harvest

variable {resolvents listed added : List Clause} {harvest found : Harvest} {halt : Option Halt}

/-- What comes to be known is neither empty nor a tautology, whether it is found or lost. -/
theorem absorb_known (h : absorb resolvents harvest = (halt, found)) :
    ∀ c ∈ found.known, c ∈ harvest.known ∨ c ≠ [] ∧ c.isTautology = false := by
  have hinsert {resolvent c : Clause} {known : ClauseSet} (hempty : ¬ resolvent.isEmpty = true)
      (hskip : ¬ (resolvent.isTautology || known.contains resolvent) = true)
      (hc : c ∈ known.insert resolvent) : c ∈ known ∨ c ≠ [] ∧ c.isTautology = false := by
    rw [Bool.or_eq_true, not_or, Bool.not_eq_true] at hskip
    rcases ClauseSet.mem_insert.mp hc with rfl | hc
    · exact .inr ⟨by simpa using hempty, hskip.1⟩
    · exact .inl hc
  fun_induction absorb resolvents harvest with
  | case1 | case2 => cases h; exact fun c hc => .inl hc
  | case3 resolvent rest known fresh room hempty hskip ih => exact ih h
  | case4 resolvent rest known fresh hempty hskip =>
    cases h
    exact fun c hc => hinsert hempty hskip hc
  | case5 resolvent rest known fresh hempty hskip room ih =>
    exact fun c hc => (ih h c hc).elim (hinsert hempty hskip) .inr

theorem pass_known (h : pass listed added harvest = (halt, found)) :
    ∀ c ∈ found.known, c ∈ harvest.known ∨ c ≠ [] ∧ c.isTautology = false := by
  fun_induction pass listed added harvest with
  | case1 => cases h; exact fun c hc => .inl hc
  | case2 listed clause added harvest between hround ih =>
    exact fun c hc => (ih h c hc).elim (absorb_known hround c) .inr
  | case3 listed clause added harvest stop between hround =>
    cases h
    exact absorb_known hround

end Harvest

namespace Saturation

variable {s t : Saturation} {answer : Except Error Verdict}

theorem saturate_known (h : s.saturate = (answer, t)) :
    ∀ c ∈ t.known, c ∈ s.known ∨ c ≠ [] ∧ c.isTautology = false := by
  rcases saturate_cases h with ⟨_, _, rfl⟩ | ⟨_, _, _, rfl⟩ | ⟨_, _, hpasses⟩
  · exact fun c hc => .inl hc
  · exact fun c hc => .inl hc
  · obtain ⟨u, listed, added, halt, found, _, hu, hlast, _, _, rfl⟩ :=
      makePasses_last
        (Q := fun u _ _ => ∀ c ∈ u.known, c ∈ s.known ∨ c ≠ [] ∧ c.isTautology = false)
        hpasses rfl (fun c hc => .inl hc)
        fun u listed added found _ hu hpass c hc => (Harvest.pass_known hpass c hc).elim (hu c) .inr
    exact fun c hc => (Harvest.pass_known hlast c hc).elim (hu c) .inr

/-- **What a call comes to know is drawn from the given clauses**, whether it lists it or loses it. -/
theorem saturate_drawn {limit : Nat} {eliminate : Bool} {given : List Clause}
    (h : (start limit eliminate given).saturate = (answer, t))
    (hcanonical : ∀ c ∈ given, c.Canonical) :
    ∀ c ∈ t.known, c ∈ (start limit eliminate given).clauses ∨ c.DrawnFrom given := by
  have hgiven : ∀ g ∈ given, ∀ l ∈ g, ∃ g ∈ given, l ∈ g := fun g hg l hl => ⟨g, hg, hl⟩
  have hoccurs : t.All fun c => ∀ l ∈ c, ∃ g ∈ given, l ∈ g :=
    saturate_all h (literals_invariant _) (start_all limit eliminate given hgiven)
  have hcanonical : t.All Clause.Canonical :=
    saturate_all h canonical_invariant (start_all limit eliminate given hcanonical)
  intro c hc
  rcases saturate_known h c hc with hstart | ⟨hne, htaut⟩
  · exact .inl ((start_settled limit eliminate given c).mp hstart)
  · have hclash := (Clause.not_clashes_iff (hcanonical.known c hc)).mpr htaut
    exact .inr ⟨hcanonical.known c hc, hne, hclash, hoccurs.known c hc⟩

/-! ## Passes -/

/-- **Every pass but the last lists a clause.** -/
theorem makePasses_passes {listed added : List Clause}
    (h : s.makePasses listed added = (answer, t)) :
    t.passes + s.resolvents ≤ s.passes + t.resolvents + 1 := by
  fun_induction makePasses s listed added with
  | case1 | case2 | case3 => cases h; exact Nat.le_of_eq (Nat.add_right_comm _ _ _)
  | case4 s listed added known last others room hfirst fresh ih =>
    have hrest := ih h
    have hfresh : 0 < fresh.length := by simp [fresh]
    dsimp only at hrest
    omega

theorem saturate_passes (h : s.saturate = (answer, t)) :
    t.passes + s.resolvents ≤ s.passes + t.resolvents + 1 := by
  rcases saturate_cases h with ⟨_, _, rfl⟩ | ⟨_, _, _, rfl⟩ | ⟨_, _, hpasses⟩
  · exact Nat.le_succ _
  · exact Nat.le_succ _
  · exact makePasses_passes hpasses

/-- The clauses that come to be known are no more than the atoms allow. -/
theorem size_known_le {limit : Nat} {eliminate : Bool} {given : List Clause}
    (h : (start limit eliminate given).saturate = (answer, t))
    (hcanonical : ∀ c ∈ given, c.Canonical) :
    t.known.size ≤ (start limit eliminate given).known.size + (3 ^ (atomsOf given).card - 1) := by
  let s := start limit eliminate given
  let found := t.known.toList.filter (· ∉ s.clauses)
  have hsize : s.known.size = s.clauses.length := collect_size _ _ _ _ rfl
  have hfound : found.length < 3 ^ (atomsOf given).card := by
    refine length_lt_of_drawn ((ClauseSet.nodup_toList t.known).filter _) fun c hc => ?_
    obtain ⟨hc, hnew⟩ := List.mem_filter.mp hc
    rw [decide_eq_true_eq] at hnew
    exact (saturate_drawn h hcanonical c (ClauseSet.mem_toList.mp hc)).resolve_left hnew
  have hknown : t.known.size ≤ (s.clauses ++ found).length := by
    refine ClauseSet.size_le_length fun c hc => ?_
    by_cases hs : c ∈ s.clauses
    · exact List.mem_append_left _ hs
    · exact List.mem_append_right _
        (List.mem_filter.mpr ⟨ClauseSet.mem_toList.mpr hc, decide_eq_true hs⟩)
  rw [List.length_append, ← hsize] at hknown
  exact Nat.le_trans hknown (Nat.add_le_add_left (Nat.le_sub_one_of_lt hfound) _)

/-- **One call makes at most `3 ^ m` passes over clauses with `m` atoms**, under any limit. It lists at
most `3 ^ m - 1` further clauses behind those of the start, counts them as resolvents, and comes to know
no more than that. All of them, listed or lost, are drawn from the given clauses. -/
theorem saturate_within_bound {given : List Clause} (hcanonical : ∀ c ∈ given, c.Canonical)
    (limit : Nat) (eliminate : Bool) :
    let s := start limit eliminate given
    let m := (atomsOf given).card
    ∃ answer t, s.saturate = (answer, t) ∧ t.passes ≤ 3 ^ m ∧
      (∃ more, t.clauses = s.clauses ++ more ∧ more.length = t.resolvents ∧ more.Nodup ∧
        more.length ≤ 3 ^ m - 1 ∧ ∀ c ∈ more, c.DrawnFrom given) ∧
      t.known.size ≤ s.known.size + (3 ^ m - 1) ∧ ∀ c ∈ t.known, c ∉ s.known → c.DrawnFrom given := by
  intro s m
  obtain ⟨answer, t, hrun⟩ : ∃ answer t, s.saturate = (answer, t) := ⟨_, _, rfl⟩
  have htidy : t.Tidy s.clauses.length :=
    saturate_tidy hrun (start_tidy limit eliminate given)
  have hdrawn := saturate_drawn hrun hcanonical
  have hknown : ∀ c ∈ t.known, c ∉ s.known → c.DrawnFrom given := fun c hc hnew =>
    (hdrawn c hc).resolve_left fun hs => hnew ((start_settled limit eliminate given c).mpr hs)
  obtain ⟨more, hmore, hnew⟩ := (saturate_extends hrun).clauses
  have hlisted : ∀ c ∈ more, c.DrawnFrom given := by
    intro c hc
    have hc' : c ∈ t.clauses := hmore ▸ List.mem_append_right _ hc
    exact hknown c (htidy.coherent c hc') (hnew c hc).2.2
  have hnodup : more.Nodup := (List.nodup_append.mp (hmore ▸ htidy.distinct)).2.1
  have hcount : more.length = t.resolvents := by
    have hcounted := htidy.counted
    rw [hmore, List.length_append] at hcounted
    exact Nat.add_left_cancel hcounted
  have hbound : more.length < 3 ^ m := length_lt_of_drawn hnodup hlisted
  have hpasses : t.passes + 0 ≤ 0 + t.resolvents + 1 := saturate_passes hrun
  exact ⟨answer, t, hrun, by omega,
    ⟨more, hmore, hcount, hnodup, Nat.le_sub_one_of_lt hbound, hlisted⟩,
    size_known_le hrun hcanonical, hknown⟩

/-- The resolvent of `p ∨ q ∨ r` and `¬p ∨ s ∨ t` is longer than both. It is found in the first of two
passes. -/
theorem saturate_within_bound_of_longer_resolvent :
    let given : List Clause := [[⟨0, true⟩, ⟨1, true⟩, ⟨2, true⟩], [⟨0, false⟩, ⟨3, true⟩, ⟨4, true⟩]]
    let t := (start 1000000 true given).saturate.2
    (∀ c ∈ given, c.Canonical) ∧ (atomsOf given).card = 5 ∧
      t.clauses = given ++ [[⟨1, true⟩, ⟨2, true⟩, ⟨3, true⟩, ⟨4, true⟩]] ∧ t.passes = 2 ∧
      t.passes ≤ 3 ^ 5 ∧ Clause.DrawnFrom given [⟨1, true⟩, ⟨2, true⟩, ⟨3, true⟩, ⟨4, true⟩] := by
  intro given t
  have hcanonical : ∀ c ∈ given, c.Canonical := by decide
  have hatoms : (atomsOf given).card = 5 := by decide +kernel
  have hclauses : t.clauses = given ++ [[⟨1, true⟩, ⟨2, true⟩, ⟨3, true⟩, ⟨4, true⟩]] := by
    decide +kernel
  have hstart : (start 1000000 true given).clauses = given := by decide +kernel
  obtain ⟨answer, u, hrun, hpasses, ⟨more, hmore, _, _, _, hdrawn⟩, _, _⟩ :=
    saturate_within_bound hcanonical 1000000 true
  obtain rfl : t = u := congrArg Prod.snd hrun
  rw [hclauses, hstart, List.append_cancel_left_eq] at hmore
  rw [hatoms] at hpasses
  exact ⟨hcanonical, hatoms, hclauses, by decide +kernel, hpasses,
    hdrawn _ (hmore ▸ List.mem_singleton_self _)⟩

/-! ## Enough room -/

section Reach

variable {limit : Nat} {eliminate : Bool} {given : List Clause}

/-- The clauses of the start and the non-empty ones over the given atoms. -/
def reach (limit : Nat) (eliminate : Bool) (given : List Clause) : ClauseSet :=
  .ofList ((start limit eliminate given).clauses ++
    (clausesOver ((atomsOf given).sort (· ≤ ·))).filter (· ≠ []))

theorem mem_reach {c : Clause} :
    c ∈ reach limit eliminate given ↔ c ∈ (start limit eliminate given).clauses ∨
      c ≠ [] ∧ c.Pairwise (·.atom < ·.atom) ∧ ∀ l ∈ c, l.atom ∈ atomsOf given := by
  rw [reach, Std.ExtTreeSet.mem_ofList, List.contains_iff_mem, List.mem_append, List.mem_filter,
    decide_eq_true_eq, mem_clausesOver (atomsOf given).sortedLT_sort.pairwise, and_comm]
  simp only [Finset.mem_sort]

theorem size_reach_le : (reach limit eliminate given).size ≤
    (start limit eliminate given).clauses.length + (3 ^ (atomsOf given).card - 1) := by
  have hempty : [] ∈ clausesOver ((atomsOf given).sort (· ≤ ·)) :=
    (mem_clausesOver (atomsOf given).sortedLT_sort.pairwise).mpr ⟨.nil, by simp⟩
  have hlt : ((clausesOver ((atomsOf given).sort (· ≤ ·))).filter (· ≠ [])).length <
      3 ^ (atomsOf given).card := by
    rw [← Finset.length_sort (· ≤ ·), ← length_clausesOver]
    exact List.length_filter_lt_length_iff_exists.mpr ⟨[], hempty, by simp⟩
  refine Nat.le_trans Std.ExtTreeSet.size_ofList_le ?_
  rw [List.length_append]
  exact Nat.add_le_add_left (Nat.le_sub_one_of_lt hlt) _

/-- Whatever resolution leads to belongs to the reach. -/
theorem encloses_reach (hcanonical : ∀ c ∈ given, c.Canonical) :
    Encloses (reach limit eliminate given) := by
  have hover : ∀ c ∈ reach limit eliminate given,
      c.Canonical ∧ ∀ l ∈ c, l.atom ∈ atomsOf given := by
    intro c hc
    rcases mem_reach.mp hc with hc | ⟨_, hascend, hatoms⟩
    · have hgiven := ((mem_start_clauses limit eliminate given).mp hc).1
      exact ⟨hcanonical c hgiven, fun l hl => mem_atomsOf.mpr ⟨c, hgiven, l, hl, rfl⟩⟩
    · exact ⟨hascend.imp fun hlt => Literal.compare_eq_lt_iff.mpr (.inl hlt), hatoms⟩
  intro a ha b hb r hr
  have hcanonical' := canonical_invariant a b (hover a ha).1 (hover b hb).1 r hr
  have hatoms := literals_invariant (·.atom ∈ atomsOf given) a b (hover a ha).2 (hover b hb).2 r hr
  by_cases hne : r = []
  · exact .inl hne
  · cases htaut : r.isTautology with
    | true => exact .inr (.inl rfl)
    | false => exact .inr (.inr (mem_reach.mpr (.inr ⟨hne, hcanonical'.pairwise_atom htaut, hatoms⟩)))

/-- **With room for all clauses over the given atoms, a call comes to a verdict.** -/
theorem saturate_decides (hcanonical : ∀ c ∈ given, c.Canonical)
    (hroom : (start limit eliminate given).clauses.length + (3 ^ (atomsOf given).card - 1) ≤ limit) :
    ∃ verdict, (start limit eliminate given).saturate.1 = .ok verdict := by
  obtain ⟨answer, t, hrun⟩ : ∃ answer t, (start limit eliminate given).saturate = (answer, t) :=
    ⟨_, _, rfl⟩
  rw [hrun]
  rcases saturate_cases hrun with ⟨_, hanswer, _⟩ | ⟨_, hfull, _⟩ | ⟨_, hlimit, hpasses⟩
  · exact ⟨_, hanswer⟩
  · have hlimit : limit < (start limit eliminate given).clauses.length := hfull
    omega
  · have hclauses : ∀ c ∈ (start limit eliminate given).clauses, c ∈ reach limit eliminate given :=
      fun c hc => mem_reach.mpr (.inl hc)
    have hsize : (start limit eliminate given).known.size =
        (start limit eliminate given).clauses.length := collect_size _ _ _ _ rfl
    have hfits : (start limit eliminate given).harvest.FitsIn (reach limit eliminate given) := by
      refine ⟨fun c hc => hclauses c ((start_settled limit eliminate given c).mp hc), ?_⟩
      have hreach : (reach limit eliminate given).size ≤ _ := size_reach_le
      show (reach limit eliminate given).size ≤ (start limit eliminate given).known.size +
        (limit - (start limit eliminate given).clauses.length)
      omega
    rcases makePasses_fits hfits hclauses (encloses_reach hcanonical) hpasses with h | ⟨h, _⟩
    · exact ⟨_, h⟩
    · exact ⟨_, h⟩

end Reach

theorem length_start_le (limit : Nat) (eliminate : Bool) (given : List Clause) :
    (start limit eliminate given).clauses.length ≤ given.length := by
  have hgiven : (start limit eliminate given).clauses ⊆ given :=
    fun _ hc => ((mem_start_clauses limit eliminate given).mp hc).1
  exact (List.subperm_of_subset (start_tidy limit eliminate given).distinct hgiven).length_le

end Saturation

/-- **Resolution with enough room is a decision procedure**: it answers, and the answer is right. -/
theorem isUnsatisfiable_total {limit : Nat} {given : List Clause} (eliminate : Bool)
    (hcanonical : ∀ c ∈ given, c.Canonical)
    (hroom : given.length + (3 ^ (atomsOf given).card - 1) ≤ limit) :
    ∃ b, isUnsatisfiable limit eliminate given = .ok b ∧ (b = true ↔ ¬ Satisfiable given) := by
  have hstart := Saturation.length_start_le limit eliminate given
  have hroom' := Nat.le_trans (Nat.add_le_add_right hstart _) hroom
  obtain ⟨verdict, hverdict⟩ := Saturation.saturate_decides hcanonical hroom'
  have hanswer : isUnsatisfiable limit eliminate given = .ok (verdict == .unsatisfiable) := by
    rw [isUnsatisfiable_eq, hverdict]
    rfl
  exact ⟨_, hanswer, isUnsatisfiable_iff hcanonical hanswer⟩

end BeliefRevision
