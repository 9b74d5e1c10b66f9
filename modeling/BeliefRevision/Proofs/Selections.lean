import BeliefRevision.Enumeration

/-!
# Selections are all the subsets of one size

A set of positions is written as an ascending list. The selections of a size are all these lists of
that length, each of them once, in lexicographic order.

* `mem_selections` — which lists are enumerated
* `selections_ascending` — in which order
-/

namespace BeliefRevision

/-- A set of numbers below `count`, listed in ascending order. -/
structure IsSelection (count : Nat) (positions : List Nat) : Prop where
  ascending : positions.Pairwise (· < ·)
  below : ∀ p ∈ positions, p < count

/-- There are no more ascending positions than there are numbers in their range. -/
theorem length_le_of_ascending {start count : Nat} {positions : List Nat}
    (hascending : positions.Pairwise (· < ·))
    (hrange : ∀ p ∈ positions, start ≤ p ∧ p < start + count) : positions.length ≤ count := by
  induction positions generalizing start count with
  | nil => exact Nat.zero_le count
  | cons first rest ih =>
    obtain ⟨hfirst, hrest⟩ := List.pairwise_cons.mp hascending
    obtain ⟨hlow, hhigh⟩ := hrange first List.mem_cons_self
    have hinner : ∀ p ∈ rest, first + 1 ≤ p ∧ p < first + 1 + (start + count - (first + 1)) := by
      intro p hp
      have hafter := hfirst p hp
      have hbelow := (hrange p (List.mem_cons_of_mem first hp)).2
      omega
    have hlength := ih hrest hinner
    rw [List.length_cons]
    omega

/-! ## Members -/

theorem mem_selectionsFrom {start count size : Nat} {positions : List Nat} :
    positions ∈ (selectionsFrom start count size).toList ↔
      positions.length = size ∧ positions.Pairwise (· < ·) ∧
        ∀ p ∈ positions, start ≤ p ∧ p < start + count := by
  fun_induction selectionsFrom start count size generalizing positions with
  | case1 start count =>
    simp only [Enumeration.toList, List.mem_singleton, List.length_eq_zero_iff]
    constructor
    · rintro rfl
      simp
    · exact And.left
  | case2 start size =>
    simp only [Enumeration.toList, List.not_mem_nil, false_iff]
    rintro ⟨hlength, hascending, hrange⟩
    have := length_le_of_ascending hascending hrange
    omega
  | case3 start count size hlt =>
    simp only [Enumeration.toList, List.not_mem_nil, false_iff]
    rintro ⟨hlength, hascending, hrange⟩
    have := length_le_of_ascending hascending hrange
    omega
  | case4 start count size hle ihwith ihwithout =>
    rw [Enumeration.toList_append, Enumeration.toList_map, List.mem_append, List.mem_map, ihwithout]
    constructor
    · rintro (⟨rest, hrest, rfl⟩ | ⟨hlength, hascending, hrange⟩)
      · obtain ⟨hlength, hascending, hrange⟩ := ihwith.mp hrest
        refine ⟨by rw [List.length_cons, hlength], ?_, ?_⟩
        · refine List.pairwise_cons.mpr ⟨fun p hp => ?_, hascending⟩
          have := hrange p hp
          omega
        · refine List.forall_mem_cons.mpr ⟨by omega, fun p hp => ?_⟩
          have := hrange p hp
          omega
      · refine ⟨hlength, hascending, fun p hp => ?_⟩
        have := hrange p hp
        omega
    · rintro ⟨hlength, hascending, hrange⟩
      obtain _ | ⟨first, rest⟩ := positions
      · cases hlength
      obtain ⟨hfirst, hrest⟩ := List.pairwise_cons.mp hascending
      obtain ⟨hbounds, hrange⟩ := List.forall_mem_cons.mp hrange
      have hafter : ∀ p ∈ rest, first < p ∧ p < start + (count + 1) :=
        fun p hp => ⟨hfirst p hp, (hrange p hp).2⟩
      by_cases hstart : first = start
      · subst hstart
        refine .inl ⟨rest, ihwith.mpr ⟨Nat.succ.inj hlength, hrest, fun p hp => ?_⟩, rfl⟩
        have := hafter p hp
        omega
      · refine .inr ⟨hlength, hascending, List.forall_mem_cons.mpr ⟨by omega, fun p hp => ?_⟩⟩
        have := hafter p hp
        omega

/-- **The selections of a size are all the subsets with so many members.** -/
theorem mem_selections {count size : Nat} {positions : List Nat} :
    positions ∈ (selections count size).toList ↔
      IsSelection count positions ∧ positions.length = size := by
  rw [selections, mem_selectionsFrom]
  constructor
  · rintro ⟨hlength, hascending, hrange⟩
    exact ⟨⟨hascending, fun p hp => by simpa using (hrange p hp).2⟩, hlength⟩
  · rintro ⟨⟨hascending, hbelow⟩, hlength⟩
    exact ⟨hlength, hascending, fun p hp => ⟨Nat.zero_le p, by simpa using hbelow p hp⟩⟩

/-! ## Order -/

theorem selectionsFrom_ascending (start count size : Nat) :
    (selectionsFrom start count size).toList.Pairwise (· < ·) := by
  fun_induction selectionsFrom start count size with
  | case1 => exact List.pairwise_singleton _ _
  | case2 => exact List.Pairwise.nil
  | case3 => exact List.Pairwise.nil
  | case4 start count size hle ihwith ihwithout =>
    rw [Enumeration.toList_append, Enumeration.toList_map]
    refine List.pairwise_append.mpr ⟨?_, ihwithout, ?_⟩
    · rw [List.pairwise_map]
      exact ihwith.imp fun hlt => List.cons_lt_cons_iff.mpr (.inr ⟨rfl, hlt⟩)
    · -- a list that begins with `start` stands before one that begins later
      intro left hleft right hright
      obtain ⟨rest, _, rfl⟩ := List.mem_map.mp hleft
      obtain ⟨hlength, _, hrange⟩ := mem_selectionsFrom.mp hright
      obtain _ | ⟨first, others⟩ := right
      · cases hlength
      have hfirst := (hrange first List.mem_cons_self).1
      exact List.cons_lt_cons_iff.mpr (.inl (by omega))

/-- **They come in lexicographic order**, so none comes twice. -/
theorem selections_ascending (count size : Nat) :
    (selections count size).toList.Pairwise (· < ·) := selectionsFrom_ascending 0 count size

/-! ## Subsets -/

theorem isSelection_range (count : Nat) : IsSelection count (List.range count) :=
  ⟨List.pairwise_lt_range, fun _ => List.mem_range.mp⟩

theorem isSelection_filter (count : Nat) (keep : Nat → Bool) :
    IsSelection count ((List.range count).filter keep) where
  ascending := List.pairwise_lt_range.filter keep
  below := fun _ hp => List.mem_range.mp (List.mem_filter.mp hp).1

namespace IsSelection

variable {count : Nat} {positions : List Nat}

theorem eq_filter (h : IsSelection count positions) :
    positions = (List.range count).filter (positions.contains ·) := by
  have hrange := (isSelection_filter count (positions.contains ·)).ascending
  have hperm : positions.Perm ((List.range count).filter (positions.contains ·)) := by
    refine (List.perm_ext_iff_of_nodup ?_ ?_).mpr fun p => ?_
    · exact h.ascending.imp Nat.ne_of_lt
    · exact hrange.imp Nat.ne_of_lt
    · rw [List.mem_filter, List.mem_range, List.contains_iff_mem]
      exact ⟨fun hp => ⟨h.below p hp, hp⟩, And.right⟩
  exact hperm.eq_of_pairwise (fun p q _ _ hpq hqp => by omega) h.ascending hrange

theorem sublist_range (h : IsSelection count positions) : positions.Sublist (List.range count) := by
  rw [h.eq_filter]
  exact List.filter_sublist

theorem sublist_filter (h : IsSelection count positions) {keep : Nat → Bool}
    (hkeep : ∀ p ∈ positions, keep p = true) :
    positions.Sublist ((List.range count).filter keep) := by
  have hsame : positions.filter keep = positions := List.filter_eq_self.mpr hkeep
  rw [← hsame]
  exact h.sublist_range.filter keep

theorem length_le (h : IsSelection count positions) : positions.length ≤ count := by
  simpa using h.sublist_range.length_le

/-- A subset is a part of the list. -/
theorem sublist_of_subset {other : List Nat} (h : IsSelection count positions)
    (hother : IsSelection count other) (hsubset : positions ⊆ other) : positions.Sublist other := by
  rw [hother.eq_filter]
  exact h.sublist_filter fun p hp => by simpa using hsubset hp

end IsSelection

end BeliefRevision
