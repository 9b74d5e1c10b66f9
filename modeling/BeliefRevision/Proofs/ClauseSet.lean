import Mathlib.Data.List.Perm.Subperm
import BeliefRevision.Clause.Set

/-!
# Members and sizes of clause sets

Unions and products of clause sets by their members. A product under a limit is given up while it is
being built; since it only grows, this is as good as a look at the finished product.

* `mem_product`, `mem_unions` — the members
* `productWithin_eq` — a product under a limit is the product, if that is within the limit
-/

namespace BeliefRevision.ClauseSet

theorem mem_insert {c d : Clause} {clauses : ClauseSet} :
    c ∈ clauses.insert d ↔ c = d ∨ c ∈ clauses := by
  rw [Std.ExtTreeSet.mem_insert, Std.compare_eq_iff_eq]
  exact or_congr_left eq_comm

theorem mem_singleton {c d : Clause} : c ∈ ({d} : ClauseSet) ↔ c = d := by
  show c ∈ (∅ : ClauseSet).insert d ↔ c = d
  simp only [mem_insert, Std.ExtTreeSet.not_mem_empty, or_false]

theorem mem_toList {c : Clause} {clauses : ClauseSet} : c ∈ clauses.toList ↔ c ∈ clauses :=
  Std.ExtTreeSet.mem_toList

theorem nodup_toList (set : ClauseSet) : set.toList.Nodup :=
  Std.ExtTreeSet.distinct_toList.imp fun hne hsame => hne (Std.compare_eq_iff_eq.mpr hsame)

theorem size_le_length {set : ClauseSet} {clauses : List Clause} (h : ∀ c ∈ set, c ∈ clauses) :
    set.size ≤ clauses.length := by
  rw [← Std.ExtTreeSet.length_toList]
  exact (List.subperm_of_subset set.nodup_toList fun c hc => h c (mem_toList.mp hc)).length_le

/-! ## Products -/

theorem mem_insertMerge {a b c : Clause} {clauses : ClauseSet} :
    c ∈ insertMerge a b clauses ↔ c ∈ clauses ∨ c = a.merge b ∧ c.isTautology = false := by
  unfold insertMerge
  dsimp only
  split
  · next h =>
    constructor
    · exact .inl
    · rintro (hc | ⟨rfl, hc⟩)
      · exact hc
      · rw [h] at hc
        cases hc
  · next h =>
    rw [mem_insert, or_comm]
    refine or_congr_right ⟨?_, And.left⟩
    rintro rfl
    exact ⟨rfl, by simpa using h⟩

theorem mem_foldl_insertMerge {a c : Clause} {rights : List Clause} {found : ClauseSet} :
    c ∈ rights.foldl (fun found b => insertMerge a b found) found ↔
      c ∈ found ∨ ∃ b ∈ rights, c = a.merge b ∧ c.isTautology = false := by
  induction rights generalizing found with
  | nil => simp
  | cons b rights ih =>
    simp only [List.foldl_cons, ih, mem_insertMerge, List.mem_cons, exists_eq_or_imp, or_assoc]

theorem mem_product {c : Clause} {left right : ClauseSet} :
    c ∈ product left right ↔
      ∃ a ∈ left, ∃ b ∈ right, c = a.merge b ∧ c.isTautology = false := by
  have hfold (lefts : List Clause) (found : ClauseSet) :
      c ∈ lefts.foldl (fun found a =>
          right.toList.foldl (fun found b => insertMerge a b found) found) found ↔
        c ∈ found ∨ ∃ a ∈ lefts, ∃ b ∈ right.toList, c = a.merge b ∧ c.isTautology = false := by
    induction lefts generalizing found with
    | nil => simp
    | cons a lefts ih =>
      simp only [List.foldl_cons, ih, mem_foldl_insertMerge, List.mem_cons, exists_eq_or_imp, or_assoc]
  rw [product, hfold]
  simp only [Std.ExtTreeSet.not_mem_empty, false_or, mem_toList]

/-! ## Limits -/

theorem size_le_insertMerge (a b : Clause) (clauses : ClauseSet) :
    clauses.size ≤ (insertMerge a b clauses).size := by
  unfold insertMerge
  dsimp only
  split
  · exact Nat.le_refl _
  · exact Std.ExtTreeSet.size_le_size_insert

section Growing

variable {α : Type} {limit : Nat} {step : ClauseSet → α → Option ClauseSet}
  {grow : ClauseSet → α → ClauseSet}

theorem size_le_foldl (hgrow : ∀ found x, found.size ≤ (grow found x).size) (items : List α)
    (found : ClauseSet) : found.size ≤ (items.foldl grow found).size := by
  induction items generalizing found with
  | nil => exact Nat.le_refl _
  | cons x items ih => exact Nat.le_trans (hgrow found x) (ih _)

/-- A set that only grows passes the limit at some step exactly if it does so at the end. -/
theorem foldlM_within (hgrow : ∀ found x, found.size ≤ (grow found x).size)
    (hstep : ∀ found x, found.size ≤ limit → step found x = within limit (grow found x))
    (items : List α) {found : ClauseSet} (hfound : found.size ≤ limit) :
    items.foldlM step found = within limit (items.foldl grow found) := by
  induction items generalizing found with
  | nil => exact (if_pos hfound).symm
  | cons x items ih =>
    rw [List.foldlM_cons, List.foldl_cons, hstep found x hfound]
    by_cases hx : (grow found x).size ≤ limit
    · rw [within, if_pos hx]
      exact ih hx
    · have hend : ¬ (items.foldl grow (grow found x)).size ≤ limit :=
        fun hle => hx (Nat.le_trans (size_le_foldl hgrow items _) hle)
      rw [within, if_neg hx, within, if_neg hend]
      rfl

end Growing

theorem productWithin_eq (limit : Nat) (left right : ClauseSet) :
    productWithin limit left right = within limit (product left right) := by
  have hgrow (a : Clause) : ∀ found b, found.size ≤ (insertMerge a b found).size :=
    fun found b => size_le_insertMerge a b found
  refine foldlM_within (fun found a => size_le_foldl (hgrow a) right.toList found) ?_ left.toList
    (Nat.zero_le limit)
  intro found a hfound
  exact foldlM_within (hgrow a) (fun _ _ _ => rfl) right.toList hfound

/-! ## Unions -/

theorem mem_union {c : Clause} {left right : ClauseSet} :
    c ∈ left ∪ right ↔ c ∈ left ∨ c ∈ right := Std.ExtTreeSet.mem_union_iff

theorem mem_unions {c : Clause} {sets : List ClauseSet} :
    c ∈ unions sets ↔ ∃ clauses ∈ sets, c ∈ clauses := by
  have hfold (found : ClauseSet) :
      c ∈ sets.foldl (· ∪ ·) found ↔ c ∈ found ∨ ∃ clauses ∈ sets, c ∈ clauses := by
    induction sets generalizing found with
    | nil => simp
    | cons first rest ih =>
      simp only [List.foldl_cons, ih, mem_union, List.mem_cons, exists_eq_or_imp, or_assoc]
  rw [unions, hfold]
  simp only [Std.ExtTreeSet.not_mem_empty, false_or]

end BeliefRevision.ClauseSet
