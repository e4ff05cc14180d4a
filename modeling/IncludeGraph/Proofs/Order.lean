import Mathlib.Data.List.Sort
import Mathlib.Data.Prod.Lex
import Mathlib.Data.String.Basic
import IncludeGraph.Text.Order

/-!
# Sorted lists

Sorting by a total order keeps the entries and their number, so that the sorted list
depends on the entries alone and not on the order in which they are given.  Listing
every entry of a sorted list once leaves a strictly sorted list, which depends on the set
of the entries alone.
-/

namespace IncludeGraph.Text

/-! ## Total orders -/

section SortOrder

variable {α : Type} {le : α → α → Bool} {xs ys : List α}

/-- A total order as the comparison that sorting takes. -/
structure SortOrder (le : α → α → Bool) : Prop where
  trans : ∀ x y z, le x y → le y z → le x z
  total : ∀ x y, le x y || le y x
  antisymm : ∀ x y, le x y → le y x → x = y

/-- Comparing entries by distinct values of a linear order is a total order. -/
theorem SortOrder.ofLinearOrder {β : Type} [LinearOrder β] (value : α → β)
    (hvalue : Function.Injective value) (hle : ∀ x y, le x y = decide (value x ≤ value y)) :
    SortOrder le where
  trans x y z hxy hyz := by
    rw [hle, decide_eq_true_eq] at hxy hyz ⊢
    exact hxy.trans hyz
  total x y := by
    rw [hle, hle, Bool.or_eq_true, decide_eq_true_eq, decide_eq_true_eq]
    exact le_total _ _
  antisymm x y hxy hyx := by
    rw [hle, decide_eq_true_eq] at hxy hyx
    exact hvalue (le_antisymm hxy hyx)

theorem sortOrder_le : SortOrder fun a b : String => decide (a ≤ b) :=
  .ofLinearOrder id Function.injective_id fun _ _ => rfl

theorem sortOrder_pairLe : SortOrder pairLe := by
  refine .ofLinearOrder toLex toLex.injective fun p q => ?_
  rw [pairLe, Bool.eq_iff_iff, Bool.or_eq_true, Bool.and_eq_true, decide_eq_true_eq,
    decide_eq_true_eq, decide_eq_true_eq, beq_iff_eq, Prod.Lex.toLex_le_toLex]

/-- The lexicographic comparison of lists of names decides their order. -/
theorem listLe_eq_decide (as bs : List String) : listLe as bs = decide (as ≤ bs) := by
  induction as generalizing bs with
  | nil =>
      cases bs with
      | nil => simp [listLe]
      | cons b bs => exact (decide_eq_true (List.nil_lt_cons b bs).le).symm
  | cons a as ih =>
      cases bs with
      | nil => simp [listLe]
      | cons b bs =>
          rw [listLe, ih, Bool.eq_iff_iff, Bool.or_eq_true, Bool.and_eq_true, decide_eq_true_eq,
            decide_eq_true_eq, decide_eq_true_eq, beq_iff_eq]
          simp only [le_iff_lt_or_eq, List.cons_lt_cons_iff, List.cons.injEq, or_assoc,
            and_or_left]

theorem sortOrder_listLe : SortOrder listLe :=
  .ofLinearOrder id Function.injective_id listLe_eq_decide

theorem SortOrder.pairwise_mergeSort (h : SortOrder le) (xs : List α) :
    (xs.mergeSort le).Pairwise fun x y => le x y = true :=
  List.pairwise_mergeSort h.trans h.total xs

/-- A sorted list is what sorting makes of its entries in any order. -/
theorem SortOrder.eq_mergeSort_of_perm (h : SortOrder le)
    (hsorted : xs.Pairwise fun x y => le x y = true) (hperm : xs.Perm ys) :
    xs = ys.mergeSort le :=
  List.Perm.eq_of_pairwise (fun x y _ _ => h.antisymm x y) hsorted (h.pairwise_mergeSort ys)
    (hperm.trans (List.mergeSort_perm ys le).symm)

/-- A sorted list depends on the entries alone and not on their places. -/
theorem SortOrder.mergeSort_eq_of_perm (h : SortOrder le) (hperm : xs.Perm ys) :
    xs.mergeSort le = ys.mergeSort le :=
  h.eq_mergeSort_of_perm (h.pairwise_mergeSort xs) ((List.mergeSort_perm xs le).trans hperm)

end SortOrder

/-! ## Listing every entry once -/

section Repetitions

variable {α : Type} [BEq α] {le : α → α → Bool} {x : α} {xs ys : List α}

theorem eraseReps_loop (x : α) (xs kept : List α) :
    List.eraseRepsBy.loop (· == ·) x xs kept = kept.reverse ++ (x :: xs).eraseReps := by
  change _ = kept.reverse ++ List.eraseRepsBy.loop (· == ·) x xs []
  induction xs generalizing x kept with
  | nil => simp [List.eraseRepsBy.loop]
  | cons y xs ih =>
      rw [List.eraseRepsBy.loop, List.eraseRepsBy.loop]
      cases x == y with
      | true => exact ih x kept
      | false => rw [ih y (x :: kept), ih y [x], List.reverse_cons, List.append_assoc]; rfl

/-- An entry that repeats the one before it is left out. -/
theorem eraseReps_cons_cons (x y : α) (xs : List α) : (x :: y :: xs).eraseReps =
    if x == y then (x :: xs).eraseReps else x :: (y :: xs).eraseReps := by
  change List.eraseRepsBy.loop (· == ·) x (y :: xs) [] = _
  rw [List.eraseRepsBy.loop, eraseReps_loop, eraseReps_loop]
  cases x == y with
  | true => rfl
  | false => rfl

variable [LawfulBEq α]

theorem mem_eraseReps : x ∈ xs.eraseReps ↔ x ∈ xs := by
  cases xs with
  | nil => rfl
  | cons y xs =>
      induction xs generalizing y with
      | nil => rfl
      | cons z xs ih =>
          rw [eraseReps_cons_cons]
          by_cases hyz : y = z
          · rw [if_pos (beq_iff_eq.mpr hyz), ih, hyz]
            simp
          · rw [if_neg (mt beq_iff_eq.mp hyz), List.mem_cons, ih, ← List.mem_cons]

/-- Where equal entries stand together, each of them is listed once. -/
theorem pairwise_eraseReps (h : SortOrder le) (hsorted : xs.Pairwise fun x y => le x y = true) :
    xs.eraseReps.Pairwise fun x y => le x y = true ∧ x ≠ y := by
  cases xs with
  | nil => exact .nil
  | cons x xs =>
      induction xs generalizing x with
      | nil => exact List.pairwise_singleton _ x
      | cons y xs ih =>
          obtain ⟨hx, hrest⟩ := List.pairwise_cons.mp hsorted
          rw [eraseReps_cons_cons]
          by_cases hxy : x = y
          · rw [if_pos (beq_iff_eq.mpr hxy)]
            refine ih x (List.pairwise_cons.mpr ⟨fun z hz => ?_, hrest.of_cons⟩)
            exact hx z (List.mem_cons_of_mem y hz)
          · rw [if_neg (mt beq_iff_eq.mp hxy)]
            refine List.pairwise_cons.mpr ⟨fun z hz => ?_, ih y hrest⟩
            have hmem := mem_eraseReps.mp hz
            refine ⟨hx z hmem, ?_⟩
            -- A later entry that equals the first one would enclose the second one.
            rintro rfl
            rcases List.mem_cons.mp hmem with heq | hlater
            · exact hxy heq
            · exact hxy (h.antisymm x y (hx y List.mem_cons_self)
                ((List.pairwise_cons.mp hrest).1 x hlater))

/-- Sorting and listing every entry once gives a list that depends on the set of the
entries alone. -/
theorem SortOrder.eraseReps_mergeSort_eq (h : SortOrder le) (hmem : ∀ x, x ∈ xs ↔ x ∈ ys) :
    (xs.mergeSort le).eraseReps = (ys.mergeSort le).eraseReps := by
  have hstrict : ∀ zs : List α,
      (zs.mergeSort le).eraseReps.Pairwise fun x y => le x y = true ∧ x ≠ y :=
    fun zs => pairwise_eraseReps h (h.pairwise_mergeSort zs)
  have hantisymm : Std.Antisymm fun x y => le x y = true ∧ x ≠ y :=
    ⟨fun x y hxy hyx => h.antisymm x y hxy.1 hyx.1⟩
  have hirrefl : Std.Irrefl fun x y => le x y = true ∧ x ≠ y := ⟨fun x hx => hx.2 rfl⟩
  apply (hstrict xs).eq_of_mem_iff (hstrict ys)
  intro x
  rw [mem_eraseReps, mem_eraseReps, List.mem_mergeSort, List.mem_mergeSort, hmem]

end Repetitions

/-! ## Names -/

section Names

variable {names others : List String}

theorem perm_sortNames (names : List String) : (sortNames names).Perm names :=
  List.mergeSort_perm names _

theorem pairwise_sortNames (names : List String) : (sortNames names).Pairwise (· ≤ ·) :=
  (sortOrder_le.pairwise_mergeSort names).imp fun h => of_decide_eq_true h

@[simp]
theorem mem_sortNames {name : String} : name ∈ sortNames names ↔ name ∈ names :=
  (perm_sortNames names).mem_iff

theorem sortNames_eq_of_perm (hperm : names.Perm others) : sortNames names = sortNames others :=
  sortOrder_le.mergeSort_eq_of_perm hperm

theorem mem_sortDistinct {name : String} : name ∈ sortDistinct names ↔ name ∈ names := by
  rw [sortDistinct, mem_eraseReps, mem_sortNames]

theorem pairwise_sortDistinct (names : List String) :
    (sortDistinct names).Pairwise (· < ·) :=
  (pairwise_eraseReps sortOrder_le (sortOrder_le.pairwise_mergeSort names)).imp
    fun h => lt_of_le_of_ne (of_decide_eq_true h.1) h.2

theorem sortDistinct_eq_of_mem_iff (hmem : ∀ name, name ∈ names ↔ name ∈ others) :
    sortDistinct names = sortDistinct others :=
  sortOrder_le.eraseReps_mergeSort_eq hmem

theorem sortDistinct_eq_self (hsorted : names.Pairwise (· < ·)) : sortDistinct names = names :=
  (pairwise_sortDistinct names).eq_of_mem_iff hsorted fun _ => mem_sortDistinct

/-- Distinct names are only put in order. -/
theorem perm_sortDistinct (hnodup : names.Nodup) : (sortDistinct names).Perm names :=
  (List.perm_ext_iff_of_nodup (pairwise_sortDistinct names).nodup hnodup).mpr
    fun _ => mem_sortDistinct

/-- Distinct names in order are what sorting makes of any list of them. -/
theorem eq_sortNames_of_mem_iff (hsorted : names.Pairwise (· < ·)) (hnodup : others.Nodup)
    (hmem : ∀ name, name ∈ names ↔ name ∈ others) : names = sortNames others := by
  apply sortOrder_le.eq_mergeSort_of_perm
  · exact hsorted.imp fun h => decide_eq_true h.le
  · exact (List.perm_ext_iff_of_nodup hsorted.nodup hnodup).mpr hmem

/-- Distinct lists of names in order are what sorting makes of any list of them. -/
theorem eq_sortNameLists_of_mem_iff {lists others : List (List String)}
    (hsorted : lists.Pairwise (· < ·)) (hnodup : others.Nodup)
    (hmem : ∀ names, names ∈ lists ↔ names ∈ others) : lists = sortNameLists others := by
  apply sortOrder_listLe.eq_mergeSort_of_perm
  · exact hsorted.imp fun h => (listLe_eq_decide _ _).trans (decide_eq_true h.le)
  · exact (List.perm_ext_iff_of_nodup hsorted.nodup hnodup).mpr hmem

theorem mem_sortNameLists {lists : List (List String)} {names : List String} :
    names ∈ sortNameLists lists ↔ names ∈ lists :=
  List.mem_mergeSort

/-- Sorting distinct lists of names leaves no two of them equal. -/
theorem pairwise_sortNameLists {lists : List (List String)} (hnodup : lists.Nodup) :
    (sortNameLists lists).Pairwise (· < ·) := by
  have hsorted : (sortNameLists lists).Pairwise fun names others => listLe names others = true :=
    sortOrder_listLe.pairwise_mergeSort lists
  have hdistinct : (sortNameLists lists).Nodup :=
    (List.mergeSort_perm lists listLe).nodup_iff.mpr hnodup
  refine (hsorted.and hdistinct).imp fun {names others} h => lt_of_le_of_ne ?_ h.2
  exact of_decide_eq_true ((listLe_eq_decide names others).symm.trans h.1)

theorem sortNameLists_eq_of_perm {lists others : List (List String)} (hperm : lists.Perm others) :
    sortNameLists lists = sortNameLists others :=
  sortOrder_listLe.mergeSort_eq_of_perm hperm

theorem sortDistinctPairs_singleton (pair : String × String) :
    sortDistinctPairs [pair] = [pair] := by
  rw [sortDistinctPairs, List.mergeSort_singleton]
  rfl

theorem mem_sortDistinctPairs {pairs : List (String × String)} {pair : String × String} :
    pair ∈ sortDistinctPairs pairs ↔ pair ∈ pairs := by
  rw [sortDistinctPairs, mem_eraseReps, List.mem_mergeSort]

theorem sortDistinctPairs_eq_of_mem_iff {pairs others : List (String × String)}
    (hmem : ∀ pair, pair ∈ pairs ↔ pair ∈ others) :
    sortDistinctPairs pairs = sortDistinctPairs others :=
  sortOrder_pairLe.eraseReps_mergeSort_eq hmem

end Names

end IncludeGraph.Text
