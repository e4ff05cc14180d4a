import Mathlib.Data.List.Basic
import Mathlib.Data.List.Forall2
import Mathlib.Data.List.Nodup
import IncludeGraph.Distinct

/-!
# Sequences of checks and first occurrences

A check is a computation that may fail.  A sequence of checks succeeds if all of
them do, and otherwise fails with the error of the first one that fails.
-/

namespace IncludeGraph

section Checks

variable {ε α β : Type}

@[simp]
theorem ok_bind (value : α) (next : α → Except ε β) : Except.ok value >>= next = next value :=
  rfl

@[simp]
theorem error_bind (e : ε) (next : α → Except ε β) :
    Except.error e >>= next = .error e :=
  rfl

theorem bind_eq_ok_iff {check : Except ε α} {next : α → Except ε β} {result : β} :
    check >>= next = .ok result ↔ ∃ value, check = .ok value ∧ next value = .ok result := by
  cases check with
  | error e => simp
  | ok value => simp

/-- A sequence of checks gives all their results or the error of the first that fails. -/
theorem mapM_ok_or_error (check : α → Except ε β) (values : List α) :
    (∃ results, values.mapM check = .ok results ∧
        List.Forall₂ (fun value result => check value = .ok result) values results) ∨
      ∃ before value after e, values = before ++ value :: after ∧
        (∀ other ∈ before, ∃ result, check other = .ok result) ∧
        check value = .error e ∧ values.mapM check = .error e := by
  induction values with
  | nil => exact .inl ⟨[], rfl, .nil⟩
  | cons value values ih =>
      cases hcheck : check value with
      | error e =>
          refine .inr ⟨[], value, values, e, rfl, by simp, hcheck, ?_⟩
          rw [List.mapM_cons, hcheck]
          rfl
      | ok result =>
          rcases ih with ⟨results, hok, hall⟩ | ⟨before, bad, after, e, rfl, hbefore, hbad, herror⟩
          · refine .inl ⟨result :: results, ?_, .cons hcheck hall⟩
            rw [List.mapM_cons, hcheck, hok]
            rfl
          · refine .inr ⟨value :: before, bad, after, e, rfl, ?_, hbad, ?_⟩
            · intro other hother
              rcases List.mem_cons.mp hother with rfl | hother
              · exact ⟨result, hcheck⟩
              · exact hbefore other hother
            · rw [List.mapM_cons, hcheck, herror]
              rfl

/-- The results of a sequence of checks are the results of the single checks. -/
theorem mem_results_iff {check : α → Except ε β} {values : List α} {results : List β}
    (hall : List.Forall₂ (fun value result => check value = .ok result) values results)
    {result : β} : result ∈ results ↔ ∃ value ∈ values, check value = .ok result := by
  induction hall with
  | nil => simp
  | cons hcheck _ ih =>
      rw [List.mem_cons, ih, List.exists_mem_cons_iff, hcheck, Except.ok.injEq]
      exact or_congr_left eq_comm

theorem forM_eq_ok_iff (check : α → Except ε Unit) (values : List α) :
    values.forM check = .ok () ↔ ∀ value ∈ values, check value = .ok () := by
  induction values with
  | nil => simp [pure, Except.pure]
  | cons value values ih =>
      change (check value >>= fun _ => values.forM check) = .ok () ↔ _
      rw [bind_eq_ok_iff, ih, List.forall_mem_cons]
      constructor
      · rintro ⟨_, hvalue, hrest⟩
        exact ⟨hvalue, hrest⟩
      · rintro ⟨hvalue, hrest⟩
        exact ⟨(), hvalue, hrest⟩

end Checks

section FirstPlaces

variable {α : Type}

/-- A place in two lists put together is a place in one of them. -/
theorem append_eq_append_cons {left right before after : List α} {x : α}
    (hsplit : left ++ right = before ++ x :: after) :
    (∃ rest, left = before ++ x :: rest) ∨
      ∃ rest, before = left ++ rest ∧ right = rest ++ x :: after := by
  rcases List.append_eq_append_iff.mp hsplit with ⟨rest, hbefore, hright⟩ | ⟨rest, hleft, hright⟩
  · exact .inr ⟨rest, hbefore, hright⟩
  · cases rest with
    | nil => exact .inr ⟨[], by simp [hleft], by simpa using hright.symm⟩
    | cons y rest =>
        obtain ⟨rfl, _⟩ := List.cons.inj hright
        exact .inl ⟨rest, hleft⟩

/-- The first place of a separator splits a list in one way only. -/
theorem append_cons_inj {before before' after after' : List α} {x : α} (hbefore : x ∉ before)
    (hbefore' : x ∉ before') (hsplit : before ++ x :: after = before' ++ x :: after') :
    before = before' ∧ after = after' := by
  rcases append_eq_append_cons hsplit with ⟨rest, rfl⟩ | ⟨rest, rfl, hrest⟩
  · exact absurd (by simp) hbefore
  · cases rest with
    | nil => exact ⟨by simp, (List.cons.inj hrest).2⟩
    | cons y rest =>
        obtain ⟨rfl, _⟩ := List.cons.inj hrest
        exact absurd (by simp) hbefore'

/-- The first element of a list that is bad is the same wherever the list is split. -/
theorem first_unique (bad : α → Prop) {before before' after after' : List α} {x x' : α}
    (hsplit : before ++ x :: after = before' ++ x' :: after') (hx : bad x) (hx' : bad x')
    (hbefore : ∀ y ∈ before, ¬ bad y) (hbefore' : ∀ y ∈ before', ¬ bad y) : x = x' := by
  rcases append_eq_append_cons hsplit with ⟨rest, rfl⟩ | ⟨rest, rfl, hrest⟩
  · exact absurd hx' (hbefore x' (by simp))
  · cases rest with
    | nil => exact (List.cons.inj hrest).1
    | cons y rest =>
        obtain ⟨rfl, _⟩ := List.cons.inj hrest
        exact absurd hx (hbefore' x (by simp))

/-- The first value of a list that a property does not hold of. -/
def FirstExcept (good : α → Prop) (values : List α) (value : α) : Prop :=
  ∃ before after, values = before ++ value :: after ∧ (∀ other ∈ before, good other) ∧ ¬ good value

/-- A property holds of all values of a list, or it has a first exception among them. -/
theorem all_or_firstExcept (good : α → Prop) (values : List α) :
    (∀ value ∈ values, good value) ∨ ∃ value, FirstExcept good values value := by
  induction values with
  | nil => exact .inl (by simp)
  | cons value values ih =>
      by_cases hvalue : good value
      · rcases ih with hall | ⟨bad, before, after, rfl, hbefore, hbad⟩
        · exact .inl (List.forall_mem_cons.mpr ⟨hvalue, hall⟩)
        · exact .inr ⟨bad, value :: before, after, rfl,
            List.forall_mem_cons.mpr ⟨hvalue, hbefore⟩, hbad⟩
      · exact .inr ⟨value, [], values, rfl, by simp, hvalue⟩

namespace FirstExcept

variable {good other : α → Prop} {values : List α} {value : α}

theorem mem (h : FirstExcept good values value) : value ∈ values := by
  obtain ⟨before, after, rfl, _, _⟩ := h
  exact List.mem_append_right before List.mem_cons_self

theorem not_holds (h : FirstExcept good values value) : ¬ good value := by
  obtain ⟨_, _, _, _, hbad⟩ := h
  exact hbad

theorem append_right (h : FirstExcept good values value) (others : List α) :
    FirstExcept good (values ++ others) value := by
  obtain ⟨before, after, rfl, hbefore, hbad⟩ := h
  refine ⟨before, after ++ others, ?_, hbefore, hbad⟩
  rw [List.append_assoc, List.cons_append]

theorem of_iff (hiff : ∀ value ∈ values, good value ↔ other value)
    (h : FirstExcept good values value) : FirstExcept other values value := by
  have hvalue := hiff value h.mem
  obtain ⟨before, after, rfl, hbefore, hbad⟩ := h
  refine ⟨before, after, rfl, fun earlier hearlier => ?_, mt hvalue.mpr hbad⟩
  exact (hiff earlier (List.mem_append_left _ hearlier)).mp (hbefore earlier hearlier)

end FirstExcept

/-- A sequence of checks ends at the first one that fails. -/
theorem forM_eq_error_of_firstExcept {ε : Type} {check : α → Except ε Unit} {values : List α}
    {value : α} {e : ε} (h : FirstExcept (check · = .ok ()) values value)
    (herror : check value = .error e) : values.forM check = .error e := by
  obtain ⟨before, after, rfl, hbefore, _⟩ := h
  induction before with
  | nil =>
      change (check value >>= fun _ => after.forM check) = .error e
      rw [herror, error_bind]
  | cons earlier before ih =>
      obtain ⟨hearlier, hrest⟩ := List.forall_mem_cons.mp hbefore
      change (check earlier >>= fun _ => (before ++ value :: after).forM check) = .error e
      rw [hearlier, ok_bind]
      exact ih hrest

end FirstPlaces

section FirstOccurrences

variable {α : Type} [BEq α] [Hashable α] [LawfulBEq α] [LawfulHashable α]

omit [LawfulBEq α] [LawfulHashable α] in
theorem firstOccurrences_cons_eq (x : α) (xs : List α) :
    firstOccurrences (x :: xs) = (appendUnseen ((∅ : Std.HashSet α).insert x) #[x] xs).toList := by
  rw [firstOccurrences, appendUnseen, if_neg (by simp)]
  rfl

/-- What is appended to the kept elements are the first occurrences of those that are unseen. -/
theorem toList_appendUnseen (seen : Std.HashSet α) (kept : Array α) (xs : List α) :
    (appendUnseen seen kept xs).toList =
      kept.toList ++ (firstOccurrences xs).filter (!seen.contains ·) := by
  induction xs generalizing seen kept with
  | nil => simp [firstOccurrences, appendUnseen]
  | cons y ys ih =>
      rw [firstOccurrences_cons_eq, ih, appendUnseen, List.filter_append, List.filter_filter]
      by_cases hy : seen.contains y = true
      · have hseen : ∀ x, (!seen.contains x && !((∅ : Std.HashSet α).insert y).contains x) =
            !seen.contains x := by
          intro x
          by_cases hx : y = x
          · simp [← hx, hy]
          · simp [hx]
        simp only [hseen]
        rw [if_pos hy, ih, List.filter_singleton, hy]
        rfl
      · rw [if_neg hy, ih]
        simp [hy, Bool.and_comm]

/-- The first occurrences are the first element and those of the others, without that one. -/
theorem firstOccurrences_cons (x : α) (xs : List α) :
    firstOccurrences (x :: xs) = x :: (firstOccurrences xs).filter (!x == ·) := by
  rw [firstOccurrences_cons_eq, toList_appendUnseen]
  simp

theorem nodup_firstOccurrences (xs : List α) : (firstOccurrences xs).Nodup := by
  induction xs with
  | nil => exact List.nodup_nil
  | cons x xs ih =>
      rw [firstOccurrences_cons]
      exact List.nodup_cons.mpr ⟨by simp, ih.filter _⟩

@[simp]
theorem mem_firstOccurrences {x : α} {xs : List α} : x ∈ firstOccurrences xs ↔ x ∈ xs := by
  induction xs with
  | nil => rfl
  | cons y xs ih =>
      rw [firstOccurrences_cons, List.mem_cons, List.mem_filter, ih, List.mem_cons]
      by_cases hx : x = y
      · simp [hx]
      · simp [hx, Ne.symm hx]

/-- A list without repetitions consists of first occurrences. -/
theorem firstOccurrences_of_nodup {xs : List α} (hnodup : xs.Nodup) :
    firstOccurrences xs = xs := by
  induction xs with
  | nil => rfl
  | cons x xs ih =>
      obtain ⟨hx, hrest⟩ := List.nodup_cons.mp hnodup
      rw [firstOccurrences_cons, ih hrest, List.filter_eq_self.mpr]
      intro y hy
      have hne : x ≠ y := fun heq => hx (heq ▸ hy)
      simpa using hne

/-- A list holds the elements of another one, each of them once, in the order of their first
places. -/
structure InFirstOrder (kept all : List α) : Prop where
  mem_iff : ∀ x, x ∈ kept ↔ x ∈ all
  increasing : kept.Pairwise fun x y => all.idxOf x < all.idxOf y

theorem inFirstOrder_firstOccurrences (xs : List α) : InFirstOrder (firstOccurrences xs) xs where
  mem_iff _ := mem_firstOccurrences
  increasing := by
    induction xs with
    | nil => exact .nil
    | cons x xs ih =>
        have hlater : ∀ y, y ≠ x → (x :: xs).idxOf y = xs.idxOf y + 1 := fun y hy =>
          List.idxOf_cons_ne xs hy.symm
        have hother : ∀ y ∈ (firstOccurrences xs).filter (!x == ·), y ≠ x := by
          rintro y hy rfl
          simp at hy
        rw [firstOccurrences_cons]
        refine List.pairwise_cons.mpr ⟨fun y hy => ?_, (ih.filter _).imp_of_mem ?_⟩
        · rw [List.idxOf_cons_self, hlater y (hother y hy)]
          exact Nat.succ_pos _
        · intro y z hy hz hlt
          rw [hlater y (hother y hy), hlater z (hother z hz)]
          exact Nat.succ_lt_succ hlt

theorem firstOccurrences_filter (keep : α → Bool) (xs : List α) :
    firstOccurrences (xs.filter keep) = (firstOccurrences xs).filter keep := by
  induction xs with
  | nil => rfl
  | cons x xs ih =>
      rw [firstOccurrences_cons]
      by_cases hx : keep x = true
      · rw [List.filter_cons_of_pos hx, List.filter_cons_of_pos hx, firstOccurrences_cons, ih,
          List.filter_filter, List.filter_filter]
        simp only [Bool.and_comm]
      · rw [List.filter_cons_of_neg hx, List.filter_cons_of_neg hx, ih, List.filter_filter]
        apply List.filter_congr
        intro y _
        by_cases hy : keep y = true
        · have hne : x ≠ y := by
            rintro rfl
            exact hx hy
          simp [hy, hne]
        · simp [hy]

variable {β : Type} [BEq β] [Hashable β] [LawfulBEq β] [LawfulHashable β]

theorem firstOccurrences_map {f : α → β} (hinjective : Function.Injective f) (xs : List α) :
    firstOccurrences (xs.map f) = (firstOccurrences xs).map f := by
  induction xs with
  | nil => rfl
  | cons x xs ih =>
      have hother : (fun y => !f x == f y) = fun y => !x == y := by
        funext y
        rw [Bool.eq_iff_iff]
        simp [hinjective.eq_iff]
      rw [List.map_cons, firstOccurrences_cons, firstOccurrences_cons, ih, List.map_cons,
        List.filter_map]
      exact congrArg (fun keep => f x :: ((firstOccurrences xs).filter keep).map f) hother

end FirstOccurrences

end IncludeGraph
