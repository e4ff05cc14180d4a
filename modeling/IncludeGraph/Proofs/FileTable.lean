import Mathlib.Data.List.Nodup
import IncludeGraph.FileTable
import IncludeGraph.Proofs.Sequences

/-!
# What a table of files holds

A table that is filled from groups of files holds every file of the groups with the
value of its group, provided that no file occurs twice; otherwise filling it fails at
the first file that has occurred before.
-/

namespace IncludeGraph.FileTable

variable {α : Type} {table : FileTable α} {entries : List (String × α)}

/-- The entries that groups of files ask for, in the order in which they are made. -/
def entriesOf (groups : List (α × List String)) : List (String × α) :=
  groups.flatMap fun group => group.2.map fun file => (file, group.1)

/-- The table has the entries of the list and no others. -/
structure Holds (table : FileTable α) (entries : List (String × α)) : Prop where
  nodup : (entries.map Prod.fst).Nodup
  size_eq : table.size = entries.length
  get?_eq : ∀ file value, table[file]? = some value ↔ (file, value) ∈ entries

/-- The first file of a list that repeats one of the known files or of the list. -/
def FirstRepeat (known files : List String) (file : String) : Prop :=
  ∃ before after, files = before ++ file :: after ∧ (known ++ before).Nodup ∧
    file ∈ known ++ before

theorem FirstRepeat.not_nodup {known files : List String} {file : String}
    (h : FirstRepeat known files file) : ¬ (known ++ files).Nodup := by
  obtain ⟨before, after, rfl, _, hmem⟩ := h
  intro hnodup
  rw [← List.append_assoc] at hnodup
  exact (List.nodup_append.mp hnodup).2.2 file hmem file List.mem_cons_self rfl

theorem FirstRepeat.unique {known files : List String} {file other : String}
    (h : FirstRepeat known files file) (h' : FirstRepeat known files other) : file = other := by
  obtain ⟨before, after, rfl, hnodup, hmem⟩ := h
  obtain ⟨before', after', hsplit, hnodup', hmem'⟩ := h'
  -- The files before a first repetition repeat nothing, so that neither comes before the other.
  rcases append_eq_append_cons hsplit with ⟨rest, rfl⟩ | ⟨rest, rfl, hrest⟩
  · have hrepeat : FirstRepeat known (before' ++ other :: rest) other :=
      ⟨before', rest, rfl, hnodup', hmem'⟩
    exact absurd hnodup hrepeat.not_nodup
  · cases rest with
    | nil => exact (List.cons.inj hrest).1
    | cons next rest =>
        obtain ⟨rfl, _⟩ := List.cons.inj hrest
        have hrepeat : FirstRepeat known (before ++ file :: rest) file :=
          ⟨before, rest, rfl, hnodup, hmem⟩
        exact absurd hnodup' hrepeat.not_nodup

theorem holds_empty : Holds (∅ : FileTable α) [] where
  nodup := List.nodup_nil
  size_eq := by simp
  get?_eq := by simp

namespace Holds

theorem mem_iff (h : Holds table entries) (file : String) :
    file ∈ table ↔ file ∈ entries.map Prod.fst := by
  rw [← Std.HashMap.isSome_getElem?_iff_mem, Option.isSome_iff_exists, List.mem_map]
  constructor
  · rintro ⟨value, hvalue⟩
    exact ⟨(file, value), (h.get?_eq file value).mp hvalue, rfl⟩
  · rintro ⟨⟨_, value⟩, hentry, rfl⟩
    exact ⟨value, (h.get?_eq _ value).mpr hentry⟩

theorem insert (h : Holds table entries) {file : String} (hfile : file ∉ table) (value : α) :
    Holds (table.insert file value) (entries ++ [(file, value)]) where
  nodup := by
    rw [List.map_append]
    refine List.nodup_append.mpr ⟨h.nodup, by simp, ?_⟩
    intro x hx y hy hxy
    rw [hxy, List.mem_singleton.mp hy] at hx
    exact hfile ((h.mem_iff file).mpr hx)
  size_eq := by
    rw [Std.HashMap.size_insert, if_neg hfile, h.size_eq, List.length_append]
    rfl
  get?_eq other result := by
    rw [Std.HashMap.getElem?_insert, List.mem_append, List.mem_singleton, Prod.mk.injEq]
    by_cases heq : file = other
    · subst heq
      have hnew : (file, result) ∉ entries := by
        intro hentry
        exact hfile ((h.mem_iff file).mpr (List.mem_map_of_mem hentry))
      simp [hnew, eq_comm]
    · simp [heq, Ne.symm heq, h.get?_eq other result]

/-- Entering files adds one entry for each of them, up to the first repeated one. -/
theorem enter (h : Holds table entries) (clash : String → Violation) (value : α)
    (files : List String) :
    (∃ result, enter clash value table files = .ok result ∧
        Holds result (entries ++ files.map fun file => (file, value))) ∨
      ∃ file, FirstRepeat (entries.map Prod.fst) files file ∧
        FileTable.enter clash value table files = .error (.invariantViolation (clash file)) := by
  induction files generalizing table entries with
  | nil => exact .inl ⟨table, rfl, by simpa using h⟩
  | cons file files ih =>
      rw [FileTable.enter]
      split
      · rename_i hcontains
        refine .inr ⟨file, ⟨[], files, rfl, by simpa using h.nodup, ?_⟩, rfl⟩
        simpa using (h.mem_iff file).mp hcontains
      · rename_i hcontains
        rcases ih (h.insert hcontains value) with ⟨result, hok, hresult⟩ | ⟨bad, hbad, herror⟩
        · refine .inl ⟨result, hok, ?_⟩
          rw [List.map_cons]
          simpa using hresult
        · obtain ⟨before, after, rfl, hnodup, hmem⟩ := hbad
          rw [List.map_append, List.append_assoc] at hnodup hmem
          exact .inr ⟨bad, ⟨file :: before, after, rfl, hnodup, hmem⟩, herror⟩

theorem foldlM_enter (h : Holds table entries) (clash : String → Violation)
    (groups : List (α × List String)) :
    (∃ result, groups.foldlM (fun table group => FileTable.enter clash group.1 table group.2)
          table = .ok result ∧ Holds result (entries ++ entriesOf groups)) ∨
      ∃ file, FirstRepeat (entries.map Prod.fst) (groups.flatMap Prod.snd) file ∧
        groups.foldlM (fun table group => FileTable.enter clash group.1 table group.2) table =
          .error (.invariantViolation (clash file)) := by
  induction groups generalizing table entries with
  | nil => exact .inl ⟨table, rfl, by simpa [entriesOf] using h⟩
  | cons group groups ih =>
      rw [List.foldlM_cons]
      rcases h.enter clash group.1 group.2 with ⟨next, hok, hnext⟩ | ⟨bad, hbad, herror⟩
      · rw [hok, ok_bind]
        rcases ih hnext with ⟨result, hresult, hholds⟩ | ⟨bad, hbad, herror⟩
        · exact .inl ⟨result, hresult, by simpa [entriesOf] using hholds⟩
        · obtain ⟨before, after, hsplit, hnodup, hmem⟩ := hbad
          refine .inr ⟨bad, ⟨group.2 ++ before, after, ?_, ?_, ?_⟩, herror⟩
          · rw [List.flatMap_cons, hsplit, List.append_assoc]
          · simpa [Function.comp_def] using hnodup
          · simpa [Function.comp_def] using hmem
      · rw [herror, error_bind]
        obtain ⟨before, after, hsplit, hnodup, hmem⟩ := hbad
        refine .inr ⟨bad, ⟨before, after ++ groups.flatMap Prod.snd, ?_, hnodup, hmem⟩, rfl⟩
        rw [List.flatMap_cons, hsplit, List.append_assoc, List.cons_append]

end Holds

/-- Filling a table succeeds and keeps every file, or fails at the first repeated one. -/
theorem ofGroups_holds_or_error (clash : String → Violation) (groups : List (α × List String)) :
    (∃ table, ofGroups clash groups = .ok table ∧ Holds table (entriesOf groups)) ∨
      ∃ file, FirstRepeat [] (groups.flatMap Prod.snd) file ∧
        ofGroups clash groups = .error (.invariantViolation (clash file)) :=
  holds_empty.foldlM_enter clash groups

theorem map_fst_entriesOf (groups : List (α × List String)) :
    (entriesOf groups).map Prod.fst = groups.flatMap Prod.snd := by
  simp [entriesOf, List.map_flatMap, Function.comp_def]

/-- A table can be filled exactly if no file occurs twice. -/
theorem ofGroups_eq_ok_iff (clash : String → Violation) (groups : List (α × List String)) :
    (∃ table, ofGroups clash groups = .ok table) ↔ (groups.flatMap Prod.snd).Nodup := by
  rcases ofGroups_holds_or_error clash groups with ⟨table, hok, hholds⟩ | ⟨file, hrepeat, herror⟩
  · rw [← map_fst_entriesOf]
    exact ⟨fun _ => hholds.nodup, fun _ => ⟨table, hok⟩⟩
  · constructor
    · rintro ⟨table, hok⟩
      rw [herror] at hok
      cases hok
    · intro hnodup
      exact absurd hnodup hrepeat.not_nodup

theorem holds_of_ofGroups {clash : String → Violation} {groups : List (α × List String)}
    (hok : ofGroups clash groups = .ok table) : Holds table (entriesOf groups) := by
  rcases ofGroups_holds_or_error clash groups with ⟨other, hother, hholds⟩ | ⟨_, _, herror⟩
  · rw [hok] at hother
    cases hother
    exact hholds
  · rw [hok] at herror
    cases herror

theorem Holds.size_eq_flatMap {groups : List (α × List String)}
    (h : Holds table (entriesOf groups)) : table.size = (groups.flatMap Prod.snd).length := by
  rw [h.size_eq, ← map_fst_entriesOf, List.length_map]

theorem mem_entriesOf {groups : List (α × List String)} {file : String} {value : α} :
    (file, value) ∈ entriesOf groups ↔ ∃ group ∈ groups, group.1 = value ∧ file ∈ group.2 := by
  simp only [entriesOf, List.mem_flatMap, List.mem_map, Prod.mk.injEq]
  constructor
  · rintro ⟨group, hgroup, _, hfile, rfl, rfl⟩
    exact ⟨group, hgroup, rfl, hfile⟩
  · rintro ⟨group, hgroup, rfl, hfile⟩
    exact ⟨group, hgroup, file, hfile, rfl, rfl⟩

end IncludeGraph.FileTable
