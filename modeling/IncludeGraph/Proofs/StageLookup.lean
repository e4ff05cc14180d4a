import Mathlib.Order.Bounds.Basic
import IncludeGraph.Proofs.Order
import IncludeGraph.Proofs.Staging
import IncludeGraph.Proofs.Verification

/-!
# Looking a file up in a plan

`stageOf` looks a file up in one stage after the other, in each of them by bisection.
Bisection narrows a range of entries down to a single one.  `Brackets` says what the range is
kept for: behind it, all entries are greater than the name, and its first entry is not, unless
it is the first of all.  In a sorted list the entry that is left is then the name, if any
entry is.  Staging sorts every stage, so that in its plans a file is found in the first stage
that lists it.
-/

namespace IncludeGraph.Plan

/-! ## Bisection -/

section Bisection

variable {entries : Array String} {name : String} {base size : Nat}

/-- The last entry that is not greater than the name is one of the `size` entries from `base`
on, unless all entries are greater. -/
structure Brackets (entries : Array String) (name : String) (base size : Nat) : Prop where
  size_pos : 0 < size
  le_size : base + size ≤ entries.size
  first_le : base ≠ 0 → entries.getD base "" ≤ name
  lt_behind : ∀ i, base + size ≤ i → i < entries.size → name < entries.getD i ""

/-- No entry is greater than one that comes after it. -/
def Ascending (entries : Array String) : Prop :=
  ∀ i j, i ≤ j → j < entries.size → entries.getD i "" ≤ entries.getD j ""

theorem ascending_toArray {entries : List String} (hsorted : entries.Pairwise (· ≤ ·)) :
    Ascending entries.toArray := by
  intro i j hij hj
  have hj' : j < entries.length := hj
  rcases Nat.eq_or_lt_of_le hij with rfl | hlt
  · exact le_refl _
  · have hle := List.pairwise_iff_getElem.mp hsorted i j (hlt.trans hj') hj' hlt
    simpa [Array.getD, hlt.trans hj', hj'] using hle

namespace Brackets

/-- The whole of a list that is not empty. -/
theorem start (hpos : 0 < entries.size) : Brackets entries name 0 entries.size where
  size_pos := hpos
  le_size := (Nat.zero_add _).le
  first_le := fun hne => absurd rfl hne
  lt_behind := fun _ hle hlt => absurd hlt (Nat.not_lt.mpr ((Nat.zero_add _).ge.trans hle))

/-- One comparison halves the range. -/
theorem step (h : Brackets entries name base size) (hsorted : Ascending entries)
    (hlarge : 1 < size) :
    Brackets entries name
      (if decide (name < entries.getD (base + size / 2) "") then base else base + size / 2)
      (size - size / 2) := by
  obtain ⟨hpos, hsize, hfirst, hbehind⟩ := h
  -- The halves may differ by one, so that a range kept below the middle reaches behind it.
  by_cases hgreater : name < entries.getD (base + size / 2) ""
  · rw [if_pos (decide_eq_true hgreater)]
    refine ⟨by omega, by omega, hfirst, fun i hi hlt => ?_⟩
    exact hgreater.trans_le (hsorted _ i (by omega) hlt)
  · rw [if_neg (by simpa using hgreater)]
    exact ⟨by omega, by omega, fun _ => not_lt.mp hgreater, fun i hi => hbehind i (by omega)⟩

/-- Bisection ends at a range of a single entry. -/
theorem bisect (h : Brackets entries name base size) (hsorted : Ascending entries) :
    Brackets entries name (Plan.bisect entries name base size) 1 := by
  fun_induction Plan.bisect entries name base size with
  | case1 base size hlarge half middle next ih => exact ih (h.step hsorted hlarge)
  | case2 base size hsmall =>
      have hsize : size = 1 := by have := h.size_pos; omega
      rwa [hsize] at h

/-- The single entry of a range is the name, if any entry is. -/
theorem getD_eq (h : Brackets entries name base 1) (hsorted : Ascending entries) {i : Nat}
    (hi : i < entries.size) (hname : entries.getD i "" = name) :
    entries.getD base "" = name := by
  have hle : i ≤ base := by
    by_contra hbehind
    exact (h.lt_behind i (by omega) hi).ne hname.symm
  rcases Nat.eq_or_lt_of_le hle with rfl | hlt
  · exact hname
  · have hbase : base < entries.size := Nat.lt_of_succ_le h.le_size
    exact le_antisymm (h.first_le (by omega)) (hname.ge.trans (hsorted i base hle hbase))

end Brackets

end Bisection

/-- Bisection finds every name of a sorted list, and no other. -/
theorem findSorted_iff_mem {entries : List String} (hsorted : entries.Pairwise (· ≤ ·))
    (name : String) : findSorted entries name = true ↔ name ∈ entries := by
  rw [findSorted, beq_iff_eq, List.getElem?_toArray]
  constructor
  · exact List.mem_of_getElem?
  · intro hname
    obtain ⟨i, hi, hget⟩ := List.mem_iff_getElem.mp hname
    have hascending := ascending_toArray hsorted
    have hwhole : Brackets entries.toArray name 0 entries.toArray.size :=
      .start (Nat.zero_lt_of_lt hi)
    have hbrackets := hwhole.bisect hascending
    have hfound := hbrackets.getD_eq hascending hi (by simp [Array.getD, hi, hget])
    have hlt : Plan.bisect entries.toArray name 0 entries.toArray.size < entries.length :=
      Nat.lt_of_succ_le hbrackets.le_size
    rw [Array.getD_eq_getD_getElem?, List.getElem?_toArray, List.getElem?_eq_getElem hlt,
      Option.getD_some] at hfound
    rw [List.getElem?_eq_getElem hlt, hfound]

/-! ## The stage of a file -/

variable {p : Plan} {file : String} {k : Nat}

/-- The names of every stage are in order.  A name may be listed more than once, in one stage
or in several. -/
def SortedStages (p : Plan) : Prop := ∀ stage ∈ p.stages, stage.Pairwise (· ≤ ·)

/-- In a plan of sorted stages, a file is found in the first stage that lists it. -/
theorem stageOf_eq_some_iff (hsorted : p.SortedStages) :
    p.stageOf file = some k ↔ p.Places k file ∧ ∀ l < k, ¬ p.Places l file := by
  have hfound : ∀ l (hl : l < p.stages.length),
      findSorted p.stages[l] file = true ↔ p.Places l file := by
    intro l hl
    rw [findSorted_iff_mem (hsorted _ (List.getElem_mem hl)), Places,
      List.getElem?_eq_getElem hl]
    simp
  rw [stageOf, List.findIdx?_eq_some_iff_getElem]
  constructor
  · rintro ⟨hk, hplace, hearlier⟩
    exact ⟨(hfound k hk).mp hplace, fun l hl => mt (hfound l (hl.trans hk)).mpr (hearlier l hl)⟩
  · rintro ⟨hplace, hearlier⟩
    obtain ⟨stage, hstage, _⟩ := id hplace
    obtain ⟨hk, _⟩ := List.getElem?_eq_some_iff.mp hstage
    exact ⟨hk, (hfound k hk).mpr hplace, fun l hl =>
      mt (hfound l (hl.trans hk)).mp (hearlier l hl)⟩

/-- In a plan that lists no file twice, that is the only one. -/
theorem stageOf_eq_some_iff_places (hsorted : p.SortedStages)
    (hnodup : p.stages.flatten.Nodup) : p.stageOf file = some k ↔ p.Places k file := by
  rw [stageOf_eq_some_iff hsorted]
  constructor
  · exact And.left
  · intro hplace
    exact ⟨hplace, fun l hlt hother => hlt.ne (hother.unique hnodup hplace)⟩

theorem stageOf_eq_none_iff (hsorted : p.SortedStages) :
    p.stageOf file = none ↔ ∀ stage ∈ p.stages, file ∉ stage := by
  rw [stageOf, List.findIdx?_eq_none_iff]
  refine forall₂_congr fun stage hstage => ?_
  rw [← findSorted_iff_mem (hsorted stage hstage), Bool.not_eq_true]

/-! ## Plans that staging makes -/

/-- Staging sorts the files of every round. -/
theorem sortedStages_of_ofCondensed {c : Condensed} (hstaged : ofCondensed c = .ok p) :
    p.SortedStages := by
  rcases ofCondensed_ok_or_stalled c with ⟨count, hok, _⟩ | ⟨_, hstalled, _⟩
  · obtain rfl := Except.ok.inj (hok.symm.trans hstaged)
    intro stage hstage
    obtain ⟨d, _, rfl⟩ := List.mem_map.mp hstage
    exact Text.pairwise_sortNames _
  · exact absurd (hstalled.symm.trans hstaged) nofun

/-- Every plan that staging makes of a condensed graph has sorted stages.  In any such plan,
a look-up gives the least number of a stage that lists the name, and none exactly if no stage
lists it. -/
theorem stageOf_finds_first :
    (∀ (c : Condensed) (p : Plan), ofCondensed c = .ok p → p.SortedStages) ∧
      ∀ p : Plan, p.SortedStages → ∀ file,
        (∀ k, p.stageOf file = some k ↔ IsLeast {l | p.Places l file} k) ∧
          (p.stageOf file = none ↔ ∀ stage ∈ p.stages, file ∉ stage) := by
  refine ⟨fun c p => sortedStages_of_ofCondensed, fun p hsorted file => ⟨fun k => ?_, ?_⟩⟩
  · rw [stageOf_eq_some_iff hsorted]
    refine and_congr_right fun _ => ⟨fun hearlier l hplace => ?_, fun hleast l hlt hplace => ?_⟩
    · exact Nat.le_of_not_lt fun hlt => hearlier l hlt hplace
    · exact hlt.not_ge (hleast hplace)
  · exact stageOf_eq_none_iff hsorted

/-- A plan with an empty stage that repeats names within a stage and in other stages. -/
def repeats : Plan := ⟨[["b.h", "b.h", "d.h"], [], ["a.h", "d.h", "e.h"], ["b.h"]]⟩

theorem stageOf_finds_first_repeats :
    (∃ p, ofCondensed doubledEdge = .ok p ∧ p.SortedStages) ∧ repeats.SortedStages ∧
      repeats.stageOf "b.h" = some 0 ∧ repeats.stageOf "e.h" = some 2 ∧
        repeats.stageOf "c.h" = none := by
  obtain ⟨hstaged, hfinds⟩ := stageOf_finds_first
  have hacyclic : ¬ doubledEdge.links.HasCycle :=
    Digraph.not_hasCycle_of_rank (fun v => 3 - v) (by decide +kernel)
  obtain ⟨count, hok, _⟩ := ofCondensed_of_acyclic doubledEdge hacyclic
  have hsorted : repeats.SortedStages := by simp [SortedStages, repeats]
  refine ⟨⟨_, hok, hstaged _ _ hok⟩, hsorted, ?_, ?_, ?_⟩
  · refine ((hfinds repeats hsorted "b.h").1 0).mpr ⟨⟨_, rfl, by decide⟩, ?_⟩
    exact fun l _ => Nat.zero_le l
  · refine ((hfinds repeats hsorted "e.h").1 2).mpr ⟨⟨_, rfl, by decide⟩, ?_⟩
    rintro l ⟨stage, hstage, hlisted⟩
    by_contra hlt
    have hnot : ∀ l < 2, ∀ stage ∈ repeats.stages[l]?, "e.h" ∉ stage := by decide
    exact hnot l (Nat.lt_of_not_le hlt) stage hstage hlisted
  · exact (hfinds repeats hsorted "c.h").2.mpr (by decide)

end IncludeGraph.Plan
