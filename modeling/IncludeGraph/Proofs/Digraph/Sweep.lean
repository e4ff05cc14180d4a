import Mathlib.Logic.Relation
import IncludeGraph.Proofs.Digraph.Reachability

/-!
# Sweeping

What a sweep over any neighbour table leaves behind.  A walk gathers exactly what its
root leads to outside the groups so far (`Gathering`), and a sweep leaves a list of
such groups (`Swept`) that covers all its roots.
-/

namespace IncludeGraph.Digraph

variable {n : Nat} {links : Vector (List (Fin n)) n}

/-- A table leads from one node to another by zero or more of its entries. -/
abbrev Leads (links : Vector (List (Fin n)) n) : Fin n → Fin n → Prop :=
  Relation.ReflTransGen fun v w => w ∈ links.get v

/-! ## Claiming nodes -/

/-- Claimed nodes are the unassigned ones of the list; they are marked and go on the
stack. -/
theorem claim_spec (assigned : Marks n) (stack vs : List (Fin n)) :
    ∃ claimed, (claim assigned stack vs).2 = claimed ++ stack ∧ claimed.Nodup ∧
      (∀ v, v ∈ claimed ↔ v ∈ vs ∧ assigned.get v = false) ∧
      ∀ v, (claim assigned stack vs).1.get v = true ↔ assigned.get v = true ∨ v ∈ vs := by
  induction vs generalizing assigned stack with
  | nil => exact ⟨[], rfl, List.nodup_nil, by simp, by simp [claim]⟩
  | cons u vs ih =>
      rw [claim]
      split
      · rename_i hassigned
        obtain ⟨claimed, hstack, hnodup, hclaimed, hmarks⟩ := ih assigned stack
        refine ⟨claimed, hstack, hnodup, fun v => ?_, fun v => ?_⟩
        · rw [hclaimed v, List.mem_cons]
          by_cases hv : v = u
          · simp [hv, hassigned]
          · simp [hv]
        · rw [hmarks v, List.mem_cons]
          by_cases hv : v = u
          · simp [hv, hassigned]
          · simp [hv]
      · rename_i hassigned
        obtain ⟨claimed, hstack, hnodup, hclaimed, hmarks⟩ :=
          ih (assigned.set u true u.isLt) (u :: stack)
        have hfresh : u ∉ claimed := by
          rw [hclaimed u, vector_get_set, if_pos rfl]
          simp
        refine ⟨claimed ++ [u], by simp [hstack], ?_, fun v => ?_, fun v => ?_⟩
        · exact List.nodup_append.mpr ⟨hnodup, by simp, by grind⟩
        · rw [List.mem_append, hclaimed v, vector_get_set, List.mem_singleton, List.mem_cons]
          by_cases hv : u = v
          · subst hv
            simpa using hassigned
          · simp [hv, Ne.symm hv]
        · rw [hmarks v, Marks.get_set_iff, List.mem_cons, or_assoc, or_left_comm]

/-- The invariant of a walk from `root` that may enter the nodes outside `before`. -/
structure Gathering (links : Vector (List (Fin n)) n) (before : Marks n) (root : Fin n)
    (assigned : Marks n) (stack gathered : List (Fin n)) : Prop where
  assigned_iff : ∀ v, assigned.get v = true ↔
    before.get v = true ∨ v ∈ stack ∨ v ∈ gathered
  nodup : (stack ++ gathered).Nodup
  fresh : ∀ v, v ∈ stack ∨ v ∈ gathered → before.get v = false
  root_mem : root ∈ stack ∨ root ∈ gathered
  led : ∀ v, v ∈ stack ∨ v ∈ gathered → Leads links root v
  explored : ∀ v ∈ gathered, ∀ w ∈ links.get v, assigned.get w = true

namespace Gathering

variable {before assigned : Marks n} {root v : Fin n} {stack gathered : List (Fin n)}

theorem start (hroot : before.get root = false) :
    Gathering links before root (before.set root true root.isLt) [root] [] where
  assigned_iff v := by
    rw [Marks.get_set_iff, or_comm]
    simp
  nodup := by simp
  fresh v hv := by
    rcases hv with hv | hv
    · rw [List.mem_singleton.mp hv]
      exact hroot
    · exact absurd hv List.not_mem_nil
  root_mem := .inl List.mem_cons_self
  led v hv := by
    rcases hv with hv | hv
    · rw [List.mem_singleton.mp hv]
    · exact absurd hv List.not_mem_nil
  explored := by simp

/-- The node on top of the stack is gathered and claims its unassigned neighbours. -/
theorem pop (h : Gathering links before root assigned (v :: stack) gathered) :
    Gathering links before root (claim assigned stack (links.get v)).1
      (claim assigned stack (links.get v)).2 (v :: gathered) := by
  obtain ⟨claimed, hstack, hnodup, hclaimed, hmarks⟩ :=
    claim_spec assigned stack (links.get v)
  have hled : Leads links root v := h.led v (.inl List.mem_cons_self)
  have hnew : ∀ w ∈ claimed, ¬ (before.get w = true ∨ w ∈ v :: stack ∨ w ∈ gathered) := by
    intro w hw hassigned
    have hmarked := (h.assigned_iff w).mpr hassigned
    rw [((hclaimed w).mp hw).2] at hmarked
    exact Bool.false_ne_true hmarked
  have hcases : ∀ w, w ∈ claimed ++ stack ∨ w ∈ v :: gathered ↔
      w ∈ claimed ∨ w ∈ v :: stack ∨ w ∈ gathered := by
    intro w
    simp only [List.mem_append, List.mem_cons]
    tauto
  rw [hstack]
  refine {
    assigned_iff := ?_
    nodup := ?_
    fresh := ?_
    root_mem := (hcases root).mpr (.inr h.root_mem)
    led := ?_
    explored := ?_
  }
  · intro w
    rw [hmarks w, h.assigned_iff w, hcases w, hclaimed w]
    by_cases hw : assigned.get w = true
    · have hold := (h.assigned_iff w).mp hw
      exact ⟨fun _ => hold.imp_right .inr, fun _ => .inl hold⟩
    · have hnone := mt (h.assigned_iff w).mpr hw
      rw [not_or, not_or] at hnone
      simp only [hnone, or_false, Bool.eq_false_iff.mpr hw, and_true]
  · have hold : (v :: (stack ++ gathered)).Nodup := h.nodup
    rw [List.append_assoc]
    refine List.nodup_append.mpr ⟨hnodup, List.perm_middle.nodup_iff.mpr hold, ?_⟩
    intro w hw x hx hwx
    subst hwx
    apply hnew w hw
    simp only [List.mem_append, List.mem_cons] at hx ⊢
    tauto
  · intro w hw
    rcases (hcases w).mp hw with hw | hw
    · simpa using mt Or.inl (hnew w hw)
    · exact h.fresh w hw
  · intro w hw
    rcases (hcases w).mp hw with hw | hw
    · exact hled.tail ((hclaimed w).mp hw).1
    · exact h.led w hw
  · intro u hu w hw
    rw [hmarks w]
    rcases List.mem_cons.mp hu with rfl | hu
    · exact .inr hw
    · exact .inl (h.explored u hu w hw)

/-- A walk ends with an empty stack; the group is what it has gathered. -/
theorem run (h : Gathering links before root assigned stack gathered) :
    Gathering links before root (gather links assigned stack gathered).1 []
      (gather links assigned stack gathered).2.reverse := by
  fun_induction gather links assigned stack gathered with
  | case1 assigned gathered => simpa using h
  | case2 assigned gathered v stack next ih => exact ih h.pop

/-- Where `before` leads only to itself, a group holds all that its root leads to
outside `before`. -/
theorem mem_iff {group : List (Fin n)} (h : Gathering links before root assigned [] group)
    (hclosed : ∀ v, before.get v = true → ∀ w ∈ links.get v, before.get w = true) :
    v ∈ group ↔ before.get v = false ∧ Leads links root v := by
  constructor
  · intro hv
    exact ⟨h.fresh v (.inr hv), h.led v (.inr hv)⟩
  · rintro ⟨hfresh, hled⟩
    have hfound : v ∈ group ∨ before.get v = true := by
      clear hfresh
      induction hled with
      | refl => exact .inl (h.root_mem.resolve_left List.not_mem_nil)
      | tail _ hnext ih =>
          rcases ih with hgroup | hbefore
          · have hmarked := (h.assigned_iff _).mp (h.explored _ hgroup _ hnext)
            simpa [or_comm] using hmarked
          · exact .inr (hclosed _ hbefore _ hnext)
    rw [hfresh] at hfound
    exact hfound.resolve_right Bool.false_ne_true

end Gathering

/-- The group of a root that has not been assigned yet. -/
theorem gather_spec (before : Marks n) {root : Fin n} (hroot : before.get root = false)
    (hclosed : ∀ v, before.get v = true → ∀ w ∈ links.get v, before.get w = true) :
    let found := gather links (before.set root true root.isLt) [root] []
    found.2.Nodup ∧ root ∈ found.2 ∧
      (∀ v, v ∈ found.2 ↔ before.get v = false ∧ Leads links root v) ∧
      ∀ v, found.1.get v = true ↔ before.get v = true ∨ v ∈ found.2 := by
  intro found
  have hend : Gathering links before root found.1 [] found.2.reverse :=
    (Gathering.start hroot).run
  refine ⟨List.nodup_reverse.mp hend.nodup, ?_, fun v => ?_, fun v => ?_⟩
  · exact List.mem_reverse.mp (hend.root_mem.resolve_left List.not_mem_nil)
  · rw [← List.mem_reverse]
    exact hend.mem_iff hclosed
  · simpa using hend.assigned_iff v

/-! ## Sweeping all roots -/

/-- The groups of a sweep, the last one first.  The roots that come before the root of
a group have gone to earlier groups. -/
def Swept (links : Vector (List (Fin n)) n) (roots : List (Fin n)) : List (List (Fin n)) → Prop
  | [] => True
  | group :: earlier =>
      group.Nodup ∧
      (∃ root passed ahead, root ∈ group ∧
        (∀ v, v ∈ group ↔ v ∉ earlier.flatten ∧ Leads links root v) ∧
        roots = passed ++ root :: ahead ∧ ∀ v ∈ passed, v ∈ earlier.flatten) ∧
      Swept links roots earlier

namespace Swept

variable {roots : List (Fin n)} {groups : List (List (Fin n))}

/-- The groups of a sweep lead only to each other. -/
theorem closed (h : Swept links roots groups) {v w : Fin n} (hv : v ∈ groups.flatten)
    (hw : w ∈ links.get v) : w ∈ groups.flatten := by
  induction groups with
  | nil => exact absurd hv List.not_mem_nil
  | cons group earlier ih =>
      obtain ⟨_, ⟨root, _, _, _, hgroup, _⟩, hearlier⟩ := h
      rw [List.flatten_cons, List.mem_append] at hv ⊢
      by_cases hold : w ∈ earlier.flatten
      · exact .inr hold
      rcases hv with hv | hv
      · exact .inl ((hgroup w).mpr ⟨hold, ((hgroup v).mp hv).2.tail hw⟩)
      · exact .inr (ih hearlier hv)

theorem closed_leads (h : Swept links roots groups) {v w : Fin n} (hv : v ∈ groups.flatten)
    (hled : Leads links v w) : w ∈ groups.flatten := by
  induction hled with
  | refl => exact hv
  | tail _ hnext ih => exact h.closed ih hnext

theorem nodup_flatten (h : Swept links roots groups) : groups.flatten.Nodup := by
  induction groups with
  | nil => exact List.nodup_nil
  | cons group earlier ih =>
      obtain ⟨hnodup, ⟨root, _, _, _, hgroup, _⟩, hearlier⟩ := h
      refine List.nodup_append.mpr ⟨hnodup, ih hearlier, ?_⟩
      intro v hv w hw hvw
      exact ((hgroup v).mp hv).1 (hvw ▸ hw)

/-- An entry never leads from an earlier group of a sweep to a later one. -/
theorem pairwise (h : Swept links roots groups) :
    groups.Pairwise fun later earlier => ∀ v ∈ earlier, ∀ w ∈ later, w ∉ links.get v := by
  induction groups with
  | nil => exact .nil
  | cons group before ih =>
      obtain ⟨_, ⟨_, _, _, _, hgroup, _⟩, hbefore⟩ := h
      refine List.pairwise_cons.mpr ⟨?_, ih hbefore⟩
      intro earlier hearlier v hv w hw hentry
      have hv' : v ∈ before.flatten := List.mem_flatten_of_mem hearlier hv
      exact ((hgroup w).mp hw).1 (hbefore.closed hv' hentry)

/-- Sweeping further roots adds groups until all of them are covered. -/
theorem run (passed ahead : List (Fin n)) {state : Marks n × List (List (Fin n))}
    (hroots : roots = passed ++ ahead) (h : Swept links roots state.2)
    (hmarks : ∀ v, state.1.get v = true ↔ v ∈ state.2.flatten)
    (hpassed : ∀ v ∈ passed, v ∈ state.2.flatten) :
    Swept links roots (ahead.foldl (gatherFrom links) state).2 ∧
      ∀ v ∈ roots, v ∈ (ahead.foldl (gatherFrom links) state).2.flatten := by
  induction ahead generalizing passed state with
  | nil =>
      rw [List.append_nil] at hroots
      exact ⟨h, hroots ▸ hpassed⟩
  | cons root ahead ih =>
      have hsplit : roots = (passed ++ [root]) ++ ahead := by simp [hroots]
      rw [List.foldl_cons, gatherFrom]
      split
      · rename_i hassigned
        refine ih _ hsplit h hmarks ?_
        intro v hv
        rcases List.mem_append.mp hv with hv | hv
        · exact hpassed v hv
        · rw [List.mem_singleton.mp hv]
          exact (hmarks root).mp hassigned
      · rename_i hassigned
        have hclosed : ∀ v, state.1.get v = true → ∀ w ∈ links.get v, state.1.get w = true := by
          intro v hv w hw
          exact (hmarks w).mpr (h.closed ((hmarks v).mp hv) hw)
        obtain ⟨hnodup, hroot, hgroup, hassign⟩ :=
          gather_spec state.1 (by simpa using hassigned) hclosed
        have hfresh : ∀ v, state.1.get v = false ↔ v ∉ state.2.flatten := by
          intro v
          rw [← hmarks v, Bool.not_eq_true]
        simp only [hfresh] at hgroup
        refine ih _ hsplit ⟨hnodup, ⟨root, passed, ahead, hroot, hgroup, hroots, hpassed⟩, h⟩ ?_ ?_
        · intro v
          rw [hassign v, hmarks v, List.flatten_cons, List.mem_append, or_comm]
        · intro v hv
          rw [List.flatten_cons, List.mem_append]
          rcases List.mem_append.mp hv with hv | hv
          · exact .inr (hpassed v hv)
          · exact .inl (List.mem_singleton.mp hv ▸ hroot)

end Swept

theorem swept_and_covered (links : Vector (List (Fin n)) n) (roots : List (Fin n)) :
    Swept links roots (sweep links roots).reverse ∧
      ∀ v ∈ roots, v ∈ (sweep links roots).reverse.flatten := by
  let start : Marks n × List (List (Fin n)) := (Marks.none, [])
  have hstart : Swept links roots start.2 := trivial
  rw [sweep, List.reverse_reverse]
  exact hstart.run [] roots rfl (by simp) (by simp)

/-- A sweep leaves groups that lead only to themselves and to earlier groups. -/
theorem swept_sweep (links : Vector (List (Fin n)) n) (roots : List (Fin n)) :
    Swept links roots (sweep links roots).reverse :=
  (swept_and_covered links roots).1

theorem nodup_sweep (links : Vector (List (Fin n)) n) (roots : List (Fin n)) :
    (sweep links roots).flatten.Nodup :=
  (List.reverse_perm _).flatten.nodup_iff.mp (swept_sweep links roots).nodup_flatten

/-- Later groups of a sweep may lead to earlier ones, but not the other way. -/
theorem pairwise_sweep (links : Vector (List (Fin n)) n) (roots : List (Fin n)) :
    (sweep links roots).Pairwise fun earlier later =>
      ∀ v ∈ earlier, ∀ w ∈ later, w ∉ links.get v :=
  List.pairwise_reverse.mp (swept_sweep links roots).pairwise

/-- Every root is in some group. -/
theorem mem_sweep {roots : List (Fin n)} {v : Fin n} (hv : v ∈ roots) :
    v ∈ (sweep links roots).flatten :=
  (List.reverse_perm _).flatten.mem_iff.mp ((swept_and_covered links roots).2 v hv)

end IncludeGraph.Digraph
