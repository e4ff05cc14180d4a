import IncludeGraph.Plan
import IncludeGraph.Proofs.Digraph.Chain
import IncludeGraph.Proofs.Order
import IncludeGraph.Proofs.Sequences

/-!
# Staging round by round

`Settling` is the invariant of the rounds: before round `d` the unsettled components
are those with a chain of `d` edges, every count is the number of edges to unsettled
components, and the ready components are those of level `d`.  Each round preserves it,
also where parallel edges make a count larger than the number of dependencies and
where cycles keep some components from ever becoming ready.
-/

namespace IncludeGraph.Plan

open IncludeGraph.Digraph

variable {n : Nat}

/-! ## One round -/

/-- Lowering counts along a list takes off one for each occurrence. -/
theorem get_foldl_release (dependents : List (Fin n)) (state : Vector Nat n × Array (Fin n))
    (v : Fin n) :
    (dependents.foldl release state).1.get v = state.1.get v - dependents.count v := by
  induction dependents generalizing state with
  | nil => rfl
  | cons u dependents ih =>
      rw [List.foldl_cons, ih, release, vector_get_set]
      by_cases huv : u = v
      · subst huv
        rw [if_pos rfl, List.count_cons_self]
        omega
      · rw [if_neg huv, List.count_cons_of_ne huv]

/-- The nodes that become ready are those that the list names as often as they count. -/
theorem ready_foldl_release (dependents : List (Fin n)) (pending : Vector Nat n)
    (ready : Array (Fin n)) (hle : ∀ v, dependents.count v ≤ pending.get v) :
    ∃ new, (dependents.foldl release (pending, ready)).2.toList = ready.toList ++ new ∧
      new.Nodup ∧ ∀ v, v ∈ new ↔ v ∈ dependents ∧ dependents.count v = pending.get v := by
  induction dependents generalizing pending ready with
  | nil => exact ⟨[], by simp, List.nodup_nil, by simp⟩
  | cons u dependents ih =>
      have hu := hle u
      rw [List.count_cons_self] at hu
      have hnext : ∀ v, dependents.count v ≤
          (pending.set u (pending.get u - 1) u.isLt).get v := by
        intro v
        have hv := hle v
        rw [vector_get_set]
        by_cases huv : u = v
        · subst huv
          rw [if_pos rfl]
          omega
        · rw [if_neg huv]
          rwa [List.count_cons_of_ne huv] at hv
      have hother : ∀ v, u ≠ v → (v ∈ dependents ∧ dependents.count v =
            (pending.set u (pending.get u - 1) u.isLt).get v ↔
          v ∈ u :: dependents ∧ (u :: dependents).count v = pending.get v) := by
        intro v huv
        rw [vector_get_set, if_neg huv, List.count_cons_of_ne huv, List.mem_cons]
        simp [Ne.symm huv]
      rw [List.foldl_cons, release]
      by_cases hzero : pending.get u - 1 = 0
      · -- The last of the edges of `u`: the rest of the list does not name it again.
        obtain ⟨new, hnew, hnodup, hmem⟩ := ih _ (ready.push u) hnext
        have hlast : u ∉ dependents := List.count_eq_zero.mp (by omega)
        refine ⟨u :: new, ?_, ?_, fun v => ?_⟩
        · rw [if_pos hzero, hnew, Array.toList_push, List.append_assoc, List.singleton_append]
        · exact List.nodup_cons.mpr ⟨fun hin => hlast ((hmem u).mp hin).1, hnodup⟩
        · by_cases huv : u = v
          · subst huv
            rw [List.count_cons_self, List.count_eq_zero.mpr hlast]
            simp only [List.mem_cons_self, true_and, true_iff]
            omega
          · rw [← hother v huv, ← hmem v, List.mem_cons]
            simp [Ne.symm huv]
      · obtain ⟨new, hnew, hnodup, hmem⟩ := ih _ ready hnext
        refine ⟨new, by rw [if_neg hzero, hnew], hnodup, fun v => ?_⟩
        rw [hmem v]
        by_cases huv : u = v
        · subst huv
          rw [vector_get_set, if_pos rfl, List.count_cons_self, ← List.count_pos_iff]
          simp only [List.mem_cons_self, true_and]
          omega
        · exact hother v huv

theorem settle_eq_foldl (dependents : Vector (List (Fin n)) n) (pending : Vector Nat n)
    (group : List (Fin n)) :
    settle dependents pending group =
      (group.flatMap dependents.get).foldl release (pending, #[]) := by
  rw [settle, List.foldl_flatMap]

/-- The state before a round. -/
structure Settling (g : Digraph n) (round : Nat) (pending : Vector Nat n) (ready : List (Fin n))
    (settled : Nat) : Prop where
  /-- Every count is the number of edges to components that are not settled. -/
  get_pending : ∀ v, pending.get v = (g.successors v).countP fun w => g.Chain round w
  nodup : ready.Nodup
  mem_ready : ∀ v, v ∈ ready ↔ g.LongestChain v round
  settled_eq : settled = (List.finRange n).countP fun v => ¬ g.Chain round v

theorem Settling.start (g : Digraph n) :
    Settling g 0 (g.outgoing.map List.length)
      ((List.finRange n).filter fun v => (g.outgoing.map List.length).get v == 0) 0 := by
  have hcount : ∀ v, (g.outgoing.map List.length).get v = (g.successors v).length := by
    intro v
    rw [← get_outgoing]
    exact Vector.getElem_map _ v.isLt
  refine {
    get_pending := ?_
    nodup := (List.nodup_finRange n).filter _
    mem_ready := ?_
    settled_eq := ?_
  }
  · intro v
    rw [hcount v]
    exact (List.countP_eq_length.mpr fun w _ => decide_eq_true trivial).symm
  · intro v
    rw [List.mem_filter, hcount v, beq_iff_eq, List.length_eq_zero_iff, longestChain_zero_iff,
      List.eq_nil_iff_forall_not_mem]
    simp [mem_successors]
  · simp [Chain]

namespace Settling

variable {g : Digraph n} {round : Nat} {pending : Vector Nat n} {ready : List (Fin n)}
  {settled : Nat}

theorem ready_perm (h : Settling g round pending ready settled) : ready.Perm (g.level round) := by
  apply (List.perm_ext_iff_of_nodup h.nodup (g.nodup_level round)).mpr
  intro v
  rw [h.mem_ready v, mem_level]

/-- The edges that a round takes off a count are those to the components it settles. -/
theorem count_dependents (h : Settling g round pending ready settled) (v : Fin n) :
    (ready.flatMap g.incoming.get).count v =
      (g.successors v).countP fun w => g.LongestChain w round := by
  have hincoming : g.incoming.get = g.predecessors := funext g.get_incoming
  rw [hincoming, count_flatMap_predecessors h.nodup]
  simp only [h.mem_ready]

/-- Before a round, the edges of a count lead to components that this round settles or
that stay unsettled. -/
theorem get_pending_eq_add (h : Settling g round pending ready settled) (v : Fin n) :
    pending.get v = (g.successors v).countP (fun w => g.LongestChain w round) +
      (g.successors v).countP (fun w => g.Chain (round + 1) w) := by
  rw [h.get_pending v]
  apply countP_eq_add
  · intro w
    simp only [decide_eq_true_eq, longestChain_iff]
    constructor
    · intro hchain
      by_cases hlonger : g.Chain (round + 1) w
      · exact .inr hlonger
      · exact .inl ⟨hchain, hlonger⟩
    · rintro (⟨hchain, _⟩ | hlonger)
      · exact hchain
      · exact hlonger.of_le (Nat.le_succ round)
  · intro w hw
    simpa using (longestChain_iff.mp (of_decide_eq_true hw)).2

/-- A round settles the components whose longest chain is as long as the round. -/
theorem settled_add_length (h : Settling g round pending ready settled) :
    settled + ready.length = (List.finRange n).countP fun v => ¬ g.Chain (round + 1) v := by
  have hready : ready.length = (List.finRange n).countP (fun v => g.LongestChain v round) := by
    rw [h.ready_perm.length_eq, level, List.countP_eq_length_filter]
  rw [h.settled_eq, hready]
  symm
  apply countP_eq_add
  · intro v
    simp only [decide_eq_true_eq]
    exact not_chain_succ_iff
  · intro v hshort
    rw [decide_eq_false_iff_not]
    exact fun hlongest => of_decide_eq_true hshort hlongest.1

/-- A round takes no more off a count than there is. -/
theorem count_le_pending (h : Settling g round pending ready settled) (v : Fin n) :
    (ready.flatMap g.incoming.get).count v ≤ pending.get v := by
  rw [h.count_dependents v, h.get_pending_eq_add v]
  exact Nat.le_add_right _ _

/-- A round settles one level and makes the next one ready. -/
theorem step (h : Settling g round pending ready settled) :
    Settling g (round + 1) (settle g.incoming pending ready).1
      (settle g.incoming pending ready).2.toList (settled + ready.length) := by
  rw [settle_eq_foldl]
  obtain ⟨new, hnew, hnodup, hmem⟩ := ready_foldl_release _ pending #[] h.count_le_pending
  rw [hnew]
  refine {
    get_pending := ?_
    nodup := by simpa using hnodup
    mem_ready := ?_
    settled_eq := ?_
  }
  · intro v
    rw [get_foldl_release, h.count_dependents v, h.get_pending_eq_add v]
    exact Nat.add_sub_cancel_left _ _
  · intro v
    have hopen : 0 < pending.get v ↔ g.Chain (round + 1) v := by
      rw [h.get_pending v, List.countP_pos_iff]
      simp [Chain]
    have hlast : (g.successors v).countP (fun w => g.Chain (round + 1) w) = 0 ↔
        ¬ g.Chain (round + 1 + 1) v := by
      rw [List.countP_eq_zero]
      simp only [mem_successors, decide_eq_true_eq]
      constructor
      · rintro hall ⟨w, hadj, hchain⟩
        exact hall w hadj hchain
      · intro hnone w hadj hchain
        exact hnone ⟨w, hadj, hchain⟩
    have hsplit := h.get_pending_eq_add v
    rw [List.nil_append, hmem v, ← List.count_pos_iff, h.count_dependents v, longestChain_iff,
      ← hopen, ← hlast]
    omega
  · exact h.settled_add_length

/-- While components are unsettled, some component has a chain as long as the round. -/
theorem exists_chain_of_lt (h : Settling g round pending ready settled) (hlt : settled < n) :
    ∃ v, g.Chain round v := by
  by_contra hnone
  have hall : settled = n := by
    rw [h.settled_eq]
    refine (List.countP_eq_length.mpr ?_).trans (List.length_finRange)
    intro v _
    exact decide_eq_true fun hchain => hnone ⟨v, hchain⟩
  omega

/-- When all components are settled, no component has a chain as long as the round. -/
theorem not_chain_of_le (h : Settling g round pending ready settled) (hle : n ≤ settled)
    (v : Fin n) : ¬ g.Chain round v := by
  have hall : (List.finRange n).countP (fun v => ¬ g.Chain round v) =
      (List.finRange n).length := by
    refine Nat.le_antisymm List.countP_le_length ?_
    rw [← h.settled_eq, List.length_finRange]
    exact hle
  exact of_decide_eq_true (List.countP_eq_length.mp hall v (List.mem_finRange v))

/-- What is left to settle are the components with a chain as long as the round. -/
theorem unsettled_eq (h : Settling g round pending ready settled) :
    n - settled = (List.finRange n).countP fun v => g.Chain round v := by
  have hall := List.length_eq_countP_add_countP (fun v => decide (g.Chain round v))
    (l := List.finRange n)
  have hsettled := h.settled_eq
  simp only [List.length_finRange, decide_eq_true_eq] at hall hsettled
  omega

end Settling

/-! ## All rounds -/

/-- The files of the components of a level, in order. -/
def stageAt (c : Condensed) (d : Nat) : List String :=
  stageOfGroup c.components (c.links.level d)

theorem stageOfGroup_eq_of_perm {components : Vector Component n} {group other : List (Fin n)}
    (hperm : group.Perm other) : stageOfGroup components group = stageOfGroup components other :=
  Text.sortNames_eq_of_perm (hperm.flatMap_right _)

/-- The rounds end with one stage for every level, or they stall at a round whose level
is empty though some components have a chain of that length. -/
theorem rounds_ok_or_stalled (c : Condensed) (stages : Array (List String))
    {pending : Vector Nat c.size} {ready : List (Fin c.size)} {settled : Nat}
    (h : Settling c.links stages.size pending ready settled)
    (hstages : stages.toList = (List.range stages.size).map (stageAt c))
    (hlevels : ∀ d < stages.size, c.links.level d ≠ []) :
    (∃ count result, rounds c c.links.incoming pending ready settled stages = .ok result ∧
        result.toList = (List.range count).map (stageAt c) ∧
        (∀ d < count, c.links.level d ≠ []) ∧ ∀ v, ¬ c.links.Chain count v) ∨
      ∃ last, rounds c c.links.incoming pending ready settled stages =
          .error (.invariantViolation
            (.stalled ((List.finRange c.size).countP fun v => c.links.Chain last v) c.size)) ∧
        c.links.level last = [] ∧ ∃ v, c.links.Chain last v := by
  fun_induction rounds c c.links.incoming pending ready settled stages with
  | case1 pending settled stages hlt =>
      refine .inr ⟨stages.size, ?_, ?_, h.exists_chain_of_lt hlt⟩
      · rw [h.unsettled_eq]
      · exact List.nil_perm.mp h.ready_perm
  | case2 pending settled stages hlt first others group next ih =>
      apply ih
      · rw [Array.size_push]
        exact h.step
      · rw [Array.toList_push, Array.size_push, hstages, stageOfGroup_eq_of_perm h.ready_perm,
          List.range_succ, List.map_append]
        rfl
      · intro d hd
        rcases Nat.lt_succ_iff_lt_or_eq.mp (by simpa using hd) with hd | rfl
        · exact hlevels d hd
        · intro hnil
          have hempty := hnil ▸ h.ready_perm
          exact List.cons_ne_nil _ _ (List.perm_nil.mp hempty)
  | case3 pending ready settled stages hge =>
      exact .inl ⟨stages.size, stages, rfl, hstages, hlevels, h.not_chain_of_le (by omega)⟩

theorem ofCondensed_ok_or_stalled (c : Condensed) :
    (∃ count, ofCondensed c = .ok ⟨(List.range count).map (stageAt c)⟩ ∧
        (∀ d < count, c.links.level d ≠ []) ∧ ∀ v, ¬ c.links.Chain count v) ∨
      ∃ last, ofCondensed c = .error (.invariantViolation
            (.stalled ((List.finRange c.size).countP fun v => c.links.Chain last v) c.size)) ∧
        c.links.level last = [] ∧ ∃ v, c.links.Chain last v := by
  have hstart := rounds_ok_or_stalled c #[] (Settling.start c.links) rfl (by simp)
  rcases hstart with ⟨count, result, hok, hresult, hlevels, hend⟩ | ⟨last, herror, hstall⟩
  · refine .inl ⟨count, ?_, hlevels, hend⟩
    rw [ofCondensed, hok, ok_bind, hresult]
    rfl
  · refine .inr ⟨last, ?_, hstall⟩
    rw [ofCondensed, herror, error_bind]

/-- An acyclic graph is staged completely, one stage for every level. -/
theorem ofCondensed_of_acyclic (c : Condensed) (hacyclic : ¬ c.links.HasCycle) :
    ∃ count, ofCondensed c = .ok ⟨(List.range count).map (stageAt c)⟩ ∧
      (∀ d < count, c.links.level d ≠ []) ∧ ∀ v, ¬ c.links.Chain count v := by
  rcases ofCondensed_ok_or_stalled c with hok | ⟨last, _, hempty, v, hchain⟩
  · exact hok
  · exact absurd (leadsToCycle_of_level_eq_nil hempty hchain).hasCycle hacyclic

theorem stageAt_perm (c : Condensed) (d : Nat) :
    (stageAt c d).Perm ((c.links.level d).flatMap fun v => (c.components.get v).members) :=
  Text.perm_sortNames _

theorem getElem?_stages {c : Condensed} {count d : Nat} {stage : List String} :
    ((List.range count).map (stageAt c))[d]? = some stage ↔ d < count ∧ stageAt c d = stage := by
  rw [List.getElem?_eq_some_iff]
  simp

/-- The stages of all levels list the members of all components. -/
theorem flatten_stages_perm {c : Condensed} {count : Nat} (hend : ∀ v, ¬ c.links.Chain count v) :
    ((List.range count).map (stageAt c)).flatten.Perm
      (c.components.toList.flatMap (·.members)) := by
  calc
    ((List.range count).map (stageAt c)).flatten = (List.range count).flatMap (stageAt c) := rfl
    List.Perm _ ((List.range count).flatMap fun d =>
        (c.links.level d).flatMap fun v => (c.components.get v).members) :=
      List.Perm.flatMap_left _ fun d _ => stageAt_perm c d
    _ = ((List.range count).flatMap c.links.level).flatMap fun v =>
        (c.components.get v).members := List.flatMap_assoc.symm
    List.Perm _ ((List.finRange c.size).flatMap fun v => (c.components.get v).members) :=
      (Digraph.levels_perm hend).flatMap_right _
    _ = c.components.toList.flatMap (·.members) := by
      rw [vector_toList_eq_map_get, List.flatMap_map]

/-- Staging an acyclic graph gives every component the stage that its longest chain of
dependencies asks for: stage `d` lists the members of level `d` in order, there is one
stage more than the longest chain of the graph has edges, and the first stage is for
the components without dependencies. -/
theorem ofCondensed_levels (c : Condensed) (hacyclic : ¬ c.links.HasCycle) :
    ∃ p, ofCondensed c = .ok p ∧
      (∀ d (stage : List String), p.stages[d]? = some stage → stage.Pairwise (· ≤ ·) ∧
        stage.Perm ((c.links.level d).flatMap fun v => (c.components.get v).members)) ∧
      (c.size = 0 ∧ p.stages = [] ∨
        ∃ v d, c.links.LongestChain v d ∧ (∀ w k, c.links.Chain k w → k ≤ d) ∧
          p.stages.length = d + 1) ∧
      (∀ v, ∃! d, d < p.stages.length ∧ v ∈ c.links.level d) ∧
      ∀ v, v ∈ c.links.level 0 ↔ ∀ w, ¬ c.links.Adj v w := by
  obtain ⟨count, hok, hlevels, hend⟩ := ofCondensed_of_acyclic c hacyclic
  refine ⟨_, hok, ?_, ?_, ?_, ?_⟩
  · intro d stage hstage
    obtain ⟨_, rfl⟩ := getElem?_stages.mp hstage
    exact ⟨Text.pairwise_sortNames _, stageAt_perm c d⟩
  · cases count with
    | zero =>
        refine .inl ⟨?_, rfl⟩
        by_contra hsize
        exact hend ⟨0, Nat.pos_of_ne_zero hsize⟩ trivial
    | succ d =>
        obtain ⟨v, hv⟩ := List.exists_mem_of_ne_nil _ (hlevels d (Nat.lt_succ_self d))
        refine .inr ⟨v, d, mem_level.mp hv, fun w k hchain => ?_, by simp⟩
        by_contra hlt
        exact hend w (hchain.of_le (by omega))
  · intro v
    obtain ⟨d, hd, hlongest⟩ := exists_longestChain_of_not_chain (hend v)
    refine ⟨d, ⟨by simpa using hd, mem_level.mpr hlongest⟩, ?_⟩
    rintro k ⟨_, hk⟩
    exact (mem_level.mp hk).unique hlongest
  · intro v
    rw [mem_level, longestChain_zero_iff]

/-- Four components: the first depends on the second by two edges, the second on the
third, and the last stands alone. -/
def doubledEdge : Condensed where
  size := 4
  components := #v[⟨["main.c"], false⟩, ⟨["net.c", "net.h"], false⟩, ⟨["log.h"], true⟩,
    ⟨["lone.h"], false⟩]
  links := ⟨#[(0, 1), (1, 2), (0, 1)]⟩
  home := ∅

theorem ofCondensed_levels_doubledEdge :
    ¬ doubledEdge.links.HasCycle ∧
      ∃ p, ofCondensed doubledEdge = .ok p ∧ p.stages.length = 3 := by
  have hacyclic : ¬ doubledEdge.links.HasCycle :=
    not_hasCycle_of_rank (fun v => 3 - v) (by decide +kernel)
  obtain ⟨p, hok, _, hlength, _⟩ := ofCondensed_levels doubledEdge hacyclic
  refine ⟨hacyclic, p, hok, ?_⟩
  rcases hlength with ⟨hsize, _⟩ | ⟨v, d, hlongest, hmax, hlength⟩
  · exact absurd hsize (by decide)
  · have hlong : 2 ≤ d := hmax ⟨0, by decide⟩ 2 (by decide +kernel)
    have hshort : ∀ v, ¬ doubledEdge.links.Chain 3 v := by decide +kernel
    have hle : ¬ 3 ≤ d := mt hlongest.1.of_le (hshort v)
    omega

end IncludeGraph.Plan
