import IncludeGraph.Proofs.Staging

/-!
# Staging around cycles

Staging can be asked of any graph of components.  Those that lead to a cycle never become
ready, so that the rounds settle all others and then stall.

A round lowers counts without looking at them.  The guarded run `ofCondensed?` looks: it
gives up before a count would fall below zero, and before a component would be settled a
second time.  It never does either, on any graph, and so ends as the run without guards.
-/

namespace IncludeGraph.Plan

open IncludeGraph.Digraph

variable {n : Nat}

/-! ## The guarded run -/

/-- Lowers the count of a dependent, unless it is zero. -/
def release? (state : Vector Nat n × Array (Fin n)) (dependent : Fin n) :
    Option (Vector Nat n × Array (Fin n)) :=
  if state.1.get dependent = 0 then none else some (release state dependent)

/-- Settles a component after the `done` ones, unless it is one of them. -/
def settleOne? (dependents : Vector (List (Fin n)) n)
    (state : List (Fin n) × Vector Nat n × Array (Fin n)) (i : Fin n) :
    Option (List (Fin n) × Vector Nat n × Array (Fin n)) :=
  if i ∈ state.1 then none
  else ((dependents.get i).foldlM release? state.2).map fun next => (i :: state.1, next)

/-- `rounds` with guards.  `done` lists the settled components. -/
def rounds? (c : Condensed) (dependents : Vector (List (Fin c.size)) c.size)
    (pending : Vector Nat c.size) (ready done : List (Fin c.size)) (settled : Nat)
    (stages : Array (List String)) : Option (Except AnalysisError (Array (List String))) :=
  if settled < c.size then
    match ready with
    | [] => some (.error (.invariantViolation (.stalled (c.size - settled) c.size)))
    | first :: others =>
      let group := first :: others
      (group.foldlM (settleOne? dependents) (done, pending, #[])).bind fun next =>
        rounds? c dependents next.2.1 next.2.2.toList next.1 (settled + group.length)
          (stages.push (stageOfGroup c.components group))
  else some (.ok stages)
termination_by c.size - settled
decreasing_by
  simp only [List.length_cons]
  omega

def ofCondensed? (c : Condensed) : Option (Except AnalysisError Plan) :=
  let pending := c.links.outgoing.map List.length
  let ready := (List.finRange c.size).filter fun i => pending.get i == 0
  (rounds? c c.links.incoming pending ready [] 0 #[]).map fun result =>
    result.map fun stages => ⟨stages.toList⟩

/-! ## The guards never act -/

theorem get_release (state : Vector Nat n × Array (Fin n)) (dependent v : Fin n) :
    (release state dependent).1.get v = state.1.get v - [dependent].count v :=
  get_foldl_release [dependent] state v

/-- A list that names nobody more often than its count can be worked off. -/
theorem foldlM_release?_eq (dependents : List (Fin n)) (state : Vector Nat n × Array (Fin n))
    (hle : ∀ v, dependents.count v ≤ state.1.get v) :
    dependents.foldlM release? state = some (dependents.foldl release state) := by
  induction dependents generalizing state with
  | nil => rfl
  | cons u dependents ih =>
      have hsplit : ∀ v, (u :: dependents).count v = [u].count v + dependents.count v := by
        intro v
        rw [← List.count_append, List.singleton_append]
      have hguard : state.1.get u ≠ 0 := by
        have hu := hle u
        rw [List.count_cons_self] at hu
        omega
      have hrest : ∀ v, dependents.count v ≤ (release state u).1.get v := by
        intro v
        have hv := hle v
        rw [hsplit v] at hv
        rw [get_release]
        omega
      rw [List.foldlM_cons, release?, if_neg hguard]
      exact ih (release state u) hrest

/-- A round whose components are all new can settle them if their edges are all counted. -/
theorem foldlM_settleOne?_eq (dependents : Vector (List (Fin n)) n) (ready done : List (Fin n))
    (state : Vector Nat n × Array (Fin n)) (hnodup : ready.Nodup)
    (hnew : ∀ i ∈ ready, i ∉ done)
    (hle : ∀ v, (ready.flatMap dependents.get).count v ≤ state.1.get v) :
    ready.foldlM (settleOne? dependents) (done, state) = some (ready.reverse ++ done,
      ready.foldl (fun state i => (dependents.get i).foldl release state) state) := by
  induction ready generalizing done state with
  | nil => rfl
  | cons i ready ih =>
      obtain ⟨hi, hrest⟩ := List.nodup_cons.mp hnodup
      simp only [List.flatMap_cons, List.count_append] at hle
      have hreleased : (dependents.get i).foldlM release? state =
          some ((dependents.get i).foldl release state) :=
        foldlM_release?_eq _ _ fun v => (Nat.le_add_right _ _).trans (hle v)
      have hnew' : ∀ j ∈ ready, j ∉ i :: done := by
        intro j hj hdone
        rcases List.mem_cons.mp hdone with rfl | hdone
        · exact hi hj
        · exact hnew j (List.mem_cons_of_mem i hj) hdone
      have hle' : ∀ v, (ready.flatMap dependents.get).count v ≤
          ((dependents.get i).foldl release state).1.get v := by
        intro v
        have hv := hle v
        rw [get_foldl_release]
        omega
      rw [List.foldlM_cons, settleOne?, if_neg (hnew i List.mem_cons_self), hreleased,
        List.reverse_cons, List.append_assoc]
      exact ih (i :: done) _ hrest hnew' hle'

/-- The guarded rounds end as the rounds do.  Before a round, the settled components are those
without a chain as long as the round. -/
theorem rounds?_eq (c : Condensed) (pending : Vector Nat c.size) (ready : List (Fin c.size))
    (settled : Nat) (stages : Array (List String)) :
    ∀ (round : Nat) (done : List (Fin c.size)), Settling c.links round pending ready settled →
      (∀ v, v ∈ done ↔ ¬ c.links.Chain round v) →
      rounds? c c.links.incoming pending ready done settled stages =
        some (rounds c c.links.incoming pending ready settled stages) := by
  fun_induction rounds c c.links.incoming pending ready settled stages with
  | case1 pending settled stages hlt =>
      intro round done _ _
      rw [rounds?, if_pos hlt]
  | case2 pending settled stages hlt first others group next ih =>
      intro round done h hdone
      have hnew : ∀ i ∈ group, i ∉ done := by
        intro i hi hmem
        exact (hdone i).mp hmem ((h.mem_ready i).mp hi).1
      have hsettled : group.foldlM (settleOne? c.links.incoming) (done, pending, #[]) =
          some (group.reverse ++ done, next) :=
        foldlM_settleOne?_eq c.links.incoming group done (pending, #[]) h.nodup hnew
          h.count_le_pending
      have hdone' : ∀ v, v ∈ group.reverse ++ done ↔ ¬ c.links.Chain (round + 1) v := by
        intro v
        rw [List.mem_append, List.mem_reverse, h.mem_ready v, hdone v, not_chain_succ_iff, or_comm]
      rw [rounds?, if_pos hlt]
      change (group.foldlM (settleOne? c.links.incoming) (done, pending, #[])).bind _ = _
      rw [hsettled, Option.bind_some]
      exact ih (round + 1) (group.reverse ++ done) h.step hdone'
  | case3 pending ready settled stages hge =>
      intro round done _ _
      rw [rounds?.eq_def, if_neg hge]

theorem ofCondensed?_eq (c : Condensed) : ofCondensed? c = some (ofCondensed c) := by
  have hrounds := rounds?_eq c _ _ 0 #[] 0 [] (Settling.start c.links) (by simp [Chain])
  rw [ofCondensed?, hrounds, Option.map_some, ofCondensed]
  rfl

/-! ## What stays unsettled -/

/-- A run stalls with the components that lead to a cycle. -/
theorem ofCondensed_of_hasCycle (c : Condensed) (hcycle : c.links.HasCycle) :
    ofCondensed c = .error (.invariantViolation (.stalled
      ((List.finRange c.size).countP fun v => c.links.LeadsToCycle v) c.size)) := by
  rcases ofCondensed_ok_or_stalled c with ⟨count, _, _, hend⟩ | ⟨last, hstalled, hempty, _⟩
  · obtain ⟨v, hv⟩ := hcycle.exists_leadsToCycle
    exact absurd (hv.chain count) (hend v)
  · rw [hstalled]
    simp only [leadsToCycle_iff_of_level_eq_nil hempty]

/-- Staging a graph with a cycle stalls, and the components that it leaves unsettled are those
from which some path leads to a cycle.  On every graph, with cycles or without, the guarded
run ends as the run does: no count falls below zero and no component is settled twice. -/
theorem ofCondensed_stalls (c : Condensed) :
    (c.links.HasCycle → ∃ violation, ofCondensed c = .error (.invariantViolation violation) ∧
        violation.message = "staging stalled with " ++
          toString ((List.finRange c.size).countP fun v => c.links.LeadsToCycle v) ++ " of " ++
          toString c.size ++ " components unsettled") ∧
      ofCondensed? c = some (ofCondensed c) :=
  ⟨fun hcycle => ⟨_, ofCondensed_of_hasCycle c hcycle, rfl⟩, ofCondensed?_eq c⟩

/-- Two components depend on each other and one on itself; a file depends on the two by
parallel edges and on a header without dependencies, and one header stands alone. -/
def tangled : Condensed where
  size := 6
  components := #v[⟨["main.c"], false⟩, ⟨["a.h"], false⟩, ⟨["b.h"], false⟩, ⟨["self.h"], true⟩,
    ⟨["log.h"], false⟩, ⟨["lone.h"], false⟩]
  links := ⟨#[(0, 1), (1, 2), (2, 1), (0, 1), (3, 3), (0, 4)]⟩
  home := ∅

theorem ofCondensed_stalls_tangled : tangled.links.HasCycle ∧
    ∃ violation, ofCondensed tangled = .error (.invariantViolation violation) ∧
      violation.message = "staging stalled with 4 of 6 components unsettled" := by
  have hloop : tangled.links.LeadsToCycle ⟨3, by decide⟩ := by decide +kernel
  have hcycle : tangled.links.HasCycle := hloop.hasCycle
  obtain ⟨violation, herror, hmessage⟩ := (ofCondensed_stalls tangled).1 hcycle
  have hcount :
      ((List.finRange tangled.size).countP fun v => tangled.links.LeadsToCycle v) = 4 := by
    decide +kernel
  rw [hcount] at hmessage
  exact ⟨hcycle, violation, herror, hmessage⟩

end IncludeGraph.Plan
