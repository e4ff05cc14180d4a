import IncludeGraph.Proofs.Digraph.Reachability

/-!
# The recursive depth-first search

The first pass of the component search keeps a stack of nodes, each with the neighbours that it
has not yet looked at.  `Visits` is the search that it stands for, with a call for every node.
A stack entry does what the call for its node has left to do and leaves the stack below it
alone (`Visits.search_eq`), so that the two searches finish the nodes in the same order.
-/

namespace IncludeGraph.Digraph

variable {n : Nat} {g : Digraph n}

/-- A recursive depth-first search takes the nodes of a list in turn and passes over those that
have been visited.  Any other node is visited, then its neighbours are searched in the same way,
and when that call is done, the node is listed.  The search ends with the visited nodes `after`
and has listed the nodes of `order`. -/
inductive Visits (g : Digraph n) :
    (visited : Marks n) → (todo : List (Fin n)) → (after : Marks n) → (order : List (Fin n)) → Prop
  | done (visited : Marks n) : Visits g visited [] visited []
  | pass {visited after : Marks n} {v : Fin n} {todo order : List (Fin n)} :
      visited.get v = true → Visits g visited todo after order →
        Visits g visited (v :: todo) after order
  | call {visited inner after : Marks n} {v : Fin n} {todo below later : List (Fin n)} :
      visited.get v = false →
        Visits g (visited.set v true v.isLt) (g.successors v) inner below →
        Visits g inner todo after later →
          Visits g visited (v :: todo) after (below ++ v :: later)

section Search

variable {next : Vector (List (Fin n)) n} {visited : Marks n} {path : Path n} {v w : Fin n}
  {ws finished : List (Fin n)}

/-- A neighbour that has been visited is passed over. -/
theorem search_pass (hvisited : visited.get w = true) :
    search next visited ((v, w :: ws) :: path) finished =
      search next visited ((v, ws) :: path) finished := by
  rw [search]
  split
  · rfl
  · simp_all

/-- Any other neighbour goes on the stack, with all its neighbours still to look at. -/
theorem search_call (hvisited : visited.get w = false) :
    search next visited ((v, w :: ws) :: path) finished =
      search next (visited.set w true w.isLt) ((w, next.get w) :: (v, ws) :: path) finished := by
  rw [search]
  split
  · simp_all
  · rfl

end Search

namespace Visits

variable {visited after : Marks n} {todo order : List (Fin n)}

/-- A search unmarks no node. -/
theorem unmarked_le (h : g.Visits visited todo after order) :
    after.unmarked ≤ visited.unmarked := by
  induction h with
  | done visited => exact Nat.le_refl _
  | pass _ _ ih => exact ih
  | @call visited _ _ v _ _ _ hvisited _ _ ihbelow ihlater =>
      have hset := Marks.unmarked_set visited v hvisited
      omega

/-- Where the recursive search takes the neighbours that a stack entry lists, the search with a
stack comes to finish the node of that entry, with the same nodes visited and listed before. -/
theorem search_eq (h : g.Visits visited todo after order) (v : Fin n) (path : Path n)
    (finished : List (Fin n)) :
    search g.outgoing visited ((v, todo) :: path) finished =
      search g.outgoing after path (v :: (order.reverse ++ finished)) := by
  induction h generalizing v path finished with
  | done visited => rw [search]; rfl
  | pass hvisited _ ih =>
      rw [search_pass hvisited]
      exact ih v path finished
  | @call _ inner _ w todo below later hvisited _ _ ihbelow ihlater =>
      rw [search_call hvisited, get_outgoing, ihbelow w ((v, todo) :: path) finished,
        ihlater v path]
      simp

/-- Searching from the roots of a list in turn is the recursive search of the list. -/
theorem foldl_searchFrom_eq (h : g.Visits visited todo after order) (finished : List (Fin n)) :
    todo.foldl (searchFrom g.outgoing) (visited, finished) =
      (after, order.reverse ++ finished) := by
  induction h generalizing finished with
  | done visited => rfl
  | pass hvisited _ ih =>
      rw [List.foldl_cons, searchFrom, if_pos hvisited]
      exact ih finished
  | @call visited inner _ w todo below later hvisited hbelow _ _ ihlater =>
      have hroot : search g.outgoing (visited.set w true w.isLt) [(w, g.successors w)] finished =
          (inner, w :: (below.reverse ++ finished)) := by
        rw [hbelow.search_eq w [] finished, search]
      rw [List.foldl_cons, searchFrom, if_neg (by simp [hvisited]), get_outgoing, hroot, ihlater]
      simp

/-- A search among visited nodes does nothing. -/
theorem of_all_visited (hvisited : ∀ v ∈ todo, visited.get v = true) :
    g.Visits visited todo visited [] := by
  induction todo with
  | nil => exact .done visited
  | cons v todo ih =>
      refine .pass (hvisited v List.mem_cons_self) (ih fun w hw => ?_)
      exact hvisited w (List.mem_cons_of_mem v hw)

end Visits

/-- With fuel for every node that has not been visited, the recursion comes to its end. -/
theorem visits_postorderOf {fuel : Nat} {visited : Marks n} {todo : List (Fin n)}
    (hfuel : visited.unmarked ≤ fuel) :
    g.Visits visited todo (g.postorderOf fuel visited todo).1
      (g.postorderOf fuel visited todo).2 := by
  fun_induction postorderOf g fuel visited todo with
  | case1 fuel visited => exact .done visited
  | case2 visited v vs =>
      refine .of_all_visited fun w _ => Bool.of_not_eq_false fun hfresh => ?_
      have hset := Marks.unmarked_set visited w hfresh
      omega
  | case3 fuel visited v vs hvisited ih => exact .pass hvisited (ih hfuel)
  | case4 fuel visited v vs hvisited below rest ihbelow _ ihrest =>
      have hfresh : visited.get v = false := Bool.eq_false_iff.mpr hvisited
      have hset := Marks.unmarked_set visited v hfresh
      have hcall := ihbelow (by omega)
      have hkept : below.1.unmarked ≤ _ := hcall.unmarked_le
      have hrest := ihrest (by omega)
      rw [List.append_assoc]
      exact .call hfresh hcall hrest

/-- The search with a stack finishes the nodes in the order in which the recursive search lists
them.  That search comes to its end, lists the nodes in no other order, and is the one that
`postorder` computes. -/
theorem finishOrder_eq_postorder (g : Digraph n) :
    g.finishOrder = g.postorder ∧
      ∀ order, (∃ visited, g.Visits Marks.none (List.finRange n) visited order) ↔
        order = g.finishOrder := by
  have hunique : ∀ {visited order}, g.Visits Marks.none (List.finRange n) visited order →
      order = g.finishOrder := by
    intro visited order h
    rw [finishOrder, reverseFinishOrder, h.foldl_searchFrom_eq [], List.append_nil,
      List.reverse_reverse]
  have hfuel : (Marks.none : Marks n).unmarked ≤ n := Vector.countP_le_size
  have hends : g.Visits Marks.none (List.finRange n) _ g.postorder := visits_postorderOf hfuel
  refine ⟨(hunique hends).symm, fun order => ⟨fun ⟨_, h⟩ => hunique h, ?_⟩⟩
  rintro rfl
  exact ⟨_, hunique hends ▸ hends⟩

end IncludeGraph.Digraph
