import IncludeGraph.Proofs.Digraph.Reachability

/-!
# The order of completion

What the first pass of the component search leaves behind.  `Nested` is the one
property of the order that the second pass relies on: every node is preceded by
the nodes that were finished while it was on the path, all of which it reaches,
and no edge leads from what was finished before that into this part.

`Searching` is the invariant of the search.  Each step of the search preserves it,
and at the end of the search, when the path is empty, it contains `Nested`.  What the
order is used for is `reaches_of_forward`: it turns a path to a node into one back, if
the path keeps away from the nodes that were finished later.
-/

namespace IncludeGraph.Digraph

variable {n : Nat} {g : Digraph n}

/-- A list of nodes, the one finished last in front.  The nodes behind each `v` split
into those finished while `v` was on the path and those finished before. -/
def Nested (g : Digraph n) : List (Fin n) → Prop
  | [] => True
  | v :: earlier =>
      (∃ inside outside, earlier = inside ++ outside ∧ (∀ w ∈ inside, g.Reaches v w) ∧
        ∀ u ∈ outside, ∀ w, g.Adj u w → w ∉ v :: inside) ∧
      g.Nested earlier

/-- Of the finished nodes, those of `inside` were finished since `v` was entered.  The
others were finished before, so that their edges lead to each other and to the nodes
`below` that `v` was entered from. -/
def Entered (g : Digraph n) (finished : List (Fin n)) (v : Fin n) (below : List (Fin n)) : Prop :=
  ∃ inside outside, finished = inside ++ outside ∧ (∀ w ∈ inside, g.Reaches v w) ∧
    ∀ u ∈ outside, ∀ w, g.Adj u w → w ∈ outside ∨ w ∈ below

/-- `Entered` for every node of a path, the node entered last in front. -/
def AllEntered (g : Digraph n) (finished : List (Fin n)) : List (Fin n) → Prop
  | [] => True
  | v :: below => g.Entered finished v below ∧ g.AllEntered finished below

def Path.nodes (path : Path n) : List (Fin n) := path.map Prod.fst

/-- The invariant of a depth-first search. -/
structure Searching (g : Digraph n) (visited : Marks n) (path : Path n)
    (finished : List (Fin n)) : Prop where
  visited_iff : ∀ v, visited.get v = true ↔ v ∈ path.nodes ∨ v ∈ finished
  nodup : (path.nodes ++ finished).Nodup
  /-- Every node reaches the nodes that were entered after it. -/
  linked : path.nodes.Pairwise fun upper lower => g.Reaches lower upper
  entered : g.AllEntered finished path.nodes
  /-- The neighbours listed on the path are neighbours. -/
  sound : ∀ entry ∈ path, ∀ w ∈ entry.2, g.Adj entry.1 w
  /-- The neighbours that the path no longer lists have been visited. -/
  complete : ∀ entry ∈ path, ∀ w, g.Adj entry.1 w → w ∈ entry.2 ∨ visited.get w = true
  closed : ∀ v ∈ finished, ∀ w, g.Adj v w → visited.get w = true
  nested : g.Nested finished

theorem Entered.finish {finished below : List (Fin n)} {v w : Fin n}
    (hentered : g.Entered finished v below) (hpath : g.Reaches v w) :
    g.Entered (w :: finished) v below := by
  obtain ⟨inside, outside, rfl, hinside, houtside⟩ := hentered
  refine ⟨w :: inside, outside, rfl, ?_, houtside⟩
  intro x hx
  rcases List.mem_cons.mp hx with rfl | hx
  · exact hpath
  · exact hinside x hx

theorem AllEntered.finish {finished path : List (Fin n)} {w : Fin n}
    (hentered : g.AllEntered finished path) (hpath : ∀ v ∈ path, g.Reaches v w) :
    g.AllEntered (w :: finished) path := by
  induction path with
  | nil => trivial
  | cons v below ih =>
      refine ⟨hentered.1.finish (hpath v List.mem_cons_self), ih hentered.2 ?_⟩
      intro u hu
      exact hpath u (List.mem_cons_of_mem v hu)

namespace Searching

variable {visited : Marks n} {path : Path n} {finished : List (Fin n)} {v w : Fin n}
  {ws : List (Fin n)}

theorem start : Searching g Marks.none [] [] where
  visited_iff v := by simp [Path.nodes]
  nodup := List.nodup_nil
  linked := List.Pairwise.nil
  entered := trivial
  sound := by simp
  complete := by simp
  closed := by simp
  nested := trivial

/-- A node without further neighbours is finished. -/
theorem finish (h : Searching g visited ((v, []) :: path) finished) :
    Searching g visited path (v :: finished) := by
  have hall : g.AllEntered finished (v :: path.nodes) := h.entered
  obtain ⟨hentered, hbelow⟩ := hall
  have hchain : (v :: path.nodes).Pairwise fun upper lower => g.Reaches lower upper := h.linked
  obtain ⟨hlinked, hlinkedBelow⟩ := List.pairwise_cons.mp hchain
  have hnodup : (v :: (path.nodes ++ finished)).Nodup := h.nodup
  refine {
    visited_iff := ?_
    nodup := (List.perm_middle.nodup_iff).mpr hnodup
    linked := hlinkedBelow
    entered := hbelow.finish hlinked
    sound := fun entry hentry => h.sound entry (List.mem_cons_of_mem _ hentry)
    complete := fun entry hentry => h.complete entry (List.mem_cons_of_mem _ hentry)
    closed := ?_
    nested := ⟨?_, h.nested⟩
  }
  · intro u
    rw [h.visited_iff u]
    simp only [Path.nodes, List.map_cons, List.mem_cons]
    tauto
  · intro u hu w hadj
    rcases List.mem_cons.mp hu with rfl | hu
    · exact (h.complete (u, []) List.mem_cons_self w hadj).resolve_left List.not_mem_nil
    · exact h.closed u hu w hadj
  · -- Edges from `outside` stay there or go down the path, away from `v` and `inside`.
    obtain ⟨inside, outside, rfl, hinside, houtside⟩ := hentered
    refine ⟨inside, outside, rfl, hinside, ?_⟩
    intro u hu w hadj hw
    rcases houtside u hu w hadj with hout | hlow <;> grind [List.nodup_append]

/-- A neighbour that has been visited can be left out. -/
theorem advance (above : Path n)
    (h : Searching g visited (above ++ (v, w :: ws) :: path) finished)
    (hvisited : visited.get w = true) :
    Searching g visited (above ++ (v, ws) :: path) finished := by
  have hnodes : Path.nodes (above ++ (v, ws) :: path) =
      Path.nodes (above ++ (v, w :: ws) :: path) := by
    simp [Path.nodes]
  refine {
    visited_iff := by rw [hnodes]; exact h.visited_iff
    nodup := by rw [hnodes]; exact h.nodup
    linked := by rw [hnodes]; exact h.linked
    entered := by rw [hnodes]; exact h.entered
    sound := ?_
    complete := ?_
    closed := h.closed
    nested := h.nested
  }
  · intro entry hentry x hx
    rcases List.mem_append.mp hentry with habove | hrest
    · exact h.sound entry (List.mem_append_left _ habove) x hx
    rcases List.mem_cons.mp hrest with rfl | hbelow
    · exact h.sound (v, w :: ws) (by simp) x (List.mem_cons_of_mem w hx)
    · exact h.sound entry (by simp [hbelow]) x hx
  · intro entry hentry x hadj
    rcases List.mem_append.mp hentry with habove | hrest
    · exact h.complete entry (List.mem_append_left _ habove) x hadj
    rcases List.mem_cons.mp hrest with rfl | hbelow
    · rcases h.complete (v, w :: ws) (by simp) x hadj with hlisted | hx
      · rcases List.mem_cons.mp hlisted with rfl | hlisted
        · exact .inr hvisited
        · exact .inl hlisted
      · exact .inr hx
    · exact h.complete entry (by simp [hbelow]) x hadj

/-- A new node is entered from the end of the path, with all its neighbours ahead. -/
theorem enter (h : Searching g visited path finished) (hvisited : visited.get w = false)
    (hpath : ∀ v ∈ path.nodes, g.Reaches v w) :
    Searching g (visited.set w true w.isLt) ((w, g.successors w) :: path) finished := by
  have hfresh : w ∉ path.nodes ++ finished := by
    intro hw
    rw [List.mem_append, ← h.visited_iff w, hvisited] at hw
    exact Bool.false_ne_true hw
  have hkeep : ∀ u, visited.get u = true → (visited.set w true w.isLt).get u = true :=
    fun u hu => (visited.get_set_iff w u).mpr (.inr hu)
  refine {
    visited_iff := ?_
    nodup := List.nodup_cons.mpr ⟨hfresh, h.nodup⟩
    linked := List.pairwise_cons.mpr ⟨hpath, h.linked⟩
    entered := ⟨⟨[], finished, rfl, by simp, ?_⟩, h.entered⟩
    sound := ?_
    complete := ?_
    closed := fun u hu x hadj => hkeep x (h.closed u hu x hadj)
    nested := h.nested
  }
  · intro u
    rw [Marks.get_set_iff, h.visited_iff u, ← or_assoc]
    simp only [Path.nodes, List.map_cons, List.mem_cons]
  · intro u hu x hadj
    exact ((h.visited_iff x).mp (h.closed u hu x hadj)).symm
  · intro entry hentry x hx
    rcases List.mem_cons.mp hentry with rfl | hentry
    · exact mem_successors.mp hx
    · exact h.sound entry hentry x hx
  · intro entry hentry x hadj
    rcases List.mem_cons.mp hentry with rfl | hentry
    · exact .inl (mem_successors.mpr hadj)
    · exact (h.complete entry hentry x hadj).imp id (hkeep x)

/-- The neighbour that a path lists next is entered unless it has been visited. -/
theorem descend (h : Searching g visited ((v, w :: ws) :: path) finished)
    (hvisited : visited.get w = false) :
    Searching g (visited.set w true w.isLt) ((w, g.outgoing.get w) :: (v, ws) :: path)
      finished := by
  have hadj : g.Adj v w := h.sound (v, w :: ws) List.mem_cons_self w List.mem_cons_self
  have hchain : (v :: path.nodes).Pairwise fun upper lower => g.Reaches lower upper := h.linked
  have hentered := h.enter hvisited (by
    intro u hu
    rcases List.mem_cons.mp hu with rfl | hu
    · exact .single hadj
    · exact ((List.pairwise_cons.mp hchain).1 u hu).tail hadj)
  rw [get_outgoing]
  apply hentered.advance [(w, g.successors w)]
  exact (visited.get_set_iff w w).mpr (.inl rfl)

/-- A search keeps the invariant to its end and forgets no visited node. -/
theorem run (h : Searching g visited path finished) :
    Searching g (search g.outgoing visited path finished).1 []
        (search g.outgoing visited path finished).2 ∧
      ∀ u, visited.get u = true → (search g.outgoing visited path finished).1.get u = true := by
  fun_induction search g.outgoing visited path finished with
  | case1 visited finished => exact ⟨h, fun _ hu => hu⟩
  | case2 visited finished v path ih => exact ih h.finish
  | case3 visited finished v w ws path hvisited ih =>
      exact ih (h.advance [] hvisited)
  | case4 visited finished v w ws path hvisited hmeasure ih =>
      obtain ⟨hend, hkept⟩ := ih (h.descend hvisited)
      exact ⟨hend, fun u hu => hkept u ((visited.get_set_iff w u).mpr (.inr hu))⟩

/-- Between two searches the visited nodes are the finished ones, and the next
search visits its root. -/
theorem runFrom {state : Marks n × List (Fin n)} (h : Searching g state.1 [] state.2)
    (root : Fin n) :
    Searching g (searchFrom g.outgoing state root).1 [] (searchFrom g.outgoing state root).2 ∧
      (searchFrom g.outgoing state root).1.get root = true ∧
      ∀ u, state.1.get u = true → (searchFrom g.outgoing state root).1.get u = true := by
  rw [searchFrom]
  split
  · rename_i hroot
    exact ⟨h, hroot, fun _ hu => hu⟩
  · rename_i hroot
    have hentered := h.enter (w := root) (by simpa using hroot) (by simp [Path.nodes])
    rw [← get_outgoing] at hentered
    obtain ⟨hend, hkept⟩ := hentered.run
    refine ⟨hend, hkept root ?_, fun u hu => hkept u ?_⟩
    · exact (state.1.get_set_iff root root).mpr (.inl rfl)
    · exact (state.1.get_set_iff root u).mpr (.inr hu)

theorem runAll (state : Marks n × List (Fin n)) (h : Searching g state.1 [] state.2)
    (roots : List (Fin n)) :
    Searching g (roots.foldl (searchFrom g.outgoing) state).1 []
        (roots.foldl (searchFrom g.outgoing) state).2 ∧
      (∀ u ∈ roots, (roots.foldl (searchFrom g.outgoing) state).1.get u = true) ∧
      ∀ u, state.1.get u = true →
        (roots.foldl (searchFrom g.outgoing) state).1.get u = true := by
  induction roots generalizing state with
  | nil => exact ⟨h, by simp, fun _ hu => hu⟩
  | cons root roots ih =>
      obtain ⟨hnext, hroot, hkept⟩ := h.runFrom root
      obtain ⟨hend, hroots, hrest⟩ := ih _ hnext
      refine ⟨hend, ?_, fun u hu => hrest u (hkept u hu)⟩
      intro u hu
      rcases List.mem_cons.mp hu with rfl | hu
      · exact hrest u hroot
      · exact hroots u hu

end Searching

/-! ## The order of the first pass -/

theorem searching_reverseFinishOrder (g : Digraph n) :
    ∃ visited, Searching g visited [] g.reverseFinishOrder ∧ ∀ v, visited.get v = true := by
  obtain ⟨hend, hroots, _⟩ := Searching.runAll (Marks.none, []) (.start (g := g))
    (List.finRange n)
  exact ⟨_, hend, fun v => hroots v (List.mem_finRange v)⟩

theorem nodup_reverseFinishOrder (g : Digraph n) : g.reverseFinishOrder.Nodup := by
  obtain ⟨_, h, _⟩ := g.searching_reverseFinishOrder
  exact h.nodup

theorem mem_reverseFinishOrder (g : Digraph n) (v : Fin n) : v ∈ g.reverseFinishOrder := by
  obtain ⟨_, h, hvisited⟩ := g.searching_reverseFinishOrder
  exact ((h.visited_iff v).mp (hvisited v)).resolve_left List.not_mem_nil

theorem nested_reverseFinishOrder (g : Digraph n) : g.Nested g.reverseFinishOrder := by
  obtain ⟨_, h, _⟩ := g.searching_reverseFinishOrder
  exact h.nested

theorem Nested.of_append {above below : List (Fin n)} (h : g.Nested (above ++ below)) :
    g.Nested below := by
  induction above with
  | nil => exact h
  | cons v above ih => exact ih h.2

/-! ## Around one node -/

section Around

variable {above below : List (Fin n)} {root v : Fin n}

/-- The nodes finished before a node are those finished while it was on the path and those
finished before that. -/
theorem exists_inside (horder : g.reverseFinishOrder = above ++ root :: below) :
    ∃ inside outside, below = inside ++ outside ∧ (∀ w ∈ inside, g.Reaches root w) ∧
      ∀ u ∈ outside, ∀ w, g.Adj u w → w ∉ root :: inside := by
  have hnested := g.nested_reverseFinishOrder
  rw [horder] at hnested
  exact hnested.of_append.1

/-- Let edges pass a property on, and let no node have it that is finished after `root`.  Then a
path of such nodes to `root` lies among the nodes finished while `root` was on the path of the
search, so that `root` reaches the node where it starts. -/
theorem reaches_of_forward {P : Fin n → Prop}
    (horder : g.reverseFinishOrder = above ++ root :: below)
    (hforward : ∀ u w, g.Adj u w → P u → P w) (habove : ∀ u ∈ above, ¬ P u)
    (hpath : g.Reaches v root) (hv : P v) : g.Reaches root v := by
  obtain ⟨inside, outside, rfl, hinside, houtside⟩ := exists_inside horder
  have hstay : v ∈ root :: inside := by
    induction reaches_iff_reflTransGen.mp hpath using Relation.ReflTransGen.head_induction_on with
    | refl => exact List.mem_cons_self
    | @head u w hadj hrest ih =>
        have hw := ih (reaches_iff_reflTransGen.mpr hrest) (hforward u w hadj hv)
        have hmem : u ∈ above ++ root :: (inside ++ outside) :=
          horder ▸ g.mem_reverseFinishOrder u
        simp only [List.mem_append, List.mem_cons] at hmem ⊢
        rcases hmem with hlater | rfl | hin | hout
        · exact absurd hv (habove u hlater)
        · exact .inl rfl
        · exact .inr hin
        · exact absurd hw (houtside u hout w hadj)
  rcases List.mem_cons.mp hstay with rfl | hin
  · exact .refl v
  · exact hinside v hin

end Around

end IncludeGraph.Digraph
