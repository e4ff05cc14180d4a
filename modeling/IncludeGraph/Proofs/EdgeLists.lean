import IncludeGraph.Proofs.Invariance

/-!
# Graphs of edge lists

A graph can also be built from a list of names and a list of edges.  The edges are grouped by
their sources, and every name becomes a unit whose includes are the targets of its group.
Grouping keeps the edges and their order within a group, but it moves the edges of early names
to the front.  Which unknown end is the error therefore depends on the order of the edges for
sources, which are checked before the edges are grouped, and on the order of the names for
targets, which are checked afterwards.
-/

namespace IncludeGraph.FileGraph

variable {nodes : List String} {edges : List (String × String)} {source target name : String}

/-! ## The units of an edge list -/

/-- The targets of the edges from a name, in the order of the edges. -/
def targetsFrom (edges : List (String × String)) (name : String) : List String :=
  edges.filterMap fun e => if e.1 = name then some e.2 else none

/-- A unit for each name, with the targets of its edges as includes. -/
def unitsOfEdges (nodes : List String) (edges : List (String × String)) : List SourceUnit :=
  (firstOccurrences nodes).map fun name => ⟨name, targetsFrom edges name⟩

theorem mem_targetsFrom : target ∈ targetsFrom edges source ↔ (source, target) ∈ edges := by
  simp [targetsFrom]

/-- A place among the targets of a name is a place among all edges. -/
theorem targetsFrom_eq_append {before after : List String}
    (hsplit : targetsFrom edges source = before ++ target :: after) :
    ∃ ahead behind, edges = ahead ++ (source, target) :: behind ∧
      targetsFrom ahead source = before := by
  obtain ⟨first, rest, rfl, rfl, hrest⟩ := List.filterMap_eq_append_iff.mp hsplit
  obtain ⟨skipped, e, behind, rfl, hskipped, he, _⟩ := List.filterMap_eq_cons_iff.mp hrest
  obtain ⟨rfl, rfl⟩ : e.1 = source ∧ e.2 = target := by simpa using he
  refine ⟨first ++ skipped, behind, (List.append_assoc ..).symm, ?_⟩
  rw [targetsFrom, List.filterMap_append, List.filterMap_eq_nil_iff.mpr hskipped, List.append_nil]

/-- Grouping more edges puts the targets of each name behind those that it has. -/
theorem getD_foldl_groupTargets (groups : Std.HashMap String (Array String))
    (edges : List (String × String)) (name : String) :
    ((edges.foldl (fun groups e => groups.alter e.1 fun targets =>
      some ((targets.getD #[]).push e.2)) groups).getD name #[]).toList =
        (groups.getD name #[]).toList ++ targetsFrom edges name := by
  induction edges generalizing groups with
  | nil => simp [targetsFrom]
  | cons e edges ih =>
      rw [List.foldl_cons, ih, Std.HashMap.getD_alter]
      by_cases hname : e.1 = name
      · subst hname
        simp [targetsFrom, Std.HashMap.getD_eq_getD_getElem?]
      · simp [targetsFrom, hname]

theorem toList_getD_groupTargets (edges : List (String × String)) (name : String) :
    ((groupTargets edges).getD name #[]).toList = targetsFrom edges name := by
  refine (getD_foldl_groupTargets ∅ edges name).trans ?_
  simp

theorem map_name_unitsOfEdges (nodes : List String) (edges : List (String × String)) :
    (unitsOfEdges nodes edges).map (·.name) = firstOccurrences nodes := by
  simp [unitsOfEdges, Function.comp_def]

theorem known_unitsOfEdges : Known (unitsOfEdges nodes edges) name ↔ name ∈ nodes := by
  simp [Known, unitsOfEdges]

theorem includes_unitsOfEdges : Includes (unitsOfEdges nodes edges) source target ↔
    source ∈ nodes ∧ (source, target) ∈ edges := by
  simp only [Includes, unitsOfEdges, List.mem_map, mem_firstOccurrences]
  constructor
  · rintro ⟨_, ⟨name, hname, rfl⟩, rfl, htarget⟩
    exact ⟨hname, mem_targetsFrom.mp htarget⟩
  · rintro ⟨hsource, hedge⟩
    exact ⟨_, ⟨source, hsource, rfl⟩, rfl, mem_targetsFrom.mpr hedge⟩

/-! ## Unknown ends -/

/-- The edge from `source` to `target` is the one that an unknown end is reported for: the
first edge from an unknown name or, if all sources are known, an edge to an unknown name from
the earliest name with such edges, and among these the first. -/
inductive FirstUnknownEdge (nodes : List String) (edges : List (String × String))
    (source target : String) : Prop
  | unknownSource (before after : List (String × String))
      (hedges : edges = before ++ (source, target) :: after) (hunknown : source ∉ nodes)
      (hbefore : ∀ e ∈ before, e.1 ∈ nodes)
  | unknownTarget (before after : List (String × String))
      (hsources : ∀ e ∈ edges, e.1 ∈ nodes)
      (hedges : edges = before ++ (source, target) :: after) (hunknown : target ∉ nodes)
      (hearliest : ∀ e ∈ edges, e.2 ∉ nodes → nodes.idxOf source ≤ nodes.idxOf e.1)
      (hbefore : ∀ e ∈ before, e.1 = source → e.2 ∈ nodes)

namespace FirstUnknownEdge

theorem mem (h : FirstUnknownEdge nodes edges source target) : (source, target) ∈ edges := by
  cases h with
  | unknownSource _ _ hedges _ _ => simp [hedges]
  | unknownTarget _ _ _ hedges _ _ _ => simp [hedges]

theorem not_all_known (h : FirstUnknownEdge nodes edges source target) :
    ¬ ∀ e ∈ edges, e.1 ∈ nodes ∧ e.2 ∈ nodes := by
  intro hall
  obtain ⟨hsource, htarget⟩ := hall _ h.mem
  cases h with
  | unknownSource _ _ _ hunknown _ => exact hunknown hsource
  | unknownTarget _ _ _ _ hunknown _ _ => exact hunknown htarget

theorem unique {source' target' : String} (h : FirstUnknownEdge nodes edges source target)
    (h' : FirstUnknownEdge nodes edges source' target') : source = source' ∧ target = target' := by
  have hmem := h.mem
  have hmem' := h'.mem
  cases h with
  | unknownSource _ _ hedges hunknown hbefore =>
      cases h' with
      | unknownSource _ _ hedges' hunknown' hbefore' =>
          apply Prod.mk.inj
          refine first_unique (fun e => e.1 ∉ nodes) (hedges.symm.trans hedges') hunknown hunknown'
            ?_ ?_
          · exact fun e he => not_not.mpr (hbefore e he)
          · exact fun e he => not_not.mpr (hbefore' e he)
      | unknownTarget _ _ hsources' _ _ _ _ => exact absurd (hsources' _ hmem) hunknown
  | unknownTarget _ _ hsources hedges hunknown hearliest hbefore =>
      cases h' with
      | unknownSource _ _ _ hunknown' _ => exact absurd (hsources _ hmem') hunknown'
      | unknownTarget _ _ _ hedges' hunknown' hearliest' hbefore' =>
          have hplace : nodes.idxOf source = nodes.idxOf source' :=
            Nat.le_antisymm (hearliest _ hmem' hunknown') (hearliest' _ hmem hunknown)
          obtain rfl : source = source' := (List.idxOf_inj (hsources _ hmem)).mp hplace
          apply Prod.mk.inj
          refine first_unique (fun e => e.1 = source ∧ e.2 ∉ nodes) (hedges.symm.trans hedges')
            ⟨rfl, hunknown⟩ ⟨rfl, hunknown'⟩ ?_ ?_
          · exact fun e he hbad => hbad.2 (hbefore e he hbad.1)
          · exact fun e he hbad => hbad.2 (hbefore' e he hbad.1)

end FirstUnknownEdge

/-- Once all sources are known, the first unknown include of the units is the edge that is
reported. -/
theorem firstUnknownEdge_of_units (hsources : ∀ e ∈ edges, e.1 ∈ nodes)
    (h : FirstUnknown (unitsOfEdges nodes edges) source target) :
    FirstUnknownEdge nodes edges source target := by
  obtain ⟨earlier, unit, later, before, after, hunits, hincludes, hname, hunknown, hearlier,
    hbefore⟩ := h
  obtain ⟨names, others, hnames, rfl, hothers⟩ := List.map_eq_append_iff.mp hunits
  obtain ⟨name, rest, rfl, rfl, _⟩ := List.map_eq_cons_iff.mp hothers
  obtain rfl : name = source := hname
  obtain ⟨ahead, behind, hedges, rfl⟩ := targetsFrom_eq_append hincludes
  rw [known_unitsOfEdges] at hunknown
  refine .unknownTarget ahead behind hsources hedges hunknown (fun e he hbad => ?_)
    fun e he hsource => ?_
  · have hplace : e.1 ∈ names ++ name :: rest :=
      hnames ▸ mem_firstOccurrences.mpr (hsources e he)
    rcases List.mem_append.mp hplace with hfirst | hlater
    · -- The targets of the names before are all known.
      have hknown := hearlier _ (List.mem_map_of_mem hfirst) e.2 (mem_targetsFrom.mpr he)
      exact absurd (known_unitsOfEdges.mp hknown) hbad
    · have hincreasing := hnames ▸ (inFirstOrder_firstOccurrences nodes).increasing
      rcases List.mem_cons.mp hlater with heq | hlater
      · rw [heq]
      · exact (List.rel_of_pairwise_cons (List.pairwise_append.mp hincreasing).2.1 hlater).le
  · exact known_unitsOfEdges.mp (hbefore e.2 (mem_targetsFrom.mpr (hsource ▸ he)))

/-! ## The graph of an edge list -/

/-- A graph is built from the units of an edge list, or an unknown end is the error. -/
theorem ofEdges_ok_or_unknown (nodes : List String) (edges : List (String × String)) :
    (∃ g, ofEdges nodes edges = .ok g ∧ build (unitsOfEdges nodes edges) = .ok g ∧
        ∀ e ∈ edges, e.1 ∈ nodes ∧ e.2 ∈ nodes) ∨
      ∃ source target, FirstUnknownEdge nodes edges source target ∧
        ofEdges nodes edges = .error (.unknownDependency source target) := by
  simp only [ofEdges, Std.HashSet.contains_ofList, toList_getD_groupTargets]
  split
  · rename_i source target hfind
    obtain ⟨hunknown, before, after, hedges, hbefore⟩ := List.find?_eq_some_iff_append.mp hfind
    refine .inr ⟨source, target, .unknownSource before after hedges (by simpa using hunknown) ?_,
      rfl⟩
    exact fun e he => by simpa using hbefore e he
  · rename_i hfind
    have hsources : ∀ e ∈ edges, e.1 ∈ nodes := fun e he => by
      simpa using List.find?_eq_none.mp hfind e he
    change (∃ g, build (unitsOfEdges nodes edges) = .ok g ∧ _) ∨
      ∃ source target, _ ∧ build (unitsOfEdges nodes edges) = _
    rcases build_ok_or_unknown (unitsOfEdges nodes edges) with
      ⟨g, hbuild, hgraph⟩ | ⟨source, target, hunknown, herror⟩
    · refine .inl ⟨g, hbuild, hbuild, fun e he => ⟨hsources e he, ?_⟩⟩
      have hincludes := includes_unitsOfEdges.mpr ⟨hsources e he, he⟩
      exact known_unitsOfEdges.mp (hgraph.known _ _ hincludes)
    · exact .inr ⟨source, target, firstUnknownEdge_of_units hsources hunknown, herror⟩

/-- The units have the listed names and the listed edges as their includes, in whatever order
and however often. -/
structure HasEdges (units : List SourceUnit) (nodes : List String)
    (edges : List (String × String)) : Prop where
  known_iff : ∀ name, Known units name ↔ name ∈ nodes
  includes_iff : ∀ source target, Includes units source target ↔ (source, target) ∈ edges

theorem hasEdges_unitsOfEdges (hsources : ∀ e ∈ edges, e.1 ∈ nodes) :
    HasEdges (unitsOfEdges nodes edges) nodes edges where
  known_iff _ := known_unitsOfEdges
  includes_iff source target := includes_unitsOfEdges.trans
    (and_iff_right_of_imp fun hedge => hsources (source, target) hedge)

/-- Both graphs answer the same for every name and have the same fingerprint. -/
structure AnswersLike (g other : FileGraph) : Prop where
  fingerprint_eq : g.fingerprint = other.fingerprint
  dependencies_eq : ∀ name, g.dependencies name = other.dependencies name
  dependents_eq : ∀ name, g.dependents name = other.dependents name

/-- Units with the names and edges of the list have a graph that answers like that of the
list. -/
theorem exists_build_of_hasEdges {units : List SourceUnit} {g : FileGraph}
    (hunits : HasEdges units nodes edges) (hends : ∀ e ∈ edges, e.1 ∈ nodes ∧ e.2 ∈ nodes)
    (hbuild : build (unitsOfEdges nodes edges) = .ok g) :
    ∃ other, build units = .ok other ∧ g.AnswersLike other := by
  have hlisted := hasEdges_unitsOfEdges fun e he => (hends e he).1
  have hsame : SameIncludes (unitsOfEdges nodes edges) units := {
    known_iff := fun name => (hlisted.known_iff name).trans (hunits.known_iff name).symm
    includes_iff := fun source target =>
      (hlisted.includes_iff source target).trans (hunits.includes_iff source target).symm
  }
  obtain ⟨other, hother⟩ := exists_build_of_known units fun unit hunit name hname =>
    (hunits.known_iff name).mpr
      (hends _ ((hunits.includes_iff unit.name name).mp ⟨unit, hunit, rfl, hname⟩)).2
  have hg := represents_of_build hbuild
  have hg' := represents_of_build hother
  exact ⟨other, hother, {
    fingerprint_eq := hsame.fingerprint_eq hbuild hother
    dependencies_eq := hsame.dependencies_eq hg hg'
    dependents_eq := hsame.dependents_eq hg hg'
  }⟩

/-- An edge list has a graph exactly if both ends of every edge are listed names.  The graph
has the names in the order of their first places and the edges of the list, each of them once,
and answers like the graph of any units with these names and edges.  Otherwise an unknown end
is reported, and nothing else can fail. -/
theorem ofEdges_complete (nodes : List String) (edges : List (String × String)) :
    ((∃ g, ofEdges nodes edges = .ok g) ↔ ∀ e ∈ edges, e.1 ∈ nodes ∧ e.2 ∈ nodes) ∧
      (∀ g, ofEdges nodes edges = .ok g → InFirstOrder g.names.toList nodes ∧
        (edgeNames g.names g.links).Nodup ∧
        (∀ e, e ∈ edgeNames g.names g.links ↔ e ∈ edges) ∧
        ∀ units, HasEdges units nodes edges →
          ∃ other, build units = .ok other ∧ g.AnswersLike other) ∧
      (∀ source target, ofEdges nodes edges = .error (.unknownDependency source target) ↔
        FirstUnknownEdge nodes edges source target) ∧
      ∀ violation, ofEdges nodes edges ≠ .error (.invariantViolation violation) := by
  have houtcome := ofEdges_ok_or_unknown nodes edges
  obtain ⟨hok, herror, hviolation⟩ := outcome_exact
    (houtcome.imp_left fun ⟨g, hok, _, hends⟩ => ⟨⟨g, hok⟩, hends⟩)
    (fun _ _ hunknown => hunknown.not_all_known)
    fun _ _ _ _ hunknown hother => hunknown.unique hother
  refine ⟨hok, fun g hg => ?_, herror, hviolation⟩
  rcases houtcome with ⟨_, hg', hbuild, hends⟩ | ⟨_, _, _, hunknown⟩
  · obtain rfl := Except.ok.inj (hg.symm.trans hg')
    have hgraph := represents_of_build hbuild
    have hlisted := hasEdges_unitsOfEdges fun e he => (hends e he).1
    refine ⟨?_, ?_, fun e => ?_, fun units hunits => exists_build_of_hasEdges hunits hends hbuild⟩
    · rw [names_of_build hbuild, map_name_unitsOfEdges,
        firstOccurrences_of_nodup (nodup_firstOccurrences nodes)]
      exact inFirstOrder_firstOccurrences nodes
    · exact edgeNames_of_build hbuild ▸ nodup_firstOccurrences _
    · exact hgraph.mem_edgeNames.trans (hlisted.includes_iff e.1 e.2)
  · rw [hg] at hunknown
    cases hunknown

/-- The edge of a list with a repeated name, written twice in the first of two units. -/
theorem hasEdges_repeatedNames :
    HasEdges [⟨"a.c", ["b.c", "b.c"]⟩, ⟨"b.c", []⟩] ["b.c", "a.c", "b.c"] [("a.c", "b.c")] where
  known_iff name := by
    simp only [Known, List.mem_cons, List.not_mem_nil, or_false, exists_eq_or_imp,
      exists_eq_left]
    tauto
  includes_iff source target := by
    simp [Includes, eq_comm]

/-- A name is repeated, which changes no graph.  Where the edges of the second name stand first,
the first name still has the first unknown target, and an unknown source comes before all of
them. -/
theorem ofEdges_complete_repeatedNames :
    (∃ g other, ofEdges ["b.c", "a.c", "b.c"] [("a.c", "b.c")] = .ok g ∧
        build [⟨"a.c", ["b.c", "b.c"]⟩, ⟨"b.c", []⟩] = .ok other ∧ g.AnswersLike other) ∧
      ofEdges ["b.c", "a.c", "b.c"]
          [("a.c", "x.h"), ("b.c", "a.c"), ("b.c", "y.h"), ("b.c", "z.h")] =
        .error (.unknownDependency "b.c" "y.h") ∧
      ofEdges ["b.c", "a.c", "b.c"] [("b.c", "y.h"), ("ghost.c", "a.c")] =
        .error (.unknownDependency "ghost.c" "a.c") := by
  refine ⟨?_, ((ofEdges_complete _ _).2.2.1 _ _).mpr ?_, ((ofEdges_complete _ _).2.2.1 _ _).mpr ?_⟩
  · obtain ⟨hends, hgraph, _⟩ := ofEdges_complete ["b.c", "a.c", "b.c"] [("a.c", "b.c")]
    obtain ⟨g, hok⟩ := hends.mpr (by decide)
    obtain ⟨_, _, _, hanswers⟩ := hgraph g hok
    obtain ⟨other, hother, hlike⟩ := hanswers _ hasEdges_repeatedNames
    exact ⟨g, other, hok, hother, hlike⟩
  · exact .unknownTarget [("a.c", "x.h"), ("b.c", "a.c")] [("b.c", "z.h")] (by decide) rfl
      (by decide) (by decide) (by decide)
  · exact .unknownSource [("b.c", "y.h")] [] rfl (by decide) (by decide)

end IncludeGraph.FileGraph
