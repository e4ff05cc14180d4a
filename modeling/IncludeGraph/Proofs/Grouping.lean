import IncludeGraph.Proofs.Condensation
import IncludeGraph.Proofs.Counts

/-!
# Condensing by any list of components

The components that a graph is condensed by need not be the classes of cycle-mates.
Whatever they are, a condensed graph is the exact quotient of its graph by them.  The
checks find every list that does not partition the files, except for one kind: they
compare numbers of files and look at the ends of includes, so that an isolated file may
be missing where a name that is no file stands in for it.

A partition of the files can only fail by depending on itself in a circle.  Otherwise the
quotient has no cycle, so that it can be staged, and the stages respect every include.
-/

namespace IncludeGraph

variable {units : List SourceUnit} {components : List Component} {a b : Component}

/-- The components list every file once and nothing else. -/
structure Partitions (components : List Component) (units : List SourceUnit) : Prop where
  nodup : (components.flatMap (·.members)).Nodup
  mem_iff : ∀ name, name ∈ components.flatMap (·.members) ↔ Known units name

/-- Some file of one of the components includes some file of another. -/
structure ComponentEdge (units : List SourceUnit) (components : List Component)
    (a b : Component) : Prop where
  source_mem : a ∈ components
  target_mem : b ∈ components
  ne : a ≠ b
  includes : ∃ source ∈ a.members, ∃ target ∈ b.members, Includes units source target

/-- The components depend on each other in a circle. -/
def Circular (units : List SourceUnit) (components : List Component) : Prop :=
  ∃ a, Relation.TransGen (ComponentEdge units components) a a

/-- Components whose edges all lead down in some ranking do not depend on each other in a
circle. -/
theorem not_circular_of_rank (rank : Component → Nat)
    (hrank : ∀ a b, ComponentEdge units components a b → rank b < rank a) :
    ¬ Circular units components := by
  rintro ⟨a, hloop⟩
  have hdown : Relation.TransGen (fun m n : Nat => n < m) (rank a) (rank a) :=
    hloop.lift rank hrank
  rw [Relation.transGen_eq_self] at hdown
  exact lt_irrefl _ hdown

namespace Condensed

variable {g : FileGraph} {c : Condensed} {i j : Fin c.size}

namespace Condenses

theorem adj_iff_componentEdge (hc : c.Condenses g components) (hgraph : g.Represents units) :
    c.links.Adj i j ↔ ComponentEdge units components (c.components.get i) (c.components.get j) := by
  rw [hc.adj_iff]
  constructor
  · rintro ⟨hne, u, v, hadj, hu, hv⟩
    have hsource := (hc.componentOf_eq _ i).mp hu
    refine ⟨hc.get_mem i, hc.get_mem j, fun heq => hne ?_, _, hsource, _,
      (hc.componentOf_eq _ j).mp hv, (hgraph.adj_iff u v).mp hadj⟩
    -- Equal components at two places would both be home to the source of the edge.
    rw [heq, ← hc.componentOf_eq, hu] at hsource
    exact Option.some.inj hsource
  · rintro ⟨_, _, hne, source, hsource, target, htarget, hincludes⟩
    refine ⟨fun heq => hne (by rw [heq]), ?_⟩
    obtain ⟨u, rfl⟩ := (hgraph.known_iff source).mp hincludes.known_source
    obtain ⟨v, rfl⟩ := (hgraph.known_iff target).mp (hgraph.known _ _ hincludes)
    exact ⟨u, v, (hgraph.adj_iff u v).mpr hincludes, (hc.componentOf_eq _ i).mpr hsource,
      (hc.componentOf_eq _ j).mpr htarget⟩

theorem exists_get_eq (hc : c.Condenses g components) (ha : a ∈ components) :
    ∃ i, c.components.get i = a := by
  rw [← hc.toList_eq] at ha
  exact mem_toList_iff_get.mp ha

/-- Paths between components are paths between their nodes. -/
theorem transGen_adj_iff (hc : c.Condenses g components) (hgraph : g.Represents units) :
    Relation.TransGen c.links.Adj i j ↔
      Relation.TransGen (ComponentEdge units components) (c.components.get i)
        (c.components.get j) := by
  constructor
  · intro hpath
    exact hpath.lift c.components.get fun _ _ hadj => (hc.adj_iff_componentEdge hgraph).mp hadj
  · intro hpath
    generalize htarget : c.components.get j = target at hpath
    induction hpath generalizing j with
    | single hedge =>
        rw [← htarget] at hedge
        exact .single ((hc.adj_iff_componentEdge hgraph).mpr hedge)
    | tail _ hedge ih =>
        obtain ⟨k, hk⟩ := hc.exists_get_eq hedge.source_mem
        rw [← hk, ← htarget] at hedge
        exact (ih hk).tail ((hc.adj_iff_componentEdge hgraph).mpr hedge)

theorem hasCycle_iff_circular (hc : c.Condenses g components) (hgraph : g.Represents units) :
    c.links.HasCycle ↔ Circular units components := by
  rw [Digraph.hasCycle_iff_transGen]
  constructor
  · rintro ⟨i, hloop⟩
    exact ⟨_, (hc.transGen_adj_iff hgraph).mp hloop⟩
  · rintro ⟨a, hloop⟩
    obtain ⟨b, hedge, _⟩ := Relation.TransGen.head'_iff.mp hloop
    obtain ⟨i, rfl⟩ := hc.exists_get_eq hedge.source_mem
    exact ⟨i, (hc.transGen_adj_iff hgraph).mpr hloop⟩

end Condenses

/-! ## Which components are accepted -/

/-- Condensing succeeds or finds a broken rule, by the same criterion. -/
theorem ofComponents_ok_or_violation (hgraph : g.Represents units) (components : List Component) :
    (Covers components g ∧ ¬ Circular units components ∧
        ∃ c, ofComponents g components = .ok c) ∨
      ¬ (Covers components g ∧ ¬ Circular units components) ∧
        ∃ violation, ofComponents g components = .error (.invariantViolation violation) := by
  generalize hresult : ofComponents g components = result
  have houtcome := hresult ▸ outcome_ofComponents g components
  cases houtcome with
  | shared hrepeat => exact .inr ⟨fun h => hrepeat.not_nodup h.1.nodup, _, rfl⟩
  | coverage hlength => exact .inr ⟨fun h => hlength h.1.length_eq, _, rfl⟩
  | unassigned hnode hlinked =>
      refine .inr ⟨fun h => ?_, _, rfl⟩
      obtain ⟨other, hadj | hadj⟩ := hlinked
      · exact hnode (h.1.linked _ _ hadj).1
      · exact hnode (h.1.linked _ _ hadj).2
  | cycle _ hc hcycle =>
      exact .inr ⟨fun h => h.2 ((hc.hasCycle_iff_circular hgraph).mp hcycle), _, rfl⟩
  | @condensed c hcovers hc _ hacyclic =>
      exact .inl ⟨hcovers, mt (hc.hasCycle_iff_circular hgraph).mpr hacyclic, c, rfl⟩

theorem exists_ofComponents_of_covers (hgraph : g.Represents units)
    (hcovers : Covers components g) (hcircular : ¬ Circular units components) :
    ∃ c, ofComponents g components = .ok c := by
  rcases ofComponents_ok_or_violation hgraph components with ⟨_, _, hok⟩ | ⟨hnot, _⟩
  · exact hok
  · exact absurd ⟨hcovers, hcircular⟩ hnot

theorem members_perm_of_partitions (h : Partitions components units)
    (hgraph : g.Represents units) :
    (components.flatMap (·.members)).Perm g.names.toList := by
  apply (List.perm_ext_iff_of_nodup h.nodup hgraph.nodup).mpr
  exact fun name => (h.mem_iff name).trans hgraph.mem_names_iff.symm

/-- A partition of the files passes the checks that come before the search for a cycle. -/
theorem covers_of_partitions (h : Partitions components units) (hgraph : g.Represents units) :
    Covers components g := by
  have hperm := members_perm_of_partitions h hgraph
  have hlisted : ∀ v, g.names.get v ∈ components.flatMap (·.members) := fun v =>
    hperm.mem_iff.mpr (mem_toList_iff_get.mpr ⟨v, rfl⟩)
  exact ⟨h.nodup, hperm.length_eq.trans Vector.length_toList, fun u v _ => ⟨hlisted u, hlisted v⟩⟩

/-- Components that pass the checks without being a partition miss an isolated file. -/
theorem Covers.partitions (hcovers : Covers components g) (hgraph : g.Represents units)
    (hisolated : ∀ name, Isolated units name → name ∈ components.flatMap (·.members)) :
    Partitions components units := by
  have hlisted : ∀ name, Known units name → name ∈ components.flatMap (·.members) := by
    intro name hname
    by_contra hmissing
    refine hmissing (hisolated name ⟨hname, fun other => ⟨fun hout => ?_, fun hin => ?_⟩⟩)
    · obtain ⟨u, rfl⟩ := (hgraph.known_iff name).mp hname
      obtain ⟨v, rfl⟩ := (hgraph.known_iff other).mp (hgraph.known _ _ hout)
      exact hmissing (hcovers.linked u v ((hgraph.adj_iff u v).mpr hout)).1
    · obtain ⟨u, rfl⟩ := (hgraph.known_iff other).mp hin.known_source
      obtain ⟨v, rfl⟩ := (hgraph.known_iff name).mp hname
      exact hmissing (hcovers.linked u v ((hgraph.adj_iff u v).mpr hin)).2
  have hsubset : g.names.toList ⊆ components.flatMap (·.members) := fun name hname =>
    hlisted name (hgraph.mem_names_iff.mp hname)
  have hlength : (components.flatMap (·.members)).length ≤ g.names.toList.length := by
    rw [hcovers.length_eq, Vector.length_toList]
  have hperm := (hgraph.nodup.subperm hsubset).perm_of_length_le hlength
  exact ⟨hcovers.nodup, fun name => hperm.mem_iff.symm.trans hgraph.mem_names_iff⟩

/-- Condensing finds a broken rule exactly if the components list a name twice, list more or
fewer names than there are files, leave out an end of an include, or depend on each other in
a circle.  So it finds whatever does not partition the files, unless an isolated file is
missing. -/
theorem ofComponents_rejects_iff (hbuild : FileGraph.build units = .ok g)
    (components : List Component) :
    ((∃ violation, ofComponents g components = .error (.invariantViolation violation)) ↔
        ¬ (Covers components g ∧ ¬ Circular units components)) ∧
      (¬ Partitions components units →
        (∀ name, Isolated units name → name ∈ components.flatMap (·.members)) →
        ∃ violation, ofComponents g components = .error (.invariantViolation violation)) := by
  have hgraph := FileGraph.represents_of_build hbuild
  rcases ofComponents_ok_or_violation hgraph components with
    ⟨hcovers, hcircular, c, hok⟩ | ⟨hnot, herror⟩
  · refine ⟨⟨?_, fun hnot => absurd ⟨hcovers, hcircular⟩ hnot⟩, fun hpartition hisolated => ?_⟩
    · rintro ⟨violation, herror⟩
      rw [hok] at herror
      cases herror
    · exact absurd (hcovers.partitions hgraph hisolated) hpartition
  · exact ⟨iff_of_true herror hnot, fun _ _ => herror⟩

/-- A file and the one header that it includes. -/
def sourceAndHeader : List SourceUnit := [⟨"main.c", ["a.h"]⟩, ⟨"a.h", []⟩]

/-- A name that is no file does not stand in for the included header. -/
theorem ofComponents_rejects_iff_sourceAndHeader :
    ∃ g, FileGraph.build sourceAndHeader = .ok g ∧
      ¬ Partitions [⟨["main.c"], false⟩, ⟨["z.h"], false⟩] sourceAndHeader ∧
      ∃ violation, ofComponents g [⟨["main.c"], false⟩, ⟨["z.h"], false⟩] =
        .error (.invariantViolation violation) := by
  obtain ⟨g, hbuild⟩ := FileGraph.exists_build_of_known sourceAndHeader (by decide)
  have hpartition : ¬ Partitions [⟨["main.c"], false⟩, ⟨["z.h"], false⟩] sourceAndHeader :=
    fun h => absurd ((h.mem_iff "z.h").mp (by decide)) (by decide)
  refine ⟨g, hbuild, hpartition, (ofComponents_rejects_iff hbuild _).2 hpartition ?_⟩
  rintro name ⟨⟨unit, hunit, rfl⟩, hisolated⟩
  simp only [sourceAndHeader, List.mem_cons, List.not_mem_nil, or_false] at hunit
  rcases hunit with rfl | rfl
  · exact absurd (by decide) (hisolated "a.h").1
  · exact absurd (by decide) (hisolated "main.c").2

/-- An isolated file that is missing goes unnoticed if some other name makes up the number. -/
theorem ofComponents_accepts_not_partition :
    ∃ g c, FileGraph.build [⟨"a.h", []⟩] = .ok g ∧
      ¬ Partitions [⟨["z.h"], false⟩] [⟨"a.h", []⟩] ∧
      ofComponents g [⟨["z.h"], false⟩] = .ok c := by
  obtain ⟨g, hbuild⟩ := FileGraph.exists_build_of_known [⟨"a.h", []⟩] (by decide)
  have hgraph := FileGraph.represents_of_build hbuild
  have hincludes : ∀ source target, ¬ Includes [⟨"a.h", []⟩] source target := by
    simp [Includes]
  have hnames : g.names.toList.Perm ["a.h"] := by
    apply (List.perm_ext_iff_of_nodup hgraph.nodup (by decide)).mpr
    intro name
    rw [hgraph.mem_names_iff]
    simp [Known, eq_comm]
  have hcovers : Covers [⟨["z.h"], false⟩] g := {
    nodup := by decide
    length_eq := hnames.length_eq.symm.trans Vector.length_toList
    linked := fun u v hadj => absurd ((hgraph.adj_iff u v).mp hadj) (hincludes _ _)
  }
  have hcircular : ¬ Circular [⟨"a.h", []⟩] [⟨["z.h"], false⟩] := by
    apply not_circular_of_rank fun _ => 0
    rintro a b ⟨_, _, _, source, _, target, _, hedge⟩
    exact absurd hedge (hincludes source target)
  obtain ⟨c, hok⟩ := exists_ofComponents_of_covers hgraph hcovers hcircular
  exact ⟨g, c, hbuild, fun h => absurd ((h.mem_iff "z.h").mp (by decide)) (by decide), hok⟩

/-! ## The quotient -/

/-- A condensed graph has the components as its nodes, in their order and unchanged.  Every
listed file belongs to the component that lists it, and no other file belongs to any.
Different components are joined exactly if an edge leads from a file of the one to a file of
the other.  No edge is repeated, and there is no cycle. -/
theorem ofComponents_quotient {g : FileGraph} {c : Condensed} {components : List Component}
    (hok : ofComponents g components = .ok c) :
    c.components.toList = components ∧
      (∀ file, file ∈ c.home ↔ ∃ component ∈ components, file ∈ component.members) ∧
      (∀ file i, c.componentOf file = some i ↔ file ∈ (c.components.get i).members) ∧
      (∀ i j, c.links.Adj i j ↔ i ≠ j ∧ ∃ u v, g.links.Adj u v ∧
        c.componentOf (g.names.get u) = some i ∧ c.componentOf (g.names.get v) = some j) ∧
      c.links.edges.toList.Nodup ∧ (∀ i, ¬ c.links.Adj i i) ∧ ¬ c.links.HasCycle := by
  have houtcome := hok ▸ outcome_ofComponents g components
  cases houtcome with
  | condensed _ hc hnodup hacyclic =>
      refine ⟨hc.toList_eq, fun file => ?_, hc.componentOf_eq, hc.adj_iff, hnodup,
        fun i hloop => ((hc.adj_iff i i).mp hloop).1 rfl, hacyclic⟩
      rw [← List.mem_flatMap, ← hc.exists_componentOf_iff,
        ← Std.HashMap.isSome_getElem?_iff_mem, Option.isSome_iff_exists]
      rfl

/-- A file, a header and a header of that header. -/
def chainOfIncludes : List SourceUnit := [⟨"main.c", ["a.h"]⟩, ⟨"a.h", ["b.h"]⟩, ⟨"b.h", []⟩]

theorem partitions_headersTogether :
    Partitions [⟨["main.c"], false⟩, ⟨["a.h", "b.h"], false⟩] chainOfIncludes :=
  ⟨by decide, fun name => by simp [Known, chainOfIncludes, eq_comm]⟩

theorem not_circular_headersTogether :
    ¬ Circular chainOfIncludes [⟨["main.c"], false⟩, ⟨["a.h", "b.h"], false⟩] := by
  apply not_circular_of_rank fun component => if "main.c" ∈ component.members then 1 else 0
  rintro a b ⟨ha, hb, hne, hedge⟩
  simp only [List.mem_cons, List.not_mem_nil, or_false] at ha hb
  rcases ha with rfl | rfl <;> rcases hb with rfl | rfl
  · exact absurd rfl hne
  · decide
  · exact absurd hedge (by decide)
  · exact absurd rfl hne

/-- Two headers that are no cycle-mates can be one component, which the file depends on. -/
theorem ofComponents_quotient_chainOfIncludes :
    ∃ g c, FileGraph.build chainOfIncludes = .ok g ∧
      ofComponents g [⟨["main.c"], false⟩, ⟨["a.h", "b.h"], false⟩] = .ok c ∧
      ∃ i j, c.componentOf "main.c" = some i ∧ c.componentOf "b.h" = some j ∧ c.links.Adj i j := by
  obtain ⟨g, hbuild⟩ := FileGraph.exists_build_of_known chainOfIncludes (by decide)
  have hgraph := FileGraph.represents_of_build hbuild
  obtain ⟨c, hok⟩ := exists_ofComponents_of_covers hgraph
    (covers_of_partitions partitions_headersTogether hgraph) not_circular_headersTogether
  obtain ⟨hcomponents, _, hhome, hadj, _⟩ := ofComponents_quotient hok
  obtain ⟨i, hi⟩ : ∃ i, c.components.get i = ⟨["main.c"], false⟩ :=
    mem_toList_iff_get.mp (by simp [hcomponents])
  obtain ⟨j, hj⟩ : ∃ j, c.components.get j = ⟨["a.h", "b.h"], false⟩ :=
    mem_toList_iff_get.mp (by simp [hcomponents])
  have hmain : c.componentOf "main.c" = some i := (hhome _ i).mpr (by simp [hi])
  have hheader : c.componentOf "a.h" = some j := (hhome _ j).mpr (by simp [hj])
  obtain ⟨u, hu⟩ := (hgraph.known_iff "main.c").mp (by decide)
  obtain ⟨v, hv⟩ := (hgraph.known_iff "a.h").mp (by decide)
  refine ⟨g, c, hbuild, hok, i, j, hmain, (hhome _ j).mpr (by simp [hj]), (hadj i j).mpr ?_⟩
  refine ⟨?_, u, v, (hgraph.adj_iff u v).mpr (by rw [hu, hv]; decide), ?_, ?_⟩
  · rintro rfl
    rw [hi] at hj
    exact absurd hj (by decide)
  · rw [hu, hmain]
  · rw [hv, hheader]

/-! ## Staging the quotient -/

/-- A partition of the files is condensed exactly if its components do not depend on each other
in a circle; if they do, the cycle is reported.  What is condensed can be staged, and the plan
passes verification. -/
theorem ofComponents_staged (hbuild : FileGraph.build units = .ok g)
    (hpartition : Partitions components units) :
    ((∃ c, ofComponents g components = .ok c) ↔ ¬ Circular units components) ∧
      (Circular units components → ∃ violation,
        ofComponents g components = .error (.invariantViolation violation) ∧
          violation.message = "condensed graph contains a cycle") ∧
      ∀ c, ofComponents g components = .ok c →
        ∃ p, Plan.ofCondensed c = .ok p ∧ p.verify g c = .ok () := by
  have hgraph := FileGraph.represents_of_build hbuild
  have hperm := members_perm_of_partitions hpartition hgraph
  obtain ⟨c, hc, hresult⟩ := ofComponents_of_partition hgraph.nodup hperm
  rw [hresult]
  by_cases hcycle : c.links.HasCycle
  · have hcircular := (hc.hasCycle_iff_circular hgraph).mp hcycle
    rw [if_neg (mt Digraph.isAcyclic_iff.mp (not_not.mpr hcycle))]
    exact ⟨by simp [hcircular], fun _ => ⟨_, rfl, rfl⟩, by simp⟩
  · have hcircular := mt (hc.hasCycle_iff_circular hgraph).mpr hcycle
    rw [if_pos (Digraph.isAcyclic_iff.mpr hcycle)]
    refine ⟨iff_of_true ⟨c, rfl⟩ hcircular, fun h => absurd h hcircular, ?_⟩
    intro d hd
    obtain rfl := Except.ok.inj hd
    exact Plan.verify_ofCondensed hc hgraph.nodup hperm hcycle

/-- The two headers of the chain can be staged as one component.  The file and the last header
cannot, because the header between them leads from the one to the other. -/
theorem ofComponents_staged_chainOfIncludes : ∃ g, FileGraph.build chainOfIncludes = .ok g ∧
    (∃ c p, ofComponents g [⟨["main.c"], false⟩, ⟨["a.h", "b.h"], false⟩] = .ok c ∧
      Plan.ofCondensed c = .ok p ∧ p.verify g c = .ok ()) ∧
    ∃ violation, ofComponents g [⟨["main.c", "b.h"], false⟩, ⟨["a.h"], false⟩] =
        .error (.invariantViolation violation) ∧
      violation.message = "condensed graph contains a cycle" := by
  obtain ⟨g, hbuild⟩ := FileGraph.exists_build_of_known chainOfIncludes (by decide)
  have hcrossed : Partitions [⟨["main.c", "b.h"], false⟩, ⟨["a.h"], false⟩] chainOfIncludes :=
    ⟨by decide, fun name => by simp [Known, chainOfIncludes, eq_comm, or_comm, or_left_comm]⟩
  have hforth : ComponentEdge chainOfIncludes [⟨["main.c", "b.h"], false⟩, ⟨["a.h"], false⟩]
      ⟨["main.c", "b.h"], false⟩ ⟨["a.h"], false⟩ :=
    ⟨by decide, by decide, by decide, by decide⟩
  have hback : ComponentEdge chainOfIncludes [⟨["main.c", "b.h"], false⟩, ⟨["a.h"], false⟩]
      ⟨["a.h"], false⟩ ⟨["main.c", "b.h"], false⟩ :=
    ⟨by decide, by decide, by decide, by decide⟩
  have hcircular := (ofComponents_staged hbuild hcrossed).2.1 ⟨_, .head hforth (.single hback)⟩
  obtain ⟨hcondensed, _, hstaged⟩ := ofComponents_staged hbuild partitions_headersTogether
  obtain ⟨c, hok⟩ := hcondensed.mpr not_circular_headersTogether
  obtain ⟨p, hplan, hverify⟩ := hstaged c hok
  exact ⟨g, hbuild, ⟨c, p, hok, hplan, hverify⟩, hcircular⟩

end Condensed

end IncludeGraph
